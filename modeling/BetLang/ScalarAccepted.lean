import BetLang.ControlDiscipline
import BetLang.ScalarCompiled

/-! Every well-typed program of the scalar core is compiled. -/

namespace BetLang.Scalar

open Interp (Value RunError)

section Blocks

variable {sig : Control.Sig} {loops : Control.Lower.Loops} {st : Control.Lower.State Op}

theorem lowerLoop_accepts {header : Control.Lower.State Op → Option (Control.Lower.State Op)}
    {t : Control.Test Op}
    {body : Nat → Nat → Control.Lower.State Op → Option (Control.Lower.State Op)}
    (hh : ∀ st, ∃ st', header st = some st')
    (hb : ∀ hd ex st, ∃ st', body hd ex st = some st') :
    ∃ st', Control.Lower.lowerLoop header t body st = some st' := by
  obtain ⟨st₁, h₁⟩ := hh ((st.reserveBlock.setTerm st.cur (.goto st.blocks.length)).select
    st.blocks.length)
  obtain ⟨st₂, h₂⟩ := hb st.blocks.length st₁.newBlock.blocks.length
    ((st₁.newBlock.reserveBlock.setTerm st₁.cur (.branch t st₁.blocks.length
      st₁.newBlock.blocks.length)).select st₁.blocks.length)
  refine ⟨st₂.select st₁.newBlock.blocks.length, ?_⟩
  rw [Control.Lower.lowerLoop, h₁, Option.bind_eq_bind, Option.bind_some]
  exact congrArg (Option.bind · _) h₂

/-- Nothing in an expression is refused. -/
theorem lowerExpr_accepts (e : Control.Expr Op) (st : Control.Lower.State Op) :
    ∃ st', Control.Lower.lowerExpr st e = some st' := by
  induction e generalizing st with
  | nil | op o | call o | printBool o | map o | filter o => exact ⟨_, rfl⟩
  | seq first second ihf ihs =>
    obtain ⟨st₁, h₁⟩ := ihf st
    obtain ⟨st₂, h₂⟩ := ihs st₁
    exact ⟨st₂, by rw [Control.Lower.lowerExpr, h₁]; exact h₂⟩
  | shortCircuit isAnd o l r ihl ihr =>
    obtain ⟨st₁, h₁⟩ := ihl st
    obtain ⟨st₂, h₂⟩ := ihr st₁.newBlock
    rw [Control.Lower.lowerExpr, h₁, Option.bind_eq_bind, Option.bind_some, h₂]
    exact ⟨_, rfl⟩

end Blocks

section Stmts

variable {p : Program} {ret : Option Ty}

/-- How the values of a `bet` are counted. -/
def sigOf (ret : Option Ty) : Control.Sig := ⟨if ret.isSome then 1 else 0, false⟩

mutual

theorem stmt_accepts : ∀ (s : Stmt) {inLoop : Bool} {L : Layout} {tys : List Ir.Ty}
      {ctx : Scopes Ty} {c : Control.Stmt Op} {scopes : Scopes Nat} {tys' : List Ir.Ty},
    stmtTyped p ret inLoop L.ctx s = some ctx → L.Fits tys →
    lowerStmt p L.slots tys s = some (c, scopes, tys') →
    ∀ {loops : Control.Lower.Loops} (st : Control.Lower.State Op), (inLoop = true → loops ≠ []) →
      ∃ st', Control.Lower.lowerStmt (sigOf ret) loops st c = some st'
  | .var x ty e, inLoop, L, tys, ctx, c, scopes, tys', ht, hf, hc, loops, st, hl => by
    obtain ⟨r, _, heq⟩ := option_bind_some hc
    cases heq
    exact lowerExpr_accepts _ st
  | .assign x op e, inLoop, L, tys, ctx, c, scopes, tys', ht, hf, hc, loops, st, hl => by
    obtain ⟨l, _, hc⟩ := option_bind_some hc
    obtain ⟨pty, _, hc⟩ := option_bind_some hc
    obtain ⟨r, _, hc⟩ := option_bind_some hc
    obtain ⟨code, _, heq⟩ := option_bind_some hc
    cases heq
    exact lowerExpr_accepts code st
  | .fr chain, inLoop, L, tys, ctx, c, scopes, tys', ht, hf, hc, loops, st, hl => by
    rw [stmtTyped] at ht
    split_ifs at ht with hty
    obtain ⟨⟨c', tys''⟩, hc', heq⟩ := option_bind_some hc
    cases heq
    obtain ⟨st', h⟩ := chain_accepts chain hty hf hc' st.blocks.length st.reserveBlock hl
    exact ⟨_, congrArg (Option.bind · _) h⟩
  | .vibin cond body, inLoop, L, tys, ctx, c, scopes, tys', ht, hf, hc, loops, st, hl => by
    rw [stmtTyped] at ht
    split_ifs at ht with hty
    obtain ⟨r, hr, hc⟩ := option_bind_some hc
    obtain ⟨⟨b, tys''⟩, hb, heq⟩ := option_bind_some hc
    cases heq
    obtain ⟨r', hr', htr⟩ := lowerExpr_typed cond hty.1 hf
    cases hr.symm.trans hr'
    rw [Control.Lower.lowerStmt]
    refine lowerLoop_accepts (fun st => lowerExpr_accepts r.code st) fun hd ex st => ?_
    obtain ⟨st', h⟩ := stmts_accept (L := [] :: L) body hty.2 (hf.mono htr.tys).push hb
      st fun _ => List.cons_ne_nil (hd, ex) loops
    exact ⟨_, congrArg (Option.bind · _) h⟩
  | .dip, inLoop, L, tys, ctx, c, scopes, tys', ht, hf, hc, loops, st, hl => by
    rw [stmtTyped] at ht
    split_ifs at ht with hin
    cases hc
    obtain ⟨l, loops, rfl⟩ := List.exists_cons_of_ne_nil (hl hin)
    exact ⟨_, rfl⟩
  | .skip, inLoop, L, tys, ctx, c, scopes, tys', ht, hf, hc, loops, st, hl => by
    rw [stmtTyped] at ht
    split_ifs at ht with hin
    cases hc
    obtain ⟨l, loops, rfl⟩ := List.exists_cons_of_ne_nil (hl hin)
    exact ⟨_, rfl⟩
  | .bet none, inLoop, L, tys, ctx, c, scopes, tys', ht, hf, hc, loops, st, hl => by
    rw [stmtTyped] at ht
    split_ifs at ht with hret
    cases hc
    rw [hret]
    exact ⟨_, rfl⟩
  | .bet (some e), inLoop, L, tys, ctx, c, scopes, tys', ht, hf, hc, loops, st, hl => by
    rw [stmtTyped] at ht
    split_ifs at ht with hty
    obtain ⟨t, hret⟩ := Option.ne_none_iff_exists'.mp hty.1
    obtain ⟨r, hr, heq⟩ := option_bind_some hc
    cases heq
    rw [hret]
    obtain ⟨st', h⟩ := lowerExpr_accepts (.seq r.code (.op (.ret [r.op]))) st
    exact ⟨_, congrArg (Option.bind · _) h⟩
  | .expr e, inLoop, L, tys, ctx, c, scopes, tys', ht, hf, hc, loops, st, hl => by
    obtain ⟨r, _, heq⟩ := option_bind_some hc
    cases heq
    exact lowerExpr_accepts _ st

theorem chain_accepts : ∀ (chain : Chain) {inLoop : Bool} {L : Layout} {tys : List Ir.Ty}
      {c : Control.Chain Op} {tys' : List Ir.Ty},
    chainTyped p ret inLoop L.ctx chain = true → L.Fits tys →
    emitIfChain p L.slots tys chain = some (c, tys') →
    ∀ {loops : Control.Lower.Loops} (merge : Nat) (st : Control.Lower.State Op),
      (inLoop = true → loops ≠ []) →
      ∃ st', Control.Lower.emitIfChain (sigOf ret) loops merge st c = some st'
  | .done, inLoop, L, tys, c, tys', ht, hf, hc, loops, merge, st, hl => by
    cases hc
    exact ⟨_, rfl⟩
  | .naw body, inLoop, L, tys, c, tys', ht, hf, hc, loops, merge, st, hl => by
    obtain ⟨⟨b, tys''⟩, hb, heq⟩ := option_bind_some hc
    cases heq
    obtain ⟨st', h⟩ := stmts_accept (L := [] :: L) body ht hf.push hb st hl
    exact ⟨_, congrArg (Option.bind · _) h⟩
  | .fr cond body rest, inLoop, L, tys, c, tys', ht, hf, hc, loops, merge, st, hl => by
    rw [chainTyped, Bool.and_eq_true, Bool.and_eq_true, decide_eq_true_eq] at ht
    obtain ⟨⟨hty, hbody⟩, hrest⟩ := ht
    obtain ⟨r, hr, hc⟩ := option_bind_some hc
    obtain ⟨⟨b, tys₁⟩, hb, hc⟩ := option_bind_some hc
    obtain ⟨⟨c', tys₂⟩, hc', heq⟩ := option_bind_some hc
    cases heq
    obtain ⟨r', hr', htr⟩ := lowerExpr_typed cond hty hf
    cases hr.symm.trans hr'
    have hpush := (hf.mono htr.tys).push
    obtain ⟨b', tys₁', hb', hp⟩ := lowerStmts_typed (L := [] :: L) body hbody hpush
    cases hb.symm.trans hb'
    obtain ⟨st₁, h₁⟩ := lowerExpr_accepts r.code st
    obtain ⟨st₂, h₂⟩ := stmts_accept (L := [] :: L) body hbody hpush hb st₁.newBlock hl
    obtain ⟨st₃, h₃⟩ := chain_accepts rest hrest (hf.mono (htr.tys.trans hp)) hc' merge
      (st₂.terminate (.goto merge)).newBlock hl
    simp only [Control.Lower.emitIfChain, h₁, h₂, h₃, Option.bind_eq_bind, Option.bind_some]
    exact ⟨_, rfl⟩

theorem stmts_accept : ∀ (b : Block) {inLoop : Bool} {L : Layout} {tys : List Ir.Ty}
      {c : Control.Block Op} {tys' : List Ir.Ty},
    stmtsTyped p ret inLoop L.ctx b = true → L.Fits tys →
    lowerStmts p L.slots tys b = some (c, tys') →
    ∀ {loops : Control.Lower.Loops} (st : Control.Lower.State Op), (inLoop = true → loops ≠ []) →
      ∃ st', Control.Lower.lowerBlock (sigOf ret) loops st c = some st'
  | .nil, inLoop, L, tys, c, tys', ht, hf, hc, loops, st, hl => by
    cases hc
    exact ⟨_, rfl⟩
  | .cons s rest, inLoop, L, tys, c, tys', ht, hf, hc, loops, st, hl => by
    rw [stmtsTyped] at ht
    cases hs : stmtTyped p ret inLoop L.ctx s with
    | none =>
      rw [hs] at ht
      cases ht
    | some ctx =>
      rw [hs] at ht
      obtain ⟨c₁, L₁, tys₁, hc₁, hL⟩ := lowerStmt_typed s hs hf
      rw [← hL.ctx] at ht
      obtain ⟨st₁, h₁⟩ := stmt_accepts s hs hf hc₁ st hl
      rw [lowerStmts, hc₁, Option.bind_eq_bind, Option.bind_some] at hc
      have hcons (cs : Control.Block Op)
          (h : ∃ st', Control.Lower.lowerBlock (sigOf ret) loops st₁ cs = some st') :
          ∃ st', Control.Lower.lowerBlock (sigOf ret) loops st (.cons c₁ cs) = some st' := by
        rw [Control.Lower.lowerBlock, h₁]
        by_cases hd : st.done
        · exact ⟨st, if_pos hd⟩
        · rw [if_neg hd]
          exact h
      cases hleave : s.leaves with
      | true =>
        rw [hleave] at hc
        cases hc
        exact hcons .nil ⟨_, rfl⟩
      | false =>
        rw [hleave] at hc
        obtain ⟨⟨cs, tys₂⟩, hcs, heq⟩ := option_bind_some hc
        cases heq
        exact hcons cs (stmts_accept rest ht hL.fits hcs st₁ hl)

end

end Stmts

section Functions

open Control.Checked (entry_open lowerBlock_agrees unchecked_finish)

/-- Behind a body that is accepted every block has a terminator. -/
theorem lowerFunc_accepts {f : Control.Func Op} {st : Control.Lower.State Op}
    (h : Control.Lower.lowerBlock f.sig [] (Cfg.Builder.newBlock ⟨[], 0, false⟩) f.body = some st) :
    ∃ g, Control.Lower.lowerFunc f = some g := by
  rcases lowerBlock_agrees f.body [] ∅ 1 _ (fun l hl => (by cases hl)) (.inl entry_open) with
    ⟨_, hnone⟩ | ⟨st₁, _, hst, hr⟩
  · cases h.symm.trans hnone
  · cases h.symm.trans hst
    have hend : ∀ x ∈ Control.Checked.targets
        (if f.sig.rets = 0 then .ret else .unreachable : Control.Term Op), x < 1 := by
      intro x hx
      by_cases hrets : f.sig.rets = 0
      · rw [if_pos hrets] at hx
        cases hx
      · rw [if_neg hrets] at hx
        cases hx
    obtain ⟨st₂, _, herase, hshut⟩ := hr.terminate hend
    obtain ⟨g, _, hblocks, _⟩ := hshut.finish
    have hall : st₂.erase.blocks.all (·.term.isSome) = true := by
      rw [Cfg.Walker.erase_blocks, hblocks, List.all_map, List.all_eq_true]
      exact fun _ _ => rfl
    refine ⟨st₂.erase.blocks, ?_⟩
    rw [Control.Lower.lowerFunc, h, Option.bind_eq_bind, Option.bind_some, ← herase]
    exact unchecked_finish hall

variable {p : Program}

theorem func_accepts {fn : FnDecl} (ht : fn.Typed p) :
    ∃ cf g, lowerFunc p fn = some cf ∧ Control.Lower.lowerFunc cf = some g := by
  have hctx : Layout.ctx [[], paramLayout fn.params] = [[], fn.scope] :=
    congrArg ([[], ·]) (paramLayout_ctx fn.params)
  have hslots : Layout.slots [[], paramLayout fn.params] = [[], paramSlots fn.params] :=
    congrArg ([[], ·]) (paramLayout_slots fn.params)
  have htyped := ht.1
  rw [← hctx] at htyped
  have hfit := params_fit fn.params
  obtain ⟨body, tys', hbody, _⟩ := lowerStmts_typed fn.body htyped hfit
  have hloops : false = true → ([] : Control.Lower.Loops) ≠ [] := fun h => (by cases h)
  obtain ⟨st, hst⟩ := stmts_accept fn.body htyped hfit hbody
    (Cfg.Builder.newBlock ⟨[], 0, false⟩) hloops
  obtain ⟨g, hg⟩ := lowerFunc_accepts (f := ⟨sigOf fn.ret, body⟩) hst
  refine ⟨⟨sigOf fn.ret, body⟩, g, ?_, hg⟩
  rw [hslots] at hbody
  exact congrArg (Option.bind · _) hbody

/-- Whatever is well-typed is compiled. -/
theorem compile_isSome (ht : p.Typed) : ∃ mir, compile p = some mir := by
  have hall : ∀ fns ⊆ p, ∃ cp mir, fns.mapM (lowerFunc p) = some cp ∧
      Control.Lower.lowerProgram cp = some mir := by
    intro fns hsub
    induction fns with
    | nil => exact ⟨[], [], rfl, rfl⟩
    | cons fn fns ih =>
      obtain ⟨cf, g, hcf, hg⟩ := func_accepts (ht.funcs fn (hsub List.mem_cons_self))
      obtain ⟨cp, mir, hcp, hmir⟩ := ih fun x hx => hsub (List.mem_cons_of_mem _ hx)
      refine ⟨cf :: cp, g :: mir, ?_, ?_⟩
      · rw [List.mapM_cons, hcf, Option.bind_eq_bind, Option.bind_some, hcp]
        rfl
      · rw [Control.Lower.lowerProgram, List.mapM_cons, hg, Option.bind_eq_bind, Option.bind_some]
        exact congrArg (Option.bind · _) hmir
  obtain ⟨cp, mir, hcp, hmir⟩ := hall p fun _ h => h
  exact ⟨mir, by rw [compile, lower, hcp]; exact hmir⟩

theorem inc_compiles : ∃ mir, compile [inc] = some mir := compile_isSome inc_typed

end Functions

section Soundness

variable {p : Program}

/-- What a call of a well-typed program may come to. -/
def Sound (ret : Option Ty) : Run (List Value) → Prop
  | none => True
  | some (.error e) => Escapes e ∨ Traps e
  | some (.ok rets) => Returned ret rets

/-- A well-typed program comes to no error but a division by zero, an overflow and the limit on
nesting, and returns what it declares. -/
theorem callFn_sound (ht : p.Typed) {fid : Nat} {fn : FnDecl} (hfn : p[fid]? = some fn) (n d : Nat)
    {args : List Value} (hargs : List.Forall₂ HasTy args (fn.params.map (·.2))) :
    Sound fn.ret (callFn p n fn d args) := by
  obtain ⟨mir, hmir⟩ := compile_isSome ht
  obtain ⟨cp, hcp, _⟩ := option_bind_some hmir
  have h := callFn_matches ht hcp n hfn d hargs (m := initial args) (fun _ => rfl) rfl
  generalize callFn p n fn d args = x, Control.Interp.callFn sem cp n fid (initial args) = out at h
  cases h with
  | cut => trivial
  | escapes he out => exact .inl he
  | traps he => exact .inr he
  | ok hend =>
    obtain ⟨_, _, hret, _⟩ := hend
    exact hret

theorem inc_sound : Sound (some .int) (callFn [inc] 3 inc 0 [.word 5]) := by
  have hfn : ([inc] : Program)[0]? = some inc := rfl
  exact callFn_sound inc_typed hfn 3 0 (.cons (.int 5) .nil)

end Soundness

end BetLang.Scalar
