import BetLang.ScalarAgreement

/-! The statements of the scalar core do what the interpreter does. -/

namespace BetLang.Scalar

open Control.Interp (Comp Outcome choose loop)
open Eval (Flow AssignOp compoundBinop)
open Interp (Value RunError)
open OrderedCalls (andThen)

/-- The calls around the running function. -/
abbrev Callers := List (Locals × List (Option (Codegen.Scalar 64)))

/-- The function has not returned, its locals have the values, and the callers wait for it. -/
def At (L : Layout) (saved : Callers) (env : Env) (m : Machine) : Prop :=
  Stored L env m ∧ m.rets = [] ∧ m.saved = saved

/-- The same of the scopes around the innermost one. -/
def Around (L : Layout) (saved : Callers) (env : Env) (m : Machine) : Prop :=
  At L.tail saved env.tail m

/-- The end of a statement: `N` is left where the next one follows, `B` in the loop around. -/
inductive Ended (ret : Option Ty) (inLoop returns : Bool) (N B : Env → Machine → Prop)
    (saved : Callers) : Flow × Env → Outcome Machine → Prop where
  | normal {env : Env} {m : Machine} (hr : returns = false) (h : N env m) :
    Ended ret inLoop returns N B saved (.normal, env) (.normal m)
  | brk {env : Env} {m : Machine} (hl : inLoop = true) (h : B env m) :
    Ended ret inLoop returns N B saved (.break_, env) (.brk m)
  | cont {env : Env} {m : Machine} (hl : inLoop = true) (h : B env m) :
    Ended ret inLoop returns N B saved (.continue_, env) (.cont m)
  | ret {vals : List Value} {env : Env} {m : Machine} (hv : Returned ret vals)
    (hrets : m.rets = vals.map scalar) (hs : m.saved = saved) :
    Ended ret inLoop returns N B saved (.return_ vals, env) (.ret m)

section Rules

variable {ret : Option Ty} {inLoop returns : Bool} {N N' B B' : Env → Machine → Prop}
  {saved : Callers} {L : Layout} {env : Env} {m : Machine} {x : Run (Flow × Env)}
  {out : Option (Outcome Machine)} {c c' : Comp Machine}

theorem At.tail (h : At L saved env m) : Around L saved env m := ⟨h.1.tail, h.2⟩

theorem Ended.mono {returns' : Bool} (h : Matches (Ended ret inLoop returns N B saved) x out)
    (hr : returns = false → returns' = false) (hN : ∀ env m, N env m → N' env m)
    (hB : ∀ env m, B env m → B' env m) :
    Matches (Ended ret inLoop returns' N' B' saved) x out := by
  refine h.mono fun a out hend => ?_
  cases hend with
  | normal hf h => exact .normal (hr hf) (hN _ _ h)
  | brk hl h => exact .brk hl (hB _ _ h)
  | cont hl h => exact .cont hl (hB _ _ h)
  | ret hv hrets hs => exact .ret hv hrets hs

theorem Ended.follow {r₁ r₂ : Bool} {k : Env → Run (Flow × Env)}
    (hx : Matches (Ended ret inLoop r₁ N B saved) x (c m))
    (hk : r₁ = false → ∀ env m, N env m → Matches (Ended ret inLoop r₂ N' B saved) (k env) (c' m)) :
    Matches (Ended ret inLoop (r₁ || r₂) N' B saved) (follow x k)
      (Control.Interp.next c c' m) := by
  rw [Control.Interp.next]
  generalize c m = out at hx
  cases hx with
  | cut => exact .cut
  | escapes he out => exact .escapes he _
  | traps he => exact .traps he
  | ok h =>
    cases h with
    | normal hr h =>
      subst hr
      exact hk rfl _ _ h
    | brk hl h => exact .ok (.brk hl h)
    | cont hl h => exact .ok (.cont hl h)
    | ret hv hrets hs => exact .ok (.ret hv hrets hs)

/-- Behind a block its scope is gone. -/
theorem Ended.inScope {k : Env → Run (Flow × Env)}
    (h : Matches (Ended ret inLoop returns (Around ([] :: L) saved) (Around ([] :: L) saved) saved)
      (k ([] :: env)) out) :
    Matches (Ended ret inLoop returns (At L saved) (At L saved) saved) (inScope env k) out := by
  rw [Scalar.inScope]
  generalize k ([] :: env) = x at h
  cases h with
  | cut => exact .cut
  | escapes he out => exact .escapes he _
  | traps he => exact .traps he
  | ok h =>
    cases h with
    | normal hr h => exact .ok (.normal hr h)
    | brk hl h => exact .ok (.brk hl h)
    | cont hl h => exact .ok (.cont hl h)
    | ret hv hrets hs => exact .ok (.ret hv hrets hs)

theorem next_matches {x : Run Env} (h : Matches (Normal N) x out) :
    Matches (Ended ret inLoop false N B saved) (next x) out :=
  h.andThen fun _ _ hN => .ok (.normal rfl hN)

/-- A branch on the bool of a condition. -/
theorem branch_matches {α : Type} {R : α → Outcome Machine → Prop} {x y : Run α} {b : Bool}
    {op : Ir.Operand} (hb : evalOperand m.locals op = some (.bool b))
    (hx : Matches R x (c m)) (hy : Matches R y (c' m)) :
    Matches R (if b then x else y) (choose sem (.cond (.cond op)) c c' m) := by
  have htest : sem.test (.cond (.cond op)) m = b := by
    change (evalOperand m.locals op == some (.bool true)) = b
    rw [hb]
    cases b <;> rfl
  rw [choose, htest]
  cases b with
  | true => exact hx
  | false => exact hy

/-- The rounds of a loop, by the fuel. -/
theorem vibin_matches {cond : Env → Run Bool} {body : Env → Run (Flow × Env)} {op : Ir.Operand}
    {header : Comp Machine} {r : Bool}
    (hcond : ∀ env m, At L saved env m → Matches (Normal fun b m' =>
      evalOperand m'.locals op = some (.bool b) ∧ At L saved env m') (cond env) (header m))
    (hbody : ∀ env m, At L saved env m →
      Matches (Ended ret true r (At L saved) (At L saved) saved) (body env) (c m))
    (n : Nat) (h : At L saved env m) :
    Matches (Ended ret inLoop false (At L saved) (Around L saved) saved) (vibin cond body n env)
      (loop sem header (.cond (.cond op)) c Control.Interp.pure n m) := by
  induction n generalizing env m with
  | zero => exact .cut
  | succ n ih =>
    rw [vibin, loop]
    refine (hcond env m h).next fun b m₁ ⟨hb, hat⟩ => branch_matches hb ?_ (.ok (.normal rfl hat))
    have hround := hbody env m₁ hat
    rw [Control.Interp.round]
    generalize body env = x, c m₁ = out at hround
    cases hround with
    | cut => exact .cut
    | escapes he out => exact .escapes he _
    | traps he => exact .traps he
    | ok hend =>
      cases hend with
      | normal hr h | cont hl h => exact ih h
      | brk hl h => exact .ok (.normal rfl h)
      | ret hv hrets hs => exact .ok (.ret hv hrets hs)

end Rules

section Stmts

variable {p : Program} {ret : Option Ty} {call : FnDecl → Nat → List Value → Run (List Value)}
  {call' : Op → Comp Machine} {fuel d : Nat}

theorem At.of_kept {L : Layout} {tys : List Ir.Ty} {saved : Callers} {env : Env}
    {m m' : Machine} (h : At L saved env m) (hk : Kept tys.length m m') (hf : L.Fits tys) :
    At L saved env m' :=
  ⟨hk.stored hf h.1, hk.2.1.trans h.2.1, hk.2.2.trans h.2.2⟩

theorem returns_of_leaves {s : Stmt} (h : s.leaves = true) : s.returns = true := by
  cases s with
  | bet _ | dip | skip => rfl
  | _ => cases h

theorem coerce_of_hasTy {v : Value} {t : Ty} (hv : HasTy v t) {ty : Option Ty}
    (hty : ty = none ∨ ty = some t) : Eval.coerce v (ty.map Ty.typ) = v := by
  rcases hty with rfl | rfl
  · rfl
  · cases hv with
    | int b => exact congrArg (Value.int · .word) (by rw [Interp.wrapTo]; exact BitVec.ofInt_toInt)
    | bool b => rfl

/-- The local of a declaration or an assignment takes the value of an operand. -/
theorem use_matches {x : Run Value} {t : Ty} {op : Ir.Operand} {n l : Nat} {code : Code}
    {m : Machine} (h : Matches (Normal (Evaluates t op n m)) x (exec call' fuel code m)) :
    Matches (Normal fun v m' => ∃ m₁, HasTy v t ∧ Kept n m m₁ ∧ m' = m₁.set l (scalar v)) x
      (exec call' fuel (.seq code (.op (.assign l (.use op)))) m) := by
  rw [← OrderedCalls.andThen_return x]
  refine h.next fun v m₁ ⟨hv, hval, hkept⟩ => ?_
  have hact : sem.act (.eval (.assign l (.use op))) m₁ = some (m₁.set l (scalar v)) := by
    change m₁.assign l (ofOption (evalOperand m₁.locals op)) = _
    rw [hval]
    cases hv <;> rfl
  rw [Control.Interp.evalExpr, Control.Interp.instr, Control.Interp.perform, hact]
  exact .ok ⟨_, rfl, m₁, hv, hkept, rfl⟩

theorem At.assign {L : Layout} {tys : List Ir.Ty} {saved : Callers} {env : Env} {m : Machine}
    (h : At L saved env m) (hf : L.Fits tys) {x : String} {b : Nat × Ty} (hx : L.find x = some b)
    {v : Value} (hv : HasTy v b.2) :
    Matches (Normal (At L saved)) (assign env x v) (some (.normal (m.set b.1 (scalar v)))) := by
  obtain ⟨old, hold, _⟩ := h.1.find hx
  rw [Scalar.assign, hold]
  exact .ok ⟨_, rfl, h.1.set hf.distinct hx hv, h.2⟩

theorem execAssign_compound {op : AssignOp} (hop : op ≠ .eq) (env : Env) (x : String) (e : Expr) :
    execAssign p call d env x e op = andThen (evalExpr p call env (.name x) d) fun old =>
      andThen (evalExpr p call env e d) fun rhs =>
        andThen (some (binaryOp (compoundBinop op) old rhs)) fun v => assign env x v := by
  cases op with
  | eq => exact absurd rfl hop
  | _ => rfl

theorem lowerAssign_compound {op : AssignOp} (hop : op ≠ .eq) :
    ∃ irop, Ast.mapBinop (compoundBinop op) = some irop ∧ ∀ l pty e, lowerAssign l pty e op =
      some (.seq e.code (.op (.assign l (.binOp irop (copy l) e.op (arithMode pty irop))))) := by
  cases op with
  | eq => exact absurd rfl hop
  | _ => exact ⟨_, rfl, fun _ _ _ => rfl⟩

theorem deeper_andThen {α β : Type} {R : β → Outcome Machine → Prop} {a : α} {k : α → Run β}
    {out : Option (Outcome Machine)} (h : Matches R (k a) out) :
    Matches R (andThen (deeper d fun _ => some (.ok a)) k) out := by
  rw [deeper]
  by_cases hd : d + 1 > Eval.maxDepth
  · rw [if_pos hd]
    exact .escapes (.depth _) out
  · rw [if_neg hd]
    exact h

/-- The old value is read before the right-hand side, and behind its code. -/
theorem execAssign_matches (hcall : CallsMatch p call call') {L : Layout} {tys : List Ir.Ty}
    {t : Ty} {x : String} {l : Nat} {op : AssignOp} {e : Expr} {r : Lowered} {code : Code}
    (hf : L.Fits tys) (hx : L.find x = some (l, t)) (he : typeOf p L.ctx e = some t)
    (hr : lowerExpr p L.slots tys e = some r)
    (hop : op = .eq ∨ binaryTy (compoundBinop op) t t = some t)
    (hcode : lowerAssign l t.ir r op = some code) {saved : Callers} {env : Env} {m : Machine}
    (h : At L saved env m) :
    Matches (Normal (At L saved)) (execAssign p call d env x e op) (exec call' fuel code m) := by
  have hl : l < tys.length := hf.lt (mem_bindings hx)
  have heval : Matches (Normal (Evaluates t r.op tys.length m)) (evalExpr p call env e d)
      (exec call' fuel r.code m) := expr_matches hcall e he hf hr d h.1
  by_cases heq : op = .eq
  · subst heq
    cases hcode
    refine (use_matches heval).andThen fun v m' ⟨m₁, hv, hkept, hm'⟩ => ?_
    rw [hm']
    exact (h.of_kept hkept hf).assign hf hx hv
  · obtain ⟨irop, hirop, hlow⟩ := lowerAssign_compound heq
    rw [hlow] at hcode
    cases hcode
    obtain ⟨old, hold, hty, hlocal⟩ := h.1.find hx
    rw [execAssign_compound heq, evalExpr, evalName, hold]
    refine deeper_andThen (heval.next fun rhs m₁ ⟨hrhs, hval, hkept⟩ => ?_)
    have hread : evalOperand m₁.locals (copy l) = scalar old := (hkept.1 l hl).trans hlocal
    have hbin : Matches (Normal (Assigned m₁ l t)) (some (binaryOp (compoundBinop op) old rhs))
        (Control.Interp.instr sem
          (.eval (.assign l (.binOp irop (copy l) r.op (arithMode t.ir irop)))) m₁) := by
      have hb : Matches (Normal (Assigned m₁ l t)) _ _ :=
        binaryOp_matches hirop (hop.resolve_left heq) hty hrhs
      rw [← hread, ← hval] at hb
      exact hb
    refine hbin.andThen fun v m' ⟨hv, hm'⟩ => ?_
    rw [hm']
    exact (h.of_kept hkept hf).assign hf hx hv

theorem callExpr_matches (hcall : CallsMatch p call call') {L : Layout} {tys : List Ir.Ty}
    {e : Expr} {r : Lowered} (ht : callTyped p L.ctx e = true) (hf : L.Fits tys)
    (hr : lowerExpr p L.slots tys e = some r) {env : Env} {m : Machine} (hs : Stored L env m) :
    Matches (Normal fun _ m' => Kept tys.length m m') (evalCallExpr p call env d e)
      (exec call' fuel r.code m) := by
  have hother (h : (typeOf p L.ctx e).isSome = true) : Matches (Normal fun _ m' =>
      Kept tys.length m m') (andThen (evalExpr p call env e d) fun v => some (.ok [v]))
      (exec call' fuel r.code m) := by
    obtain ⟨t, he⟩ := Option.isSome_iff_exists.mp h
    exact (expr_matches hcall e he hf hr d hs).andThen
      fun v m' ⟨_, _, hkept⟩ => .ok ⟨m', rfl, hkept⟩
  cases e with
  | call f args =>
    obtain ⟨⟨fid, fn⟩, h⟩ := Option.isSome_iff_exists.mp ht
    obtain ⟨ts, hts, hfn⟩ := Option.bind_eq_some_iff.mp h
    obtain ⟨out, hargs, hp, _⟩ := lowerArgs_typed args hts hf
    rw [lowerExpr_call hfn, hargs] at hr
    cases hr
    refine (call_matches hcall hfn hs hp (exprs_matches hcall args hts hf hargs d hs)).mono
      fun rets out' => ?_
    rintro ⟨m', rfl, _, _, hkept⟩
    exact ⟨m', rfl, hkept⟩
  | _ => exact hother ht

mutual

theorem stmt_matches (hcall : CallsMatch p call call') :
    ∀ (s : Stmt) {inLoop : Bool} {L : Layout} {tys : List Ir.Ty} {ctx : Scopes Ty}
      {c : Control.Stmt Op} {scopes : Scopes Nat} {tys' : List Ir.Ty},
    stmtTyped p ret inLoop L.ctx s = some ctx → L.Fits tys →
    lowerStmt p L.slots tys s = some (c, scopes, tys') →
    ∃ L' : Layout, L'.slots = scopes ∧ L'.Behind L ctx tys' tys ∧
      ∀ {saved : Callers} {env : Env} {m : Machine}, At L saved env m →
        Matches (Ended ret inLoop s.returns (At L' saved) (Around L saved) saved)
          (execStmt p call d fuel env s) (Control.Interp.execStmt sem call' fuel c m)
  | .var x ty e, inLoop, L, tys, ctx, c, scopes, tys', ht, hf, hc => by
    obtain ⟨t, he, ht⟩ := Option.bind_eq_some_iff.mp ht
    split_ifs at ht with hty
    cases ht
    obtain ⟨r, hr, htr⟩ := lowerExpr_typed e he hf
    rw [lowerStmt, hr, Option.bind_eq_bind, Option.bind_some, declared_ir hty htr.ty] at hc
    cases hc
    refine ⟨_, Layout.slots_bind L x (r.tys.length, t), hf.declare htr.tys x t,
      fun {saved env m} h => ?_⟩
    refine next_matches ((use_matches (expr_matches hcall e he hf hr d h.1)).andThen
      fun v m' ⟨m₁, hv, hkept, hm'⟩ => ?_)
    have hset := hkept.set htr.tys.length_le (scalar v)
    rw [coerce_of_hasTy hv hty, hm']
    exact .ok ⟨_, rfl, (hset.stored hf h.1).bind ⟨hv, m₁.set_self _ _⟩ x, hset.2.1.trans h.2.1,
      hset.2.2.trans h.2.2⟩
  | .assign x op e, inLoop, L, tys, ctx, c, scopes, tys', ht, hf, hc => by
    obtain ⟨t, he, ht⟩ := Option.bind_eq_some_iff.mp ht
    split_ifs at ht with hx
    cases ht
    obtain ⟨l, hfind, hl, hty⟩ := hf.find hx.1
    obtain ⟨r, hr, htr⟩ := lowerExpr_typed e he hf
    simp only [lowerStmt, hl, hty, hr, Option.bind_eq_bind, Option.bind_some] at hc
    obtain ⟨code, hcode, heq⟩ := option_bind_some hc
    cases heq
    refine ⟨L, rfl, hf.stay htr.tys, fun {saved env m} h => ?_⟩
    exact next_matches (execAssign_matches hcall hf hfind he hr hx.2 hcode h)
  | .fr chain, inLoop, L, tys, ctx, c, scopes, tys', ht, hf, hc => by
    rw [stmtTyped] at ht
    split_ifs at ht with hchain
    cases ht
    obtain ⟨c', tys'', hlow, hp⟩ := emitIfChain_typed chain hchain hf
    rw [lowerStmt, hlow] at hc
    cases hc
    refine ⟨L, rfl, hf.stay hp, fun {saved env m} h => ?_⟩
    exact Ended.mono (chain_matches hcall chain hchain hf hlow h) id (fun _ _ h => h)
      fun _ _ h => h.tail
  | .vibin cond body, inLoop, L, tys, ctx, c, scopes, tys', ht, hf, hc => by
    rw [stmtTyped] at ht
    split_ifs at ht with hty
    cases ht
    obtain ⟨r, hr, htr⟩ := lowerExpr_typed cond hty.1 hf
    have hpush := (hf.mono htr.tys).push
    obtain ⟨b, tys'', hb, hp⟩ := lowerStmts_typed (L := [] :: L) body hty.2 hpush
    have hb' : lowerStmts p ([] :: L.slots) r.tys body = some (b, tys'') := hb
    rw [lowerStmt, hr, Option.bind_eq_bind, Option.bind_some, hb'] at hc
    cases hc
    refine ⟨L, rfl, hf.stay (htr.tys.trans hp), fun {saved env m} h => ?_⟩
    refine vibin_matches (r := body.returns) (fun env m h => ?_) (fun env m h => ?_) fuel h
    · refine (asBool_matches (expr_matches hcall cond hty.1 hf hr d h.1)).mono fun b out => ?_
      rintro ⟨m', rfl, hval, hkept⟩
      exact ⟨m', rfl, hval, h.of_kept hkept hf⟩
    · exact Ended.inScope (stmts_matches hcall body hty.2 hpush hb ⟨h.1.push, h.2⟩)
  | .dip, inLoop, L, tys, ctx, c, scopes, tys', ht, hf, hc => by
    rw [stmtTyped] at ht
    split_ifs at ht with hl
    cases ht
    cases hc
    exact ⟨L, rfl, hf.stay (List.prefix_refl _), fun h => .ok (.brk hl h.tail)⟩
  | .skip, inLoop, L, tys, ctx, c, scopes, tys', ht, hf, hc => by
    rw [stmtTyped] at ht
    split_ifs at ht with hl
    cases ht
    cases hc
    exact ⟨L, rfl, hf.stay (List.prefix_refl _), fun h => .ok (.cont hl h.tail)⟩
  | .bet none, inLoop, L, tys, ctx, c, scopes, tys', ht, hf, hc => by
    rw [stmtTyped] at ht
    split_ifs at ht with hret
    cases ht
    cases hc
    refine ⟨L, rfl, hf.stay (List.prefix_refl _), fun h => .ok (.ret ?_ rfl h.2.2)⟩
    rw [hret]
    exact .none
  | .bet (some e), inLoop, L, tys, ctx, c, scopes, tys', ht, hf, hc => by
    rw [stmtTyped] at ht
    split_ifs at ht with hty
    cases ht
    obtain ⟨t, hret⟩ := Option.ne_none_iff_exists'.mp hty.1
    have he := hty.2.trans hret
    obtain ⟨r, hr, htr⟩ := lowerExpr_typed e he hf
    rw [lowerStmt, hr] at hc
    cases hc
    refine ⟨L, rfl, hf.stay htr.tys, fun {saved env m} h => ?_⟩
    have hvals : Matches (Normal fun v m' => HasTy v t ∧ m'.rets = [scalar v] ∧ m'.saved = saved)
        (evalExpr p call env e d) (exec call' fuel (.seq r.code (.op (.ret [r.op]))) m) := by
      rw [← OrderedCalls.andThen_return (evalExpr p call env e d)]
      refine (expr_matches hcall e he hf hr d h.1).next fun v m₁ ⟨hv, hval, hkept⟩ => ?_
      exact .ok ⟨_, rfl, hv, congrArg ([·]) hval, hkept.2.2.trans h.2.2⟩
    refine hvals.next fun v m' ⟨hv, hrets, hsaved⟩ => .ok (.ret ?_ hrets hsaved)
    rw [hret]
    exact .some hv
  | .expr e, inLoop, L, tys, ctx, c, scopes, tys', ht, hf, hc => by
    rw [stmtTyped] at ht
    split_ifs at ht with hty
    cases ht
    obtain ⟨r, hr, hp⟩ := lowerExpr_of_callTyped hty hf
    rw [lowerStmt, hr] at hc
    cases hc
    refine ⟨L, rfl, hf.stay hp, fun {saved env m} h => ?_⟩
    refine next_matches ((callExpr_matches hcall hty hf hr h.1).andThen fun _ m' hkept => ?_)
    exact .ok ⟨m', rfl, h.of_kept hkept hf⟩

theorem chain_matches (hcall : CallsMatch p call call') :
    ∀ (chain : Chain) {inLoop : Bool} {L : Layout} {tys : List Ir.Ty} {c : Control.Chain Op}
      {tys' : List Ir.Ty},
    chainTyped p ret inLoop L.ctx chain = true → L.Fits tys →
    emitIfChain p L.slots tys chain = some (c, tys') →
    ∀ {saved : Callers} {env : Env} {m : Machine}, At L saved env m →
      Matches (Ended ret inLoop chain.returns (At L saved) (At L saved) saved)
        (execChain p call d fuel env chain) (Control.Interp.execChain sem call' fuel c m)
  | .done, inLoop, L, tys, c, tys', ht, hf, hc, saved, env, m, h => by
    cases hc
    exact .ok (.normal rfl h)
  | .naw body, inLoop, L, tys, c, tys', ht, hf, hc, saved, env, m, h => by
    obtain ⟨⟨b, tys''⟩, hb, heq⟩ := option_bind_some hc
    cases heq
    exact Ended.inScope (stmts_matches (L := [] :: L) hcall body ht hf.push hb ⟨h.1.push, h.2⟩)
  | .fr cond body rest, inLoop, L, tys, c, tys', ht, hf, hc, saved, env, m, h => by
    rw [chainTyped, Bool.and_eq_true, Bool.and_eq_true, decide_eq_true_eq] at ht
    obtain ⟨⟨hty, hbody⟩, hrest⟩ := ht
    obtain ⟨r, hr, htr⟩ := lowerExpr_typed cond hty hf
    have hpush := (hf.mono htr.tys).push
    obtain ⟨b, tys₁, hb, hp₁⟩ := lowerStmts_typed (L := [] :: L) body hbody hpush
    have hb' : lowerStmts p ([] :: L.slots) r.tys body = some (b, tys₁) := hb
    have hp := htr.tys.trans hp₁
    simp only [emitIfChain, hr, hb', Option.bind_eq_bind, Option.bind_some] at hc
    obtain ⟨⟨c', tys₂⟩, hc', heq⟩ := option_bind_some hc
    cases heq
    refine (asBool_matches (expr_matches hcall cond hty hf hr d h.1)).next
      fun b' m₁ ⟨hval, hkept⟩ => ?_
    have hat := h.of_kept hkept hf
    have hthen : Matches (Ended ret inLoop body.returns (At L saved) (At L saved) saved)
        (inScope env fun env => execStmts p call d fuel env body)
        (Control.Interp.execBlock sem call' fuel b m₁) :=
      Ended.inScope (stmts_matches hcall body hbody hpush hb ⟨hat.1.push, hat.2⟩)
    refine branch_matches hval (Ended.mono hthen ?_ (fun _ _ h => h) fun _ _ h => h)
      (Ended.mono (chain_matches hcall rest hrest (hf.mono hp) hc' hat) ?_ (fun _ _ h => h)
        fun _ _ h => h)
    · intro hbody
      rw [Chain.returns, hbody, Bool.false_and]
    · intro hrest
      rw [Chain.returns, hrest, Bool.and_false]

theorem stmts_matches (hcall : CallsMatch p call call') :
    ∀ (b : Block) {inLoop : Bool} {L : Layout} {tys : List Ir.Ty} {c : Control.Block Op}
      {tys' : List Ir.Ty},
    stmtsTyped p ret inLoop L.ctx b = true → L.Fits tys →
    lowerStmts p L.slots tys b = some (c, tys') →
    ∀ {saved : Callers} {env : Env} {m : Machine}, At L saved env m →
      Matches (Ended ret inLoop b.returns (Around L saved) (Around L saved) saved)
        (execStmts p call d fuel env b) (Control.Interp.execBlock sem call' fuel c m)
  | .nil, inLoop, L, tys, c, tys', ht, hf, hc, saved, env, m, h => by
    cases hc
    exact .ok (.normal rfl h.tail)
  | .cons s rest, inLoop, L, tys, c, tys', ht, hf, hc, saved, env, m, h => by
    rw [stmtsTyped] at ht
    cases hs : stmtTyped p ret inLoop L.ctx s with
    | none =>
      rw [hs] at ht
      cases ht
    | some ctx =>
      rw [hs] at ht
      obtain ⟨c₁, L₁, tys₁, hc₁, hL₁⟩ := lowerStmt_typed s hs hf
      obtain ⟨L', hslots, hL, hstmt⟩ := stmt_matches hcall s hs hf hc₁
      have haround : Around L' saved = Around L saved := by
        unfold Around
        rw [hL.tail]
      rw [← hL.ctx] at ht
      rw [lowerStmts, hc₁, Option.bind_eq_bind, Option.bind_some, ← hslots] at hc
      cases hleave : s.leaves with
      | true =>
        rw [hleave] at hc
        cases hc
        refine Ended.follow (hstmt h) fun hr => ?_
        rw [returns_of_leaves hleave] at hr
        cases hr
      | false =>
        rw [hleave] at hc
        obtain ⟨⟨cs, tys₂⟩, hcs, heq⟩ := option_bind_some hc
        cases heq
        refine Ended.follow (hstmt h) fun _ env m h => ?_
        rw [← haround]
        exact stmts_matches hcall rest ht hL.fits hcs h

end

end Stmts

end BetLang.Scalar
