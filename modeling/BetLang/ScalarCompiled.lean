import BetLang.ControlReach
import BetLang.ScalarStatements

/-! The compiled scalar core: a call of a well-typed program returns, panics or runs on in the
machine exactly where it does when it is interpreted. -/

namespace BetLang.Scalar

open Control.Interp (Comp Outcome)
open Interp (Value RunError)
open OrderedCalls (andThen)

section Params

/-- The locals of the parameters. -/
def paramLayout (params : List (String × Ty)) : List (String × Nat × Ty) :=
  (params.zipIdx.map fun p => (p.1.1, p.2, p.1.2)).reverse

theorem paramLayout_slots (params : List (String × Ty)) :
    (paramLayout params).map (Prod.map id (·.1)) = paramSlots params := by
  rw [paramLayout, paramSlots, List.map_reverse, List.map_map]
  rfl

theorem paramLayout_ctx (params : List (String × Ty)) :
    (paramLayout params).map (Prod.map id (·.2)) = params.reverse := by
  rw [paramLayout, List.map_reverse, List.map_map]
  congr
  conv_rhs => rw [← List.zipIdx_map_fst 0 params]
  rfl

theorem params_fit (params : List (String × Ty)) :
    Layout.Fits [[], paramLayout params] (params.map (·.2.ir)) := by
  have hbindings : Scopes.bindings [[], paramLayout params] =
      (params.zipIdx.map fun p => (p.2, p.1.2)).reverse := by
    rw [Scopes.bindings, paramLayout, List.flatten_cons, List.nil_append, List.flatten_cons,
      List.flatten_nil, List.append_nil, List.map_reverse, List.map_map]
    rfl
  refine ⟨fun b hb => ?_, ?_⟩
  · rw [hbindings, List.mem_reverse] at hb
    obtain ⟨⟨p, i⟩, hp, rfl⟩ := List.mem_map.mp hb
    rw [List.getElem?_map, List.mem_zipIdx_iff_getElem?.mp hp]
    rfl
  · have hslots : (Scopes.bindings [[], paramLayout params]).map (·.1) =
        (List.range' 0 params.length).reverse := by
      rw [hbindings, List.map_reverse, List.map_map, ← List.zipIdx_map_snd]
      rfl
    rw [hslots, List.nodup_reverse]
    exact List.nodup_range'

/-- Values that have the types are declared as they are. -/
theorem declareParams_eq {params : List (String × Ty)} {vals : List Value}
    (h : List.Forall₂ HasTy vals (params.map (·.2))) (scope : List (String × Value)) :
    declareParams params vals scope = ((params.map (·.1)).zip vals).reverse ++ scope := by
  induction params generalizing vals scope with
  | nil =>
    cases h
    rfl
  | cons p params ih =>
    cases h with
    | cons hv h =>
      rw [declareParams, ih h, List.map_cons, List.zip_cons_cons, List.reverse_cons,
        List.append_assoc]
      have hcoerce := @coerce_of_hasTy _ _ hv (some p.2) (.inr rfl)
      rw [Option.map_some] at hcoerce
      rw [hcoerce]
      rfl

theorem params_bound {params : List (String × Ty)} {vals : List Value} {m : Machine} {k : Nat}
    (h : List.Forall₂ HasTy vals (params.map (·.2)))
    (hm : ∀ i, m.locals (k + i) = vals[i]?.bind scalar) :
    List.Forall₂ (Bound m) ((params.zipIdx k).map fun p => (p.1.1, p.2, p.1.2))
      ((params.map (·.1)).zip vals) := by
  induction params generalizing vals k with
  | nil => exact .nil
  | cons p params ih =>
    cases h with
    | cons hv h =>
      refine .cons ⟨rfl, hv, hm 0⟩ (ih h fun i => ?_)
      rw [Nat.add_assoc, Nat.add_comm 1]
      exact hm (i + 1)

theorem params_stored {params : List (String × Ty)} {vals : List Value}
    (h : List.Forall₂ HasTy vals (params.map (·.2))) {m : Machine}
    (hm : ∀ i, m.locals i = vals[i]?.bind scalar) :
    Stored [paramLayout params] [declareParams params vals []] m := by
  rw [declareParams_eq h, List.append_nil]
  refine .cons (List.rel_reverse (params_bound h fun i => ?_)) .nil
  rw [Nat.zero_add]
  exact hm i

end Params

section Calls

variable {p : Program} {cp : Control.Program Op}

/-- What the function returns is left in the machine. -/
def Returns (ret : Option Ty) (saved : Callers) (rets : List Value) (out : Outcome Machine) :
    Prop :=
  ∃ m', out = .ret m' ∧ Returned ret rets ∧ m'.rets = rets.map scalar ∧ m'.saved = saved

theorem body_matches {call : FnDecl → Nat → List Value → Run (List Value)}
    {call' : Op → Comp Machine} (hcall : CallsMatch p call call') {fn : FnDecl} (ht : fn.Typed p)
    {cf : Control.Func Op} (hc : lowerFunc p fn = some cf) {vals : List Value}
    (hvals : List.Forall₂ HasTy vals (fn.params.map (·.2))) {m : Machine}
    (hm : ∀ i, m.locals i = vals[i]?.bind scalar) (hrets : m.rets = []) (d fuel : Nat) :
    Matches (Returns fn.ret m.saved)
      (andThen (inScope [declareParams fn.params vals []] fun env =>
        execStmts p call d fuel env fn.body) fun out => finish fn out.1)
      (Control.Interp.finish cf.sig (Control.Interp.execBlock sem call' fuel cf.body m)) := by
  obtain ⟨⟨body, tys⟩, hbody, heq⟩ := option_bind_some hc
  cases heq
  have hctx : Layout.ctx [[], paramLayout fn.params] = [[], fn.scope] :=
    congrArg ([[], ·]) (paramLayout_ctx fn.params)
  have hslots : Layout.slots [[], paramLayout fn.params] = [[], paramSlots fn.params] :=
    congrArg ([[], ·]) (paramLayout_slots fn.params)
  have htyped := ht.1
  rw [← hctx] at htyped
  rw [← hslots] at hbody
  have hstored := params_stored hvals hm
  have hblock : Matches (Ended fn.ret false fn.body.returns (At [paramLayout fn.params] m.saved)
      (At [paramLayout fn.params] m.saved) m.saved)
      (inScope [declareParams fn.params vals []] fun env => execStmts p call d fuel env fn.body)
      (Control.Interp.execBlock sem call' fuel body m) :=
    Ended.inScope (stmts_matches hcall fn.body htyped (params_fit fn.params) hbody
      ⟨hstored.push, hrets, rfl⟩)
  generalize (inScope [declareParams fn.params vals []] fun env =>
    execStmts p call d fuel env fn.body) = x,
    Control.Interp.execBlock sem call' fuel body m = out at hblock
  cases hblock with
  | cut => exact .cut
  | escapes he out => exact .escapes he _
  | traps he => exact .traps he
  | ok hend =>
    cases hend with
    | normal hr h =>
      -- A function that returns values does not come to the end of its body.
      have hnone : fn.ret = none := by
        by_contra hne
        rw [ht.2 hne] at hr
        cases hr
      rw [hnone]
      exact .ok ⟨_, rfl, .none, h.2.1, h.2.2⟩
    | brk hl h | cont hl h => cases hl
    | ret hv hrets hs => exact .ok ⟨_, rfl, hv, hrets, hs⟩

theorem find_some {f : String} {fid : Nat} {fn : FnDecl} (h : p.find f = some (fid, fn)) :
    p[fid]? = some fn := by
  obtain ⟨i, _, h⟩ := Option.bind_eq_some_iff.mp h
  obtain ⟨fn', hfn, heq⟩ := Option.map_eq_some_iff.mp h
  cases heq
  exact hfn

theorem bind_eq_join {α β : Type} (o : Option α) (f : α → Option β) :
    o.bind f = (o.map f).join := by
  cases o <;> rfl

theorem operands_read {ops : List Ir.Operand} {vals : List Value} {locals : Locals}
    (h : ops.map (evalOperand locals) = vals.map scalar) (i : Nat) :
    ops[i]?.bind (evalOperand locals) = vals[i]?.bind scalar := by
  have hi := congrArg (·[i]?) h
  simp only [List.getElem?_map] at hi
  rw [bind_eq_join, bind_eq_join, hi]

/-- What a call site makes of a call. -/
theorem callOp_matches {ret : Option Ty} {x : Run (List Value)} {callFn' : Nat → Comp Machine}
    {dest fid : Nat} {ops : List Ir.Operand} {m : Machine}
    (h : Matches (Returns ret ((m.locals, m.rets) :: m.saved)) x
      (callFn' fid
        ⟨fun i => ops[i]?.bind (evalOperand m.locals), [], (m.locals, m.rets) :: m.saved⟩)) :
    Matches (Normal fun rets m' => Returned ret rets ∧
        m'.locals = m.locals.set dest (rets.head?.bind scalar) ∧ m'.rets = m.rets ∧
        m'.saved = m.saved)
      x (Control.Interp.callOp sem callFn' (.call dest fid ops) m) := by
  have henter : sem.enter (.call dest fid ops) m =
      some ⟨fun i => ops[i]?.bind (evalOperand m.locals), [], (m.locals, m.rets) :: m.saved⟩ := rfl
  have hcallee : sem.callee (.call dest fid ops) m = fid := rfl
  rw [Control.Interp.callOp, henter]
  dsimp only
  rw [hcallee]
  generalize callFn' fid _ = out at h
  cases h with
  | cut => exact .cut
  | escapes he out => exact .escapes he _
  | traps he => exact .traps he
  | ok hend =>
    obtain ⟨⟨locals, rets', saved⟩, rfl, hret, rfl, rfl⟩ := hend
    refine .ok ⟨_, rfl, hret, ?_, rfl, rfl⟩
    rw [bind_eq_join, ← List.head?_map]

/-- Calls from outside and from call sites, by the fuel. -/
theorem callFn_matches (ht : p.Typed) (hc : lower p = some cp) (n : Nat) {fid : Nat} {fn : FnDecl}
    (hfn : p[fid]? = some fn) (d : Nat) {vals : List Value}
    (hvals : List.Forall₂ HasTy vals (fn.params.map (·.2))) {m : Machine}
    (hm : ∀ i, m.locals i = vals[i]?.bind scalar) (hrets : m.rets = []) :
    Matches (Returns fn.ret m.saved) (callFn p n fn d vals)
      (Control.Interp.callFn sem cp n fid m) := by
  induction n generalizing fid fn d vals m with
  | zero => exact .cut
  | succ n ih =>
    obtain ⟨cf, hcf, hlow⟩ := forall₂_getElem? (mapM_some hc) hfn
    have hcall : CallsMatch p (callFn p n) (Control.Interp.callOp sem
        (Control.Interp.callFn sem cp n)) := by
      intro f fid fn hfind d vals hvals dest ops m hops
      refine callOp_matches ?_
      exact ih (m := ⟨_, [], _⟩) (find_some hfind) d hvals (operands_read hops) rfl
    have harity : ¬ vals.length ≠ fn.params.length := by
      rw [hvals.length_eq, List.length_map]
      exact fun h => h rfl
    rw [callFn, Control.Interp.callFn, hcf]
    refine Matches.deeper ?_
    rw [if_neg harity]
    exact body_matches hcall (ht.funcs fn (List.mem_of_getElem? hfn)) hlow hvals hm hrets (d + 1) n

end Calls

section Runs

open Control (Reaches Ends)
open Control.Mir (start)

variable {p : Program} {cp : Control.Program Op}
  {mir : List (Cfg.Blocks (Control.Instr Op) (Control.Term Op))}

/-- A call from outside. -/
def initial (args : List Value) : Machine := ⟨fun i => args[i]?.bind scalar, [], []⟩

theorem reaches_returned (hl : Control.Lower.lowerProgram cp = some mir) {n fid : Nat}
    {m m' : Machine} (h : Control.Interp.callFn sem cp n fid m = some (.ret m')) :
    Reaches sem mir (start fid m) (.final (.returned m')) := by
  obtain ⟨g, q, hg, hq, hreach⟩ := (Control.callFn_simulates sem hl n fid m []).sound _ h
  exact hreach.trans (.single (Control.step_term _ _ _ hg hq))

/-- What a call comes to with some fuel, in both runs. -/
theorem call_cases (ht : p.Typed) (hc : compile p = some mir) {fid : Nat} {fn : FnDecl}
    (hfn : p[fid]? = some fn) {args : List Value}
    (hargs : List.Forall₂ HasTy args (fn.params.map (·.2))) (n : Nat) :
    (callFn p n fn 0 args = none ∧ ∀ k < n - 1, ¬ Ends sem mir k (start fid (initial args))) ∨
      (∃ e, callFn p n fn 0 args = some (.error e) ∧
        (Escapes e ∨ Traps e ∧ Reaches sem mir (start fid (initial args)) (.final .panicked))) ∨
      ∃ rets m', callFn p n fn 0 args = some (.ok rets) ∧ Returned fn.ret rets ∧
        m'.rets = rets.map scalar ∧
        Reaches sem mir (start fid (initial args)) (.final (.returned m')) := by
  obtain ⟨cp, hcp, hl⟩ := option_bind_some hc
  have h := callFn_matches ht hcp n hfn 0 hargs (m := initial args) (fun _ => rfl) rfl
  have hsim := Control.callFn_simulates sem hl n fid (initial args) []
  generalize callFn p n fn 0 args = x,
    hout : Control.Interp.callFn sem cp n fid (initial args) = out at h
  cases h with
  | cut =>
    rw [hout] at hsim
    exact .inl ⟨rfl, fun k hk => hsim.endless hk⟩
  | escapes he out => exact .inr (.inl ⟨_, rfl, .inl he⟩)
  | traps he => exact .inr (.inl ⟨_, rfl, .inr ⟨he, hsim.sound _ hout⟩⟩)
  | ok hend =>
    obtain ⟨m', rfl, hret, hrets, _⟩ := hend
    exact .inr (.inr ⟨_, m', rfl, hret, hrets, reaches_returned hl hout⟩)

theorem returned_inj {ret : Option Ty} {rets rets' : List Value} (h : Returned ret rets)
    (h' : Returned ret rets') (heq : rets.map scalar = rets'.map scalar) : rets = rets' := by
  cases h with
  | none =>
    cases h'
    rfl
  | some hv =>
    cases h' with
    | some hv' => cases hv <;> cases hv' <;> cases heq <;> rfl

/-- The interpreter does not stop for a reason of its own. -/
def Undisturbed (p : Program) (fn : FnDecl) (args : List Value) : Prop :=
  ∀ n e, callFn p n fn 0 args = some (.error e) → ¬ Escapes e

section Ends

variable (ht : p.Typed) (hc : compile p = some mir) {fid : Nat} {fn : FnDecl}
  (hfn : p[fid]? = some fn) {args : List Value}
  (hargs : List.Forall₂ HasTy args (fn.params.map (·.2))) (hu : Undisturbed p fn args)

include ht hc hfn hargs hu

/-- What the interpreter comes to where the machine has come to an end. -/
theorem end_cases {out : Control.Mir.Final Machine}
    (h : Reaches sem mir (start fid (initial args)) (.final out)) :
    (out = .panicked ∧ ∃ n e, callFn p n fn 0 args = some (.error e)) ∨
      ∃ n rets m', out = .returned m' ∧ callFn p n fn 0 args = some (.ok rets) ∧
        Returned fn.ret rets ∧ m'.rets = rets.map scalar := by
  obtain ⟨k, hk⟩ := h
  rcases call_cases ht hc hfn hargs (k + 2) with
    ⟨_, hends⟩ | ⟨e, he, hesc | ⟨_, hreach⟩⟩ | ⟨rets, m', hok, hret, hrets, hreach⟩
  · exact absurd ⟨out, hk⟩ (hends k (by omega))
  · exact absurd hesc (hu _ _ he)
  · exact .inl ⟨Reaches.end_unique ⟨k, hk⟩ hreach, _, e, he⟩
  · exact .inr ⟨_, rets, m', Reaches.end_unique ⟨k, hk⟩ hreach, hok, hret, hrets⟩

/-- The interpreter and the machine return the same values, report errors and panic at the same
calls, and run on without an end at the same ones; the machine comes to no `unreachable`. -/
theorem compiled_agrees :
    (∀ rets, (∃ n, callFn p n fn 0 args = some (.ok rets)) ↔ Returned fn.ret rets ∧
      ∃ m', Reaches sem mir (start fid (initial args)) (.final (.returned m')) ∧
        m'.rets = rets.map scalar) ∧
    ((∃ n e, callFn p n fn 0 args = some (.error e)) ↔
      Reaches sem mir (start fid (initial args)) (.final .panicked)) ∧
    ((∀ n, callFn p n fn 0 args = none) ↔
      ∀ out, ¬ Reaches sem mir (start fid (initial args)) (.final out)) ∧
    ¬ Reaches sem mir (start fid (initial args)) (.final .unreachable) := by
  refine ⟨fun rets => ⟨?_, ?_⟩, ⟨?_, ?_⟩, ⟨?_, ?_⟩, ?_⟩
  · rintro ⟨n, hn⟩
    rcases call_cases ht hc hfn hargs n with
      ⟨h, _⟩ | ⟨e, h, _⟩ | ⟨rets', m', h, hret, hrets, hreach⟩
    · rw [hn] at h
      cases h
    · rw [hn] at h
      cases h
    · rw [hn] at h
      cases h
      exact ⟨hret, m', hreach, hrets⟩
  · rintro ⟨hret, m', hreach, hrets⟩
    rcases end_cases ht hc hfn hargs hu hreach with ⟨h, _⟩ | ⟨n, rets', m'', h, hn, hret', hrets'⟩
    · cases h
    · cases h
      obtain rfl := returned_inj hret hret' (hrets.symm.trans hrets')
      exact ⟨n, hn⟩
  · rintro ⟨n, e, hn⟩
    rcases call_cases ht hc hfn hargs n with ⟨h, _⟩ | ⟨e', h, hcase⟩ | ⟨rets', m', h, _⟩
    · rw [hn] at h
      cases h
    · exact (hcase.resolve_left (hu n e' h)).2
    · rw [hn] at h
      cases h
  · intro hreach
    rcases end_cases ht hc hfn hargs hu hreach with ⟨_, h⟩ | ⟨n, rets', m'', h, _⟩
    · exact h
    · cases h
  · intro hnone out hreach
    rcases end_cases ht hc hfn hargs hu hreach with ⟨_, n, e, h⟩ | ⟨n, rets', m'', _, h, _⟩
    · rw [hnone n] at h
      cases h
    · rw [hnone n] at h
      cases h
  · intro hnever n
    rcases call_cases ht hc hfn hargs n with ⟨h, _⟩ | ⟨e, h, hcase⟩ | ⟨rets', m', h, _, _, hreach⟩
    · exact h
    · exact absurd (hcase.resolve_left (hu n e h)).2 (hnever _)
    · exact absurd hreach (hnever _)
  · intro hreach
    rcases end_cases ht hc hfn hargs hu hreach with ⟨h, _⟩ | ⟨n, rets', m'', h, _⟩ <;> cases h

end Ends

section Examples

/-- `finna inc(x int) int { bet x + 1 }`. -/
def inc : FnDecl :=
  ⟨"inc", [("x", .int)], some .int, .cons (.bet (some (.binary .add (.name "x") (.int 1)))) .nil⟩

theorem inc_typed : Program.Typed [inc] := by
  refine ⟨by decide, fun fn hfn => ?_⟩
  obtain rfl := List.mem_singleton.mp hfn
  exact ⟨by decide, fun _ => rfl⟩

theorem inc_undisturbed : Undisturbed [inc] inc [.word 5] := by
  intro n e h
  cases n with
  | zero => cases h
  | succ n => cases h

theorem inc_returns : ∃ mir, compile [inc] = some mir ∧ ∃ m',
    Reaches sem mir (start 0 (initial [.word 5])) (.final (.returned m')) ∧
      m'.rets = [some (.int 6)] := by
  have hfn : ([inc] : Program)[0]? = some inc := rfl
  have h {mir} (hc : compile [inc] = some mir) :=
    compiled_agrees inc_typed hc hfn (.cons (.int 5) .nil) inc_undisturbed
  exact ⟨_, rfl, (((h rfl).1 [.word 6]).mp ⟨1, rfl⟩).2⟩

end Examples

end Runs

end BetLang.Scalar
