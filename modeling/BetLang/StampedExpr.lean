import BetLang.EvalStamped

/-! Evaluation keeps a store in which every place holds what is declared for it, as long as what it
writes to the places past the coercion is so already. -/

namespace BetLang.Eval

open Collect (Typ RetType FieldDecl)
open Interp (Value RunError)
open Traced

variable {W α : Type} {tb : Tables}

/-- What is written to a declared place is, or is turned by the coercion into, what is declared. -/
def Write.Meets : Write → Prop
  | .coerced ty val => ∀ t, ty = some t → Coercible t val
  | .plain ty val => CarriesOpt ty val

/-- The value of a panic is good too. -/
def Yields (tb : Tables) : Halt → Prop
  | .raise (.yeet v) => Good tb v
  | _ => True

def Safe (tb : Tables) (Q : α → Prop) (x : Run W α) : Prop :=
  Triple Write.Meets (fun s => Stamped tb s.store) (Yields tb) Q x

def AllGood (tb : Tables) (vals : List Value) : Prop := ∀ v ∈ vals, Good tb v

theorem AllGood.nil : AllGood tb [] := List.forall_mem_nil _

theorem AllGood.cons {v : Value} {vs : List Value} (hv : Good tb v) (hvs : AllGood tb vs) :
    AllGood tb (v :: vs) := List.forall_mem_cons.mpr ⟨hv, hvs⟩

theorem AllGood.one {v : Value} (hv : Good tb v) : AllGood tb [v] := .cons hv .nil

theorem AllGood.head {v : Value} {vs : List Value} (h : AllGood tb (v :: vs)) : Good tb v :=
  h v List.mem_cons_self

theorem AllGood.tail {v : Value} {vs : List Value} (h : AllGood tb (v :: vs)) : AllGood tb vs :=
  fun x hx => h x (List.mem_cons_of_mem _ hx)

def FlowGood (tb : Tables) : Flow → Prop
  | .return_ vals => AllGood tb vals
  | _ => True

section Rules

variable {Q : α → Prop}

theorem Safe.bind {β : Type} {P : β → Prop} {x : Run W β} {f : β → Run W α} (hx : Safe tb P x)
    (hf : ∀ b, P b → Safe tb Q (f b)) : Safe tb Q (x >>= f) := Triple.bind hx hf

theorem safe_pure {a : α} (h : Q a) : Safe tb Q (pure a : Run W α) := Triple.pure h

theorem safe_fail {e : Halt} (h : Yields tb e) : Safe tb Q (fail e : Run W α) := Triple.fail h

theorem safe_raise {e : RunError} (h : Yields tb (.raise e)) : Safe tb Q (raise e : Run W α) :=
  Triple.fail h

theorem safe_get : Safe tb (fun s => Stamped tb s.store) (get : Run W (State W)) := Triple.get

theorem safe_modify {f : State W → State W} (h : ∀ s, (f s).store = s.store) :
    Safe tb (fun _ => True) (modify f : Run W Unit) :=
  Triple.modify fun s hs => (congrArg (Stamped tb) (h s)).mpr hs

theorem quiet_yields {e : RunError} (h : Quiet e) : Yields tb (.raise e) := by
  cases e with
  | yeet v => exact h.elim
  | _ => trivial

theorem safe_raised {r : Except RunError α} (hok : ∀ a, r = .ok a → Q a)
    (herr : ∀ e, r = .error e → Quiet e) : Safe tb Q (raised r : Run W α) := by
  cases r with
  | ok a => exact safe_pure (hok a rfl)
  | error e => exact safe_raise (quiet_yields (herr e rfl))

theorem safe_ofExcept {r : Except Halt α} (h : Outcome Q (Yields tb) r) :
    Safe tb Q (ofExcept r : Run W α) := Triple.ofExcept h

theorem Safe.caught {x : Run W α} (hx : Safe tb Q x) :
    Safe tb (Outcome Q (Yields tb)) (caught x) := Triple.attempt hx

/-- A report that is good may be used behind it. -/
theorem safe_report {ws : List Write} :
    Safe tb (fun _ => ∀ w ∈ ws, w.Meets) (report ws : Run W Unit) := Triple.report

theorem safe_tick : Safe tb (fun _ => True) (tick : Run W Unit) := by
  intro s hs _
  have hrun : (tick : Run W Unit).run s = if s.budget = 0 then ⟨.error .stop, s, []⟩
      else ⟨.ok (), { s with budget := s.budget - 1 }, []⟩ := rfl
  rw [hrun]
  split
  · exact ⟨hs, trivial⟩
  · exact ⟨hs, trivial⟩

/-- A change that keeps the store stamped, given that its writes are as declared. -/
theorem safe_change {ws : List Write} {f : Store → Store}
    (h : ∀ st, Stamped tb st → (∀ w ∈ ws, w.Meets) → Stamped tb (f st)) :
    Safe tb (fun _ => True) (change ws f : Run W Unit) := by
  unfold change
  refine safe_tick.bind fun _ _ => ?_
  refine safe_report.bind fun _ hws => ?_
  exact Triple.modify fun s hs => h s.store hs hws

/-- A change that writes to no declared place. -/
theorem safe_change_nil {f : Store → Store} (h : ∀ st, Stamped tb st → Stamped tb (f st)) :
    Safe tb (fun _ => True) (change [] f : Run W Unit) := safe_change fun st hst _ => h st hst

theorem plain_meets {ty : Option Typ} {v : Value} {ws : List Write}
    (h : ∀ w ∈ Write.plain ty v :: ws, w.Meets) : CarriesOpt ty v :=
  h _ List.mem_cons_self

end Rules

section Actions

theorem safe_pushScope : Safe tb (fun _ => True) (pushScope : Run W Unit) :=
  safe_change_nil fun _ h => { h with env := h.env.push }

theorem safe_popScope : Safe tb (fun _ => True) (popScope : Run W Unit) :=
  safe_change_nil fun _ h => { h with env := h.env.pop }

theorem safe_declare (name : String) {val : Value} (hv : Good tb val) :
    Safe tb (fun _ => True) (declare name val : Run W Unit) :=
  safe_change_nil fun _ h => { h with env := h.env.declare ⟨hv, carriesOpt_none val⟩ }

theorem safe_declareAs (name : String) (ty : Option Typ) {val : Value} (hv : Good tb val) :
    Safe tb (fun _ => True) (declareAs name ty val : Run W Unit) :=
  safe_change fun _ h hws =>
    { h with env := h.env.declare (coerce_fits hv (hws _ List.mem_cons_self)) }

theorem envFits_empty : EnvFits tb [[]] := (show EnvFits tb [] from List.forall_mem_nil _).push

theorem safe_pushFrame : Safe tb (fun _ => True) (pushFrame : Run W Unit) :=
  safe_change_nil fun _ h =>
    { h with
      env := envFits_empty
      callers := List.forall_mem_cons.mpr ⟨h.env, h.callers⟩ }

theorem safe_popFrame : Safe tb (fun _ => True) (popFrame : Run W Unit) := by
  refine safe_change_nil fun st h => { h with env := ?_, callers := ?_ }
  · show EnvFits tb (st.callers.headD [])
    cases hc : st.callers with
    | nil => exact List.forall_mem_nil _
    | cons env rest => exact h.callers env (hc ▸ List.mem_cons_self)
  · exact fun env henv => h.callers env (List.mem_of_mem_tail henv)

theorem safe_newArena (typed : Bool) : Safe tb (fun _ => True) (newArena typed : Run W Nat) := by
  unfold newArena
  refine safe_get.bind fun s _ => ?_
  refine Safe.bind (safe_change_nil fun st h => ?_) fun _ _ => safe_pure trivial
  exact { h with arenas := forall_concat h.arenas (List.forall_mem_nil _) }

theorem safe_newCell {c : Cell} (hc : CellFits tb c) :
    Safe tb (fun _ => True) (newCell c : Run W Nat) := by
  unfold newCell
  refine safe_get.bind fun s _ => ?_
  refine Safe.bind (safe_change_nil fun st h => ?_) fun _ _ => safe_pure trivial
  exact { h with heap := forall_concat h.heap hc }

theorem safe_setCell (addr : Nat) {ws : List Write} {c : Cell}
    (hc : (∀ w ∈ ws, w.Meets) → CellFits tb c) :
    Safe tb (fun _ => True) (setCell addr ws c : Run W Unit) :=
  safe_change fun _ h hws => { h with heap := forall_set h.heap addr (hc hws) }

theorem safe_vecAt (addr : Nat) :
    Safe tb (fun p => ∀ x ∈ p.2, Fits tb p.1 x) (vecAt addr : Run W (Option Typ × List Value)) := by
  unfold vecAt
  refine safe_get.bind fun s hs => ?_
  split
  · rename_i declared elems hcell
    exact safe_pure (hs.heap _ (List.mem_of_getElem? hcell))
  · exact safe_raise trivial

theorem safe_stashAt (addr : Nat) :
    Safe tb (fun es => ∀ e ∈ es, Good tb e.1 ∧ Good tb e.2)
      (stashAt addr : Run W (List (Value × Value))) := by
  unfold stashAt
  refine safe_get.bind fun s hs => ?_
  split
  · rename_i entries hcell
    exact safe_pure (hs.heap _ (List.mem_of_getElem? hcell))
  · exact safe_raise trivial

theorem safe_enterDepth : Safe tb (fun _ => True) (enterDepth : Run W Unit) := by
  unfold enterDepth
  refine safe_get.bind fun s _ => ?_
  split
  · exact safe_raise trivial
  · exact safe_modify fun _ => rfl

theorem safe_deeper {Q : α → Prop} {x : Run W α} (hx : Safe tb Q x) :
    Safe tb Q (deeper x) := by
  unfold deeper
  refine safe_enterDepth.bind fun _ _ => ?_
  refine hx.caught.bind fun r hr => ?_
  exact Safe.bind (safe_modify fun _ => rfl) fun _ _ => safe_ofExcept hr

theorem safe_checkedAlloc (n : Nat) : Safe tb (fun _ => True) (checkedAlloc n : Run W Unit) := by
  unfold checkedAlloc
  split
  · exact safe_fail trivial
  · exact safe_pure trivial

theorem safe_exactlyOne {vals : List Value} (h : AllGood tb vals) :
    Safe tb (Good tb) (exactlyOne vals : Run W Value) := by
  unfold exactlyOne
  split
  · exact safe_pure h.head
  · exact safe_raise trivial

theorem safe_indexOf (v : Value) : Safe tb (fun _ => True) (indexOf v : Run W Nat) := by
  unfold indexOf
  split
  · split
    · exact safe_pure trivial
    · exact safe_raise trivial
  · exact safe_raise trivial

end Actions

/-- The expressions and the blocks inside are evaluated safely. -/
structure EvSafe (tb : Tables) (ev : Evaluator W) : Prop where
  expr : ∀ e, Safe tb (Good tb) (ev.expr e)
  block : ∀ b, Safe tb (FlowGood tb) (ev.block b)
  vibin : ∀ cond b, Safe tb (FlowGood tb) (ev.vibin cond b)
  zeroDefault : ∀ ty subst, Safe tb (Good tb) (ev.zeroDefault ty subst)

section Calls

variable {pr : Prims W} {ev : Evaluator W} (hev : EvSafe tb ev)

include hev

theorem safe_evalExprs (es : List Expr) : Safe tb (AllGood tb) (evalExprs ev es) := by
  induction es with
  | nil => exact safe_pure .nil
  | cons e es ih =>
    rw [evalExprs]
    refine (hev.expr e).bind fun v hv => ?_
    exact ih.bind fun vs hvs => safe_pure (.cons hv hvs)

theorem safe_evalArgs (args : List Arg) : Safe tb (AllGood tb) (evalArgs ev args) :=
  safe_evalExprs hev _

omit hev in
theorem safe_declareReceiver (param : Option Param) {receiver : Option Value}
    (hr : ∀ v, receiver = some v → Good tb v) :
    Safe tb (fun _ => True) (declareReceiver param receiver : Run W Unit) := by
  unfold declareReceiver
  split
  · rename_i p v
    exact safe_change fun _ h hws =>
      { h with env := h.env.declare ⟨hr v rfl, plain_meets hws⟩ }
  · exact safe_pure trivial

omit hev in
theorem safe_declareParams (ps : List Param) {vs : List Value} (hvs : AllGood tb vs) :
    Safe tb (fun _ => True) (declareParams ps vs : Run W Unit) := by
  induction ps generalizing vs with
  | nil => exact safe_pure trivial
  | cons p ps ih =>
    cases vs with
    | nil => exact safe_pure trivial
    | cons v vs => exact (safe_declareAs _ _ hvs.head).bind fun _ _ => ih hvs.tail

omit hev in
/-- Each of the results is at its declared type, by the report. -/
theorem results_fit {ret : RetType} {vals : List Value} (hvals : AllGood tb vals)
    (hws : ∀ w ∈ (results ret vals).map fun sl => Write.plain sl.declared sl.value, w.Meets) :
    ∀ sl ∈ results ret vals, Fits tb sl.declared sl.value := by
  intro sl hsl
  have hmeets : CarriesOpt sl.declared sl.value := hws _ (List.mem_map_of_mem hsl)
  obtain ⟨p, hp, rfl⟩ := List.mem_map.mp hsl
  exact ⟨hvals p.1 (List.of_mem_zip hp).1, hmeets⟩

theorem safe_callFnInner (f : FnDecl) {args : List Value} (hargs : AllGood tb args)
    {receiver : Option Value} (hr : ∀ v, receiver = some v → Good tb v) :
    Safe tb (AllGood tb) (callFnInner ev f args receiver) := by
  unfold callFnInner
  split
  · exact safe_raise trivial
  · refine safe_pushFrame.bind fun _ _ => ?_
    refine (safe_declareReceiver f.receiver hr).bind fun _ _ => ?_
    refine (safe_declareParams f.params hargs).bind fun _ _ => ?_
    refine Safe.bind (safe_modify fun _ => rfl) fun _ _ => ?_
    refine (hev.block f.body).caught.bind fun result hresult => ?_
    refine Safe.bind (safe_modify fun _ => rfl) fun _ _ => ?_
    refine safe_popFrame.bind fun _ _ => ?_
    refine (safe_ofExcept hresult).bind fun flow hflow => ?_
    split
    · refine Safe.bind (safe_change fun st h hws => ?_) fun _ _ => safe_pure hflow
      exact { h with returned := results_fit hflow hws }
    · exact safe_pure .nil
    · exact safe_raise trivial
    · exact safe_raise trivial

theorem safe_callFn (f : FnDecl) {args : List Value} (hargs : AllGood tb args)
    {receiver : Option Value} (hr : ∀ v, receiver = some v → Good tb v) :
    Safe tb (AllGood tb) (callFn ev f args receiver) :=
  safe_deeper (safe_callFnInner hev f hargs hr)

omit hev in
theorem no_receiver (v : Value) (h : (none : Option Value) = some v) : Good tb v := by cases h

theorem safe_callNamedFn (fname : String) (args : List Arg) :
    Safe tb (AllGood tb) (callNamedFn tb ev fname args) := by
  unfold callNamedFn
  split
  · exact safe_raise trivial
  · exact (safe_evalArgs hev args).bind fun vals hvals => safe_callFn hev _ hvals no_receiver

theorem safe_applyFnValue (f : Value) {argVals : List Value} (h : AllGood tb argVals) :
    Safe tb (Good tb) (applyFnValue tb ev f argVals) := by
  unfold applyFnValue
  split
  · split
    · exact safe_raise trivial
    · refine (safe_callFn hev _ h no_receiver).bind fun out hout => safe_pure ?_
      cases out with
      | nil => exact .ghosted
      | cons v vs => exact hout.head
  · exact safe_raise trivial

theorem safe_constructVariant (name moods : String) (arity : Nat) (args : List Arg) :
    Safe tb (Good tb) (constructVariant ev name moods arity args) := by
  unfold constructVariant
  split
  · exact safe_raise trivial
  · exact (safe_evalArgs hev args).bind fun payload hp => safe_pure (.variant hp)

theorem safe_evalCrib (e : Expr) : Safe tb (fun _ => True) (evalCrib ev e) := by
  unfold evalCrib
  refine (hev.expr e).bind fun v _ => ?_
  split
  · exact safe_pure trivial
  · exact safe_raise trivial

theorem safe_evalBool (e : Expr) : Safe tb (fun _ => True) (evalBool ev e) := by
  unfold evalBool
  refine (hev.expr e).bind fun v _ => ?_
  split
  · exact safe_pure trivial
  · exact safe_raise trivial

omit hev in
theorem safe_evalName (name : String) : Safe tb (Good tb) (evalName tb name : Run W Value) := by
  unfold evalName
  refine safe_get.bind fun s hs => ?_
  split
  · rename_i slot hslot
    exact safe_pure (hs.env.get hslot).good
  · split
    · rename_i slot hslot
      exact safe_pure (hs.globals.lookup hslot).good
    · split
      · split
        · exact safe_pure (.variant (List.forall_mem_nil _))
        · exact safe_raise trivial
      · split
        · exact safe_pure .fn
        · exact safe_raise trivial

omit hev in
theorem halt_yields (e : Fault) : Yields tb e.halt := by
  cases e <;> trivial

omit hev in
theorem floatOp_yields {op : Ast.BinOp} {a b : BitVec 64} :
    Outcome (Good tb) (Yields tb) (floatOp pr op a b) := by
  unfold floatOp
  split
  · exact good_plain _
  · exact halt_yields _

omit hev in
theorem binaryOp_yields {heap : List Cell} {op : Ast.BinOp} {l r : Value} (hl : Good tb l)
    (hr : Good tb r) : Outcome (Good tb) (Yields tb) (binaryOp pr heap op l r) := by
  unfold binaryOp
  split
  · exact .bool
  · exact .bool
  · split
    · split
      · rename_i hop
        exact good_binaryOpInt hl.int_pos hr.int_pos hop
      · rename_i hop
        exact quiet_yields (quiet_binaryOpInt hop)
    · exact floatOp_yields
    · exact floatOp_yields
    · exact floatOp_yields
    · split
      · exact .str
      · trivial
    · trivial

omit hev in
theorem safe_binary (op : Ast.BinOp) {l r : Value} (hl : Good tb l) (hr : Good tb r) :
    Safe tb (Good tb) (binary pr op l r : Run W Value) := by
  unfold binary
  exact safe_get.bind fun s _ => safe_ofExcept (binaryOp_yields hl hr)

theorem safe_evalBinary (op : Ast.BinOp) (lhs rhs : Expr) :
    Safe tb (Good tb) (evalBinary pr ev op lhs rhs) := by
  unfold evalBinary
  split
  · refine (safe_evalBool hev lhs).bind fun b _ => ?_
    split
    · exact (safe_evalBool hev rhs).bind fun _ _ => safe_pure .bool
    · exact safe_pure .bool
  · refine (safe_evalBool hev lhs).bind fun b _ => ?_
    split
    · exact safe_pure .bool
    · exact (safe_evalBool hev rhs).bind fun _ _ => safe_pure .bool
  · refine (hev.expr lhs).bind fun l hl => ?_
    exact (hev.expr rhs).bind fun r hr => safe_binary _ hl hr

theorem safe_evalFields (sty : String) (given : List (String × Expr))
    {acc : List (String × Value)} (hacc : FieldsFit tb sty acc) :
    Safe tb (FieldsFit tb sty) (evalFields tb ev sty acc given) := by
  induction given generalizing acc with
  | nil => exact safe_pure hacc
  | cons p rest ih =>
    rw [evalFields]
    refine (hev.expr p.2).bind fun val hval => ?_
    refine safe_report.bind fun _ hws => ih (hacc.insert ⟨hval, plain_meets hws⟩)

theorem safe_defaultFields (sty : String) (subst : List (String × Typ))
    {wrap : String → Halt → Halt} (hwrap : ∀ name e, Yields tb e → Yields tb (wrap name e))
    (fds : List FieldDecl) {acc : List (String × Value)} (hacc : FieldsFit tb sty acc) :
    Safe tb (FieldsFit tb sty) (defaultFields tb ev sty subst wrap acc fds) := by
  induction fds generalizing acc with
  | nil => exact safe_pure hacc
  | cons fd rest ih =>
    rw [defaultFields]
    split
    · exact ih hacc
    · refine (hev.zeroDefault fd.ty subst).caught.bind fun r hr => ?_
      cases r with
      | error e => exact safe_fail (hwrap _ _ hr)
      | ok val => exact safe_report.bind fun _ hws => ih (hacc.insert ⟨hr, plain_meets hws⟩)

omit hev in
theorem defaultError_yields (sty name : String) (e : Halt) (h : Yields tb e) :
    Yields tb (defaultError sty name e) := by
  unfold defaultError
  split
  · trivial
  · exact h

theorem safe_evalStructLit (lit : StructLit) : Safe tb (Good tb) (evalStructLit tb ev lit) := by
  cases lit with
  | mk name generics fields =>
    rw [evalStructLit]
    refine (safe_evalFields hev name fields (List.forall_mem_nil _)).bind fun given hgiven => ?_
    split
    · exact safe_pure hgiven.good
    · refine (safe_defaultFields hev name _ (defaultError_yields name) _ hgiven).bind ?_
      exact fun all hall => safe_pure hall.good

omit hev in
theorem zeroScalar_good {name : String} {v : Value} (h : zeroScalar name = some v) :
    Good tb v := by
  unfold zeroScalar at h
  split at h
  · cases h
    exact good_word tb 0
  split at h
  · cases h
    exact .float
  split at h
  · cases h
    exact .bool
  split at h
  · cases h
    exact .str
  split at h
  · cases h
    exact .ghosted
  · cases h

theorem safe_zeroDefault (ty : Typ) (subst : List (String × Typ)) :
    Safe tb (Good tb) (zeroDefault tb ev ty subst) := by
  unfold zeroDefault
  split
  · split
    · exact hev.zeroDefault _ _
    · split
      · rename_i hz
        exact safe_pure (zeroScalar_good hz)
      · split
        · exact safe_raise trivial
        · refine (safe_defaultFields hev _ _ (fun _ _ h => h) _ (List.forall_mem_nil _)).bind ?_
          exact fun fields hf => safe_pure hf.good
  · exact safe_pure (.array (List.forall_mem_nil _))
  · refine (hev.zeroDefault _ _).bind fun z hz => ?_
    refine (safe_checkedAlloc _).bind fun _ _ => safe_pure (.array fun x hx => ?_)
    rw [List.eq_of_mem_replicate hx]
    exact hz
  · exact safe_pure .ghosted
  · exact safe_pure .ghosted
  · exact safe_pure .ghosted
  · exact hev.zeroDefault _ _
  · exact safe_pure (good_word tb 0)

theorem safe_evalCopInit (init : CopInit) : Safe tb (Good tb) (evalCopInit tb ev init) := by
  unfold evalCopInit
  split
  · exact safe_evalStructLit hev _
  · split
    · exact safe_raise trivial
    · exact safe_constructVariant hev _ _ _ _

theorem safe_evalCop (init : CopInit) (crib : Expr) :
    Safe tb (Good tb) (evalCop tb ev init crib) := by
  unfold evalCop
  refine (safe_evalCopInit hev init).bind fun v hv => ?_
  refine (safe_evalCrib hev crib).bind fun id _ => ?_
  refine safe_get.bind fun s hs => ?_
  split
  · exact safe_raise trivial
  · rename_i arena harena
    have hfits := (hs.arenas arena (List.mem_of_getElem? harena)).alloc hv
    refine Safe.bind (safe_change_nil fun st h => ?_) fun _ _ => ?_
    · exact { h with arenas := forall_set h.arenas id hfits }
    · split
      · exact safe_pure .tag
      · exact safe_pure hv

end Calls

end BetLang.Eval
