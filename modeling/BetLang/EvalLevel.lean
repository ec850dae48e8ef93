import BetLang.EvalStmt

/-! What an evaluation leaves of the call that it is part of: the scope stack is at least as deep as
before, and all else is as before. -/

namespace BetLang.Eval

open Collect (Typ RetType FieldDecl)
open Interp (Value RunError)
open Traced

variable {W α β : Type} {pr : Prims W} {tb : Tables} {ev : Evaluator W}

/-- `up` scopes were opened and `down` closed, in the same call. -/
structure Level (up down : Nat) (s t : State W) : Prop where
  env : s.store.env.length + up ≤ t.store.env.length + down
  callers : t.store.callers = s.store.callers
  retStack : t.retStack = s.retStack
  depth : t.depth = s.depth

theorem Level.refl (s : State W) : Level 0 0 s s := ⟨Nat.le_refl _, rfl, rfl, rfl⟩

theorem Level.trans {a b c d : Nat} {s t u : State W} (h : Level a b s t) (h' : Level c d t u) :
    Level (a + c) (b + d) s u where
  env := by
    have h₁ := h.env
    have h₂ := h'.env
    omega
  callers := h'.callers.trans h.callers
  retStack := h'.retStack.trans h.retStack
  depth := h'.depth.trans h.depth

/-- Fewer scopes in the balance. -/
theorem Level.weaken {a b c d : Nat} {s t : State W} (h : Level a b s t) (hle : c + b ≤ a + d) :
    Level c d s t :=
  { h with
    env := by
      have h₁ := h.env
      omega }

/-- The run is cut. -/
def Stuck (e : Halt) : Prop := e = .stop

def Keeps (x : Run W α) : Prop := Leads (Level 0 0) (Level 0 0) Stuck x

theorem catchable_iff (e : Halt) : e.catchable = true ↔ ¬Stuck e := by
  cases e <;> simp [Halt.catchable, Stuck]

section Rules

theorem keeps_pure {a : α} : Keeps (pure a : Run W α) := Leads.pure Level.refl

theorem keeps_fail {e : Halt} : Keeps (fail e : Run W α) := Leads.fail Level.refl

theorem keeps_raise {e : RunError} : Keeps (raise e : Run W α) := keeps_fail

theorem keeps_get : Keeps (get : Run W (State W)) := Leads.get Level.refl

theorem keeps_report {ws : List Write} : Keeps (report ws : Run W Unit) := Leads.report Level.refl

theorem keeps_ofExcept {r : Except Halt α} : Keeps (ofExcept r : Run W α) :=
  Leads.ofExcept Level.refl Level.refl

theorem keeps_raised {r : Except RunError α} : Keeps (raised r : Run W α) := by
  cases r with
  | ok a => exact keeps_pure
  | error e => exact keeps_raise

theorem Keeps.bind {x : Run W α} {f : α → Run W β} (hx : Keeps x) (hf : ∀ a, Keeps (f a)) :
    Keeps (x >>= f) :=
  Leads.bind hx hf (fun _ _ _ h h' => h.trans h') (fun _ _ _ h h' => h.trans h') fun _ _ h => h

/-- A part that ends in an error only when it is stuck. -/
def Steps (up down : Nat) (x : Run W α) : Prop := Leads (Level up down) Never Stuck x

theorem Steps.bind {a b c d : Nat} {x : Run W α} {f : α → Run W β} (hx : Steps a b x)
    (hf : ∀ v, Steps c d (f v)) : Steps (a + c) (b + d) (x >>= f) :=
  Leads.bind hx hf (fun _ _ _ h h' => h.trans h') (fun _ _ _ _ h' => h') fun _ _ h => h

theorem Steps.next {x : Run W α} {f : α → Run W β} (hx : Steps 0 0 x)
    (hf : ∀ v, Steps 0 0 (f v)) : Steps 0 0 (x >>= f) := Steps.bind hx hf

theorem Steps.keeps {a b : Nat} {x : Run W α} (hx : Steps a b x) (h : b ≤ a) : Keeps x :=
  Leads.mono hx (fun _ _ h' => h'.weaken (by omega)) fun _ _ h' => h'.elim

theorem Keeps.caught {x : Run W α} (hx : Keeps x) : Steps 0 0 (caught x) :=
  Leads.attempt catchable_iff hx (fun _ _ h => h) fun _ _ h => h

theorem steps_pure {a : α} : Steps 0 0 (pure a : Run W α) := Leads.pure Level.refl

theorem steps_get : Steps 0 0 (get : Run W (State W)) := Leads.get Level.refl

/-- One change of the store. -/
structure Changes (f : Store → Store) (s t : State W) : Prop where
  store : t.store = f s.store
  retStack : t.retStack = s.retStack
  depth : t.depth = s.depth

theorem change_leads (ws : List Write) (f : Store → Store) :
    Leads (Changes f) Never Stuck (change ws f : Run W Unit) := by
  intro s
  have htick : (tick : Run W Unit).run s = if s.budget = 0 then ⟨.error .stop, s, []⟩
      else ⟨.ok (), { s with budget := s.budget - 1 }, []⟩ := rfl
  unfold change
  by_cases hb : s.budget = 0
  · rw [if_pos hb] at htick
    rw [run_bind_error htick]
    exact fun h => (h rfl).elim
  · rw [if_neg hb] at htick
    rw [run_bind_ok htick]
    exact ⟨rfl, rfl, rfl⟩

theorem steps_change {a b : Nat} {ws : List Write} {f : Store → Store}
    (henv : ∀ st, st.env.length + a ≤ (f st).env.length + b)
    (hcallers : ∀ st, (f st).callers = st.callers) : Steps a b (change ws f : Run W Unit) := by
  refine Leads.mono (change_leads ws f) (fun s t h => ?_) fun _ _ h => h
  exact ⟨by rw [h.store]; exact henv s.store, by rw [h.store, hcallers], h.retStack, h.depth⟩

/-- A change that leaves the scope stack as it is. -/
theorem steps_change_rest {ws : List Write} {f : Store → Store} (henv : ∀ st, (f st).env = st.env)
    (hcallers : ∀ st, (f st).callers = st.callers) : Steps 0 0 (change ws f : Run W Unit) :=
  steps_change (fun st => Nat.le_of_eq (congrArg (·.length + 0) (henv st).symm)) hcallers

end Rules

section Actions

theorem Env.length_set (env : Env) (name : String) (slot : Slot) :
    (env.set name slot).length = env.length := by
  induction env with
  | nil => rfl
  | cons sc rest ih =>
    rw [Env.set]
    split
    · rfl
    · rw [List.length_cons, ih, List.length_cons]

theorem Env.length_declare (env : Env) (name : String) (slot : Slot) :
    (env.declare name slot).length = env.length := by
  cases env <;> rfl

theorem steps_pushScope : Steps 1 0 (pushScope : Run W Unit) :=
  steps_change (fun _ => Nat.le_refl _) fun _ => rfl

theorem steps_popScope : Steps 0 1 (popScope : Run W Unit) := by
  refine steps_change (fun st => ?_) fun _ => rfl
  show st.env.length + 0 ≤ st.env.tail.length + 1
  rw [List.length_tail]
  omega

theorem steps_declare (name : String) (val : Value) :
    Steps 0 0 (declare name val : Run W Unit) :=
  steps_change (fun st => Nat.le_of_eq (st.env.length_declare name _).symm) fun _ => rfl

theorem steps_declareAs (name : String) (ty : Option Typ) (val : Value) :
    Steps 0 0 (declareAs name ty val : Run W Unit) :=
  steps_change (fun st => Nat.le_of_eq (st.env.length_declare name _).symm) fun _ => rfl

theorem steps_newArena (typed : Bool) : Steps 0 0 (newArena typed : Run W Nat) := by
  unfold newArena
  refine steps_get.next fun s => ?_
  refine (steps_change_rest ?_ ?_).next fun _ => steps_pure
  · exact fun _ => rfl
  · exact fun _ => rfl

theorem steps_newCell (c : Cell) : Steps 0 0 (newCell c : Run W Nat) := by
  unfold newCell
  refine steps_get.next fun s => ?_
  refine (steps_change_rest ?_ ?_).next fun _ => steps_pure
  · exact fun _ => rfl
  · exact fun _ => rfl

theorem steps_setCell (addr : Nat) (ws : List Write) (c : Cell) :
    Steps 0 0 (setCell addr ws c : Run W Unit) := steps_change_rest (fun _ => rfl) fun _ => rfl

theorem steps_setPlace (p : Place) (ws : List Write) (new : Value) :
    Steps 0 0 (setPlace p ws new : Run W Unit) :=
  steps_change (fun st => Nat.le_of_eq (st.env.length_set p.root _).symm) fun _ => rfl

theorem Steps.keeps0 {x : Run W α} (hx : Steps 0 0 x) : Keeps x := hx.keeps (Nat.le_refl 0)

theorem keeps_vecAt (addr : Nat) : Keeps (vecAt addr : Run W (Option Typ × List Value)) := by
  unfold vecAt
  refine keeps_get.bind fun s => ?_
  split
  · exact keeps_pure
  · exact keeps_raise

theorem keeps_stashAt (addr : Nat) : Keeps (stashAt addr : Run W (List (Value × Value))) := by
  unfold stashAt
  refine keeps_get.bind fun s => ?_
  split
  · exact keeps_pure
  · exact keeps_raise

theorem keeps_checkedAlloc (n : Nat) : Keeps (checkedAlloc n : Run W Unit) := by
  unfold checkedAlloc
  split
  · exact keeps_fail
  · exact keeps_pure

theorem keeps_exactlyOne (vals : List Value) : Keeps (exactlyOne vals : Run W Value) := by
  unfold exactlyOne
  split
  · exact keeps_pure
  · exact keeps_raise

theorem keeps_indexOf (v : Value) : Keeps (indexOf v : Run W Nat) := by
  unfold indexOf
  split
  · split
    · exact keeps_pure
    · exact keeps_raise
  · exact keeps_raise

theorem enterDepth_leads :
    Leads (fun s t => t = { s with depth := s.depth + 1 }) Eq Stuck (enterDepth : Run W Unit) := by
  have hcheck : ∀ s : State W,
      Leads (fun s t => t = { s with depth := s.depth + 1 }) Eq Stuck
        (if s.depth + 1 > maxDepth then raise (.recursionLimit maxDepth)
          else modify fun s => { s with depth := s.depth + 1 } : Run W Unit) := by
    intro s
    split
    · exact Leads.fail fun _ => rfl
    · exact Leads.modify fun _ => rfl
  refine Leads.bind (Leads.get (R := Eq) (F := Never) fun _ => rfl) hcheck ?_ ?_
    fun _ _ h => h.elim
  · rintro s t u rfl h
    exact h
  · rintro s t u rfl h
    exact h

/-- The rest of a computation, one level of recursion deeper: it comes back from there. -/
def Rises (x : Run W α) : Prop :=
  ∀ s₀ : State W, Leads (fun t u => Level 0 0 { s₀ with depth := s₀.depth + 1 } t → Level 0 0 s₀ u)
    (fun t u => Level 0 0 { s₀ with depth := s₀.depth + 1 } t → Level 0 0 s₀ u) Stuck x

theorem rises_exitDepth {f : Unit → Run W α} (hf : ∀ v, Keeps (f v)) :
    Rises (exitDepth >>= f) := by
  intro s₀
  have hup : ∀ {t u : State W}, u = { t with depth := t.depth - 1 } →
      Level 0 0 { s₀ with depth := s₀.depth + 1 } t → Level 0 0 s₀ u := by
    rintro t u rfl h
    exact { h with depth := by rw [h.depth]; exact Nat.add_sub_cancel _ _ }
  exact Leads.bind (Leads.modify (R := fun t u => u = { t with depth := t.depth - 1 })
    (F := Never) fun _ => rfl) hf (fun _ _ _ h h' hin => (hup h hin).trans h')
    (fun _ _ _ h h' hin => (hup h hin).trans h') fun _ _ h => h.elim

/-- The counter of the depth comes back, whatever the outcome. -/
theorem keeps_deeper {x : Run W α} (hx : Keeps x) : Keeps (deeper x) := by
  have hrest : Rises (caught x >>= fun r => exitDepth >>= fun _ => (ofExcept r : Run W α)) :=
    fun s₀ => Leads.bind hx.caught (fun r => rises_exitDepth (fun _ => keeps_ofExcept) s₀)
      (fun _ _ _ h h' hin => h' (hin.trans h)) (fun _ _ _ h h' hin => h' (hin.trans h))
      fun _ _ h => h.elim
  refine Leads.at fun s₀ => Leads.bind enterDepth_leads (fun _ => hrest s₀) ?_ ?_ ?_
  · rintro s t u rfl h rfl
    exact h (Level.refl _)
  · rintro s t u rfl h rfl
    exact h (Level.refl _)
  · rintro s t rfl rfl
    exact Level.refl _

end Actions

section Frames

/-- The state inside a call: `ret` is on the stack of return types yet or not. -/
structure Inside (ret : List RetType) (s t : State W) : Prop where
  callers : t.store.callers = s.store.env :: s.store.callers
  retStack : t.retStack = ret ++ s.retStack
  depth : t.depth = s.depth

theorem Inside.level {ret : List RetType} {a b : Nat} {s t u : State W} (h : Inside ret s t)
    (h' : Level a b t u) : Inside ret s u :=
  ⟨h'.callers.trans h.callers, h'.retStack.trans h.retStack, h'.depth.trans h.depth⟩

/-- The rest of a call, from inside: it ends where the call began. -/
def Returns (ret : List RetType) (x : Run W α) : Prop :=
  ∀ s₀, Leads (fun t u => Inside ret s₀ t → Level 0 0 s₀ u)
    (fun t u => Inside ret s₀ t → Level 0 0 s₀ u) Stuck x

theorem Steps.returns {ret : List RetType} {a b : Nat} {x : Run W α} {f : α → Run W β}
    (hx : Steps a b x) (hf : ∀ v, Returns ret (f v)) : Returns ret (x >>= f) :=
  fun s₀ => Leads.bind hx (fun v => hf v s₀) (fun _ _ _ h h' hin => h' (hin.level h))
    (fun _ _ _ h h' hin => h' (hin.level h)) fun _ _ h => h.elim

theorem returns_popFrame {f : Unit → Run W α} (hf : ∀ v, Keeps (f v)) :
    Returns [] (popFrame >>= f) := by
  intro s₀
  have hback : ∀ {t u : State W}, Changes Store.leave t u → Inside [] s₀ t → Level 0 0 s₀ u := by
    intro t u h hin
    refine ⟨?_, ?_, h.retStack.trans hin.retStack, h.depth.trans hin.depth⟩
    · rw [h.store, Store.leave, hin.callers]
      exact Nat.le_refl _
    · rw [h.store, Store.leave, hin.callers]
      rfl
  exact Leads.bind (change_leads _ _) hf (fun _ _ _ h h' hin => (hback h hin).trans h')
    (fun _ _ _ h h' hin => (hback h hin).trans h') fun _ _ h => h.elim

/-- A change of the stack of return types, between the two that it leads from and to. -/
theorem returns_modify {ret ret' : List RetType} {g : List RetType → List RetType}
    (hg : ∀ rest, g (ret ++ rest) = ret' ++ rest) {f : Unit → Run W α}
    (hf : ∀ v, Returns ret' (f v)) :
    Returns ret (modify (fun s : State W => { s with retStack := g s.retStack }) >>= f) := by
  intro s₀
  have hback : ∀ {t u : State W}, u = { t with retStack := g t.retStack } → Inside ret s₀ t →
      Inside ret' s₀ u := by
    rintro t u rfl hin
    exact { hin with retStack := by rw [hin.retStack]; exact hg _ }
  exact Leads.bind (Leads.modify (R := fun t u => u = { t with retStack := g t.retStack })
    (F := Never) fun _ => rfl) (fun v => hf v s₀) (fun _ _ _ h h' hin => h' (hback h hin))
    (fun _ _ _ h h' hin => h' (hback h hin)) fun _ _ h => h.elim

theorem returns_pushRet {ret : RetType} {f : Unit → Run W α} (hf : ∀ v, Returns [ret] (f v)) :
    Returns [] (pushRet ret >>= f) := by
  have hpush : ∀ rest, (ret :: ·) ([] ++ rest) = [ret] ++ rest := fun _ => rfl
  exact returns_modify hpush hf

theorem returns_popRet {ret : RetType} {f : Unit → Run W α} (hf : ∀ v, Returns [] (f v)) :
    Returns [ret] (popRet >>= f) := by
  have hpop : ∀ rest, List.tail ([ret] ++ rest) = [] ++ rest := fun _ => rfl
  exact returns_modify hpop hf

/-- A call, seen from outside. -/
theorem keeps_pushFrame {f : Unit → Run W α} (hf : ∀ v, Returns [] (f v)) :
    Keeps (pushFrame >>= f) := by
  have hin : ∀ {s t : State W}, Changes Store.enter s t → Inside [] s t := fun h =>
    ⟨by rw [h.store]; rfl, h.retStack, h.depth⟩
  refine Leads.at fun s₀ => Leads.bind (change_leads _ _) (fun v => hf v s₀) ?_ ?_ fun _ _ h => h.elim
  · rintro s t u h h' rfl
    exact h' (hin h)
  · rintro s t u h h' rfl
    exact h' (hin h)

end Frames

/-- What an evaluator does to the level. A block that fails leaves its scope behind. -/
structure EvKeeps (ev : Evaluator W) : Prop where
  expr : ∀ e, Keeps (ev.expr e)
  block : ∀ b, Leads (Level 0 0) (Level 1 0) Stuck (ev.block b)
  vibin : ∀ cond b, Keeps (ev.vibin cond b)
  zeroDefault : ∀ ty subst, Keeps (ev.zeroDefault ty subst)

theorem keeps_of_leaks {x : Run W α} (hx : Leads (Level 0 0) (Level 1 0) Stuck x) : Keeps x :=
  Leads.mono hx (fun _ _ h => h) fun _ _ h => h.weaken (by decide)

section Calls

variable (hev : EvKeeps ev)

include hev

theorem EvKeeps.keepsBlock (b : Block) : Keeps (ev.block b) := keeps_of_leaks (hev.block b)

theorem keeps_evalExprs (es : List Expr) : Keeps (evalExprs ev es) := by
  induction es with
  | nil => exact keeps_pure
  | cons e es ih => exact (hev.expr e).bind fun _ => ih.bind fun _ => keeps_pure

theorem keeps_evalArgs (args : List Arg) : Keeps (evalArgs ev args) := keeps_evalExprs hev _

omit hev in
theorem steps_declareReceiver (param : Option Param) (receiver : Option Value) :
    Steps 0 0 (declareReceiver param receiver : Run W Unit) := by
  unfold declareReceiver
  split
  · exact steps_change (fun st => Nat.le_of_eq (st.env.length_declare _ _).symm) fun _ => rfl
  · exact steps_pure

omit hev in
theorem steps_declareParams (ps : List Param) (vs : List Value) :
    Steps 0 0 (declareParams ps vs : Run W Unit) := by
  induction ps generalizing vs with
  | nil => exact steps_pure
  | cons p ps ih =>
    cases vs with
    | nil => exact steps_pure
    | cons v vs => exact (steps_declareAs _ _ _).bind fun _ => ih vs

theorem keeps_callFnInner (f : FnDecl) (args : List Value) (receiver : Option Value) :
    Keeps (callFnInner ev f args receiver) := by
  unfold callFnInner
  split
  · exact keeps_raise
  · refine keeps_pushFrame fun _ => ?_
    refine (steps_declareReceiver _ _).returns fun _ => ?_
    refine (steps_declareParams _ _).returns fun _ => ?_
    refine returns_pushRet fun _ => ?_
    refine (hev.keepsBlock f.body).caught.returns fun result => ?_
    refine returns_popRet fun _ => ?_
    refine returns_popFrame fun _ => ?_
    refine keeps_ofExcept.bind fun flow => ?_
    split
    · refine Keeps.bind (steps_change_rest ?_ ?_).keeps0 fun _ => keeps_pure
      · exact fun _ => rfl
      · exact fun _ => rfl
    · exact keeps_pure
    · exact keeps_raise
    · exact keeps_raise

theorem keeps_callFn (f : FnDecl) (args : List Value) (receiver : Option Value) :
    Keeps (callFn ev f args receiver) := keeps_deeper (keeps_callFnInner hev f args receiver)

theorem keeps_callNamedFn (fname : String) (args : List Arg) :
    Keeps (callNamedFn tb ev fname args) := by
  unfold callNamedFn
  split
  · exact keeps_raise
  · exact (keeps_evalArgs hev args).bind fun vals => keeps_callFn hev _ _ _

theorem keeps_applyFnValue (f : Value) (argVals : List Value) :
    Keeps (applyFnValue tb ev f argVals) := by
  unfold applyFnValue
  split
  · split
    · exact keeps_raise
    · exact (keeps_callFn hev _ _ _).bind fun _ => keeps_pure
  · exact keeps_raise

theorem keeps_constructVariant (name moods : String) (arity : Nat) (args : List Arg) :
    Keeps (constructVariant ev name moods arity args) := by
  unfold constructVariant
  split
  · exact keeps_raise
  · exact (keeps_evalArgs hev args).bind fun _ => keeps_pure

theorem keeps_evalCrib (e : Expr) : Keeps (evalCrib ev e) := by
  unfold evalCrib
  refine (hev.expr e).bind fun v => ?_
  split
  · exact keeps_pure
  · exact keeps_raise

theorem keeps_evalBool (e : Expr) : Keeps (evalBool ev e) := by
  unfold evalBool
  refine (hev.expr e).bind fun v => ?_
  split
  · exact keeps_pure
  · exact keeps_raise

omit hev in
theorem keeps_evalName (name : String) : Keeps (evalName tb name : Run W Value) := by
  unfold evalName
  refine keeps_get.bind fun s => ?_
  split
  · exact keeps_pure
  · split
    · exact keeps_pure
    · split
      · split
        · exact keeps_pure
        · exact keeps_raise
      · split
        · exact keeps_pure
        · exact keeps_raise

omit hev in
theorem keeps_binary (op : Ast.BinOp) (l r : Value) : Keeps (binary pr op l r) :=
  keeps_get.bind fun _ => keeps_ofExcept

theorem keeps_evalBinary (op : Ast.BinOp) (lhs rhs : Expr) :
    Keeps (evalBinary pr ev op lhs rhs) := by
  unfold evalBinary
  split
  · refine (keeps_evalBool hev lhs).bind fun b => ?_
    split
    · exact (keeps_evalBool hev rhs).bind fun _ => keeps_pure
    · exact keeps_pure
  · refine (keeps_evalBool hev lhs).bind fun b => ?_
    split
    · exact keeps_pure
    · exact (keeps_evalBool hev rhs).bind fun _ => keeps_pure
  · exact (hev.expr lhs).bind fun l => (hev.expr rhs).bind fun r => keeps_binary _ l r

theorem keeps_evalFields (sty : String) (acc : List (String × Value))
    (given : List (String × Expr)) : Keeps (evalFields tb ev sty acc given) := by
  induction given generalizing acc with
  | nil => exact keeps_pure
  | cons p rest ih => exact (hev.expr p.2).bind fun _ => keeps_report.bind fun _ => ih _

theorem keeps_defaultFields (sty : String) (subst : List (String × Typ))
    (wrap : String → Halt → Halt) (acc : List (String × Value)) (fds : List FieldDecl) :
    Keeps (defaultFields tb ev sty subst wrap acc fds) := by
  induction fds generalizing acc with
  | nil => exact keeps_pure
  | cons fd rest ih =>
    rw [defaultFields]
    split
    · exact ih acc
    · refine (hev.zeroDefault fd.ty subst).caught.keeps0.bind fun r => ?_
      cases r with
      | error e => exact keeps_fail
      | ok val => exact keeps_report.bind fun _ => ih _

theorem keeps_evalStructLit (lit : StructLit) : Keeps (evalStructLit tb ev lit) := by
  cases lit with
  | mk name generics fields =>
    rw [evalStructLit]
    refine (keeps_evalFields hev name [] fields).bind fun given => ?_
    split
    · exact keeps_pure
    · exact (keeps_defaultFields hev _ _ _ _ _).bind fun _ => keeps_pure

theorem keeps_zeroDefault (ty : Typ) (subst : List (String × Typ)) :
    Keeps (zeroDefault tb ev ty subst) := by
  unfold zeroDefault
  split
  · split
    · exact hev.zeroDefault _ _
    · split
      · exact keeps_pure
      · split
        · exact keeps_raise
        · exact (keeps_defaultFields hev _ _ _ _ _).bind fun _ => keeps_pure
  · exact keeps_pure
  · refine (hev.zeroDefault _ _).bind fun z => ?_
    exact (keeps_checkedAlloc _).bind fun _ => keeps_pure
  · exact keeps_pure
  · exact keeps_pure
  · exact keeps_pure
  · exact hev.zeroDefault _ _
  · exact keeps_pure

theorem keeps_evalCop (init : CopInit) (crib : Expr) : Keeps (evalCop tb ev init crib) := by
  have hinit : Keeps (evalCopInit tb ev init) := by
    unfold evalCopInit
    split
    · exact keeps_evalStructLit hev _
    · split
      · exact keeps_raise
      · exact keeps_constructVariant hev _ _ _ _
  unfold evalCop
  refine hinit.bind fun v => ?_
  refine (keeps_evalCrib hev crib).bind fun id => ?_
  refine keeps_get.bind fun s => ?_
  split
  · exact keeps_raise
  · refine Keeps.bind (steps_change_rest ?_ ?_).keeps0 fun _ => ?_
    · exact fun _ => rfl
    · exact fun _ => rfl
    · split
      · exact keeps_pure
      · exact keeps_pure

omit hev in
theorem keeps_arrayStackPop (p : Place) (xs : List Value) (method : String)
    (argVals : List Value) : Keeps (arrayStackPop p xs method argVals : Run W (List Value)) := by
  unfold arrayStackPop
  split
  · split
    · exact (steps_setPlace _ _ _).keeps0.bind fun _ => keeps_pure
    · exact keeps_raise
  · split
    · exact (steps_setPlace _ _ _).keeps0.bind fun _ => keeps_pure
    · exact keeps_raise

omit hev in
theorem keeps_vecStackPop (addr : Nat) (method : String) (argVals : List Value) :
    Keeps (vecStackPop addr method argVals : Run W (List Value)) := by
  unfold vecStackPop
  refine (keeps_vecAt addr).bind fun ⟨declared, xs⟩ => ?_
  dsimp only
  split
  · split
    · exact (steps_setCell _ _ _).keeps0.bind fun _ => keeps_pure
    · exact keeps_raise
  · split
    · split
      · exact (steps_setCell _ _ _).keeps0.bind fun _ => keeps_pure
      · exact keeps_raise
    · exact keeps_raise

theorem keeps_flatten (e : Expr) : Keeps (flatten ev e) := by
  induction e using flatten.induct with
  | case1 name => exact keeps_pure
  | case2 base name ih =>
    rw [flatten]
    exact ih.bind fun _ => keeps_pure
  | case3 base index ih =>
    rw [flatten]
    refine (hev.expr index).bind fun v => ?_
    exact (keeps_indexOf v).bind fun i => ih.bind fun _ => keeps_pure
  | case4 e h1 h2 h3 =>
    rw [flatten]
    · exact keeps_raise
    · exact h1
    · exact h2
    · exact h3

theorem keeps_placeMut (e : Expr) : Keeps (placeMut tb ev e) := by
  unfold placeMut
  refine (keeps_flatten hev e).bind fun path => ?_
  refine keeps_get.bind fun s => ?_
  split
  · exact keeps_raise
  · exact keeps_raised.bind fun _ => keeps_pure

theorem keeps_oneFnArg (method : String) (args : List Arg) : Keeps (oneFnArg ev method args) := by
  unfold oneFnArg
  split
  · exact hev.expr _
  · exact keeps_raise

theorem keeps_vibeCheckLoop (f : Value) (xs : List Value) : Keeps (vibeCheckLoop tb ev f xs) := by
  induction xs with
  | nil => exact keeps_pure
  | cons x xs ih => exact (keeps_applyFnValue hev f [x]).bind fun _ => ih.bind fun _ => keeps_pure

theorem keeps_glowUpLoop (f : Value) (xs : List Value) : Keeps (glowUpLoop tb ev f xs) := by
  induction xs with
  | nil => exact keeps_pure
  | cons x xs ih => exact (keeps_applyFnValue hev f [x]).bind fun _ => ih.bind fun _ => keeps_pure

theorem keeps_callArrayMethod (xs : List Value) (method : String) (args : List Arg) :
    Keeps (callArrayMethod tb ev xs method args) := by
  unfold callArrayMethod
  split
  · exact keeps_pure
  split
  · refine (keeps_oneFnArg hev method args).bind fun f => ?_
    exact (keeps_vibeCheckLoop hev f xs).bind fun _ => keeps_pure
  split
  · refine (keeps_oneFnArg hev method args).bind fun f => ?_
    exact (keeps_glowUpLoop hev f xs).bind fun _ => keeps_pure
  · exact keeps_raise

theorem keeps_callVec (addr : Nat) (method : String) (args : List Arg) :
    Keeps (callVec pr tb ev addr method args) := by
  unfold callVec
  split
  · exact (keeps_evalArgs hev args).bind fun _ => keeps_vecStackPop _ _ _
  split
  · refine (keeps_evalArgs hev args).bind fun vals => ?_
    split
    · refine (keeps_vecAt addr).bind fun ⟨declared, xs⟩ => ?_
      exact (steps_setCell _ _ _).keeps0.bind fun _ => keeps_pure
    · exact keeps_raise
  split
  · split
    · refine (keeps_vecAt addr).bind fun ⟨declared, xs⟩ => ?_
      exact keeps_raised.bind fun _ => keeps_pure
    · exact keeps_raise
  · refine (keeps_vecAt addr).bind fun ⟨declared, xs⟩ => ?_
    exact keeps_callArrayMethod hev xs method args

theorem keeps_callStash (addr : Nat) (method : String) (args : List Arg) :
    Keeps (callStash pr ev addr method args) := by
  unfold callStash
  refine (keeps_evalArgs hev args).bind fun vals => ?_
  refine keeps_get.bind fun s => ?_
  refine (keeps_stashAt addr).bind fun entries => ?_
  split
  · split
    · exact (steps_setCell _ _ _).keeps0.bind fun _ => keeps_pure
    · exact keeps_raise
  split
  · split
    · split
      · exact keeps_pure
      · exact keeps_pure
    · exact keeps_raise
  split
  · split
    · exact (steps_setCell _ _ _).keeps0.bind fun _ => keeps_pure
    · exact keeps_raise
  split
  · exact keeps_pure
  · exact keeps_raise

omit hev in
theorem keeps_outside (f : W → Except Fault α × W) : Keeps (outside f : Run W α) := by
  unfold outside
  refine keeps_get.bind fun s => ?_
  refine Keeps.bind (Leads.modify fun t => ⟨Nat.le_refl _, rfl, rfl, rfl⟩) fun _ => ?_
  split
  · exact keeps_pure
  · exact keeps_fail

theorem keeps_callMethod (recv : Value) (method : String) (args : List Arg) :
    Keeps (callMethod pr tb ev recv method args) := by
  unfold callMethod
  split
  · split
    · refine (keeps_evalArgs hev args).bind fun vals => ?_
      split
      · exact keeps_pure
      · exact keeps_raise
    · exact keeps_raise
  · exact keeps_callStash hev _ method args
  · exact keeps_callVec hev _ method args
  · refine (keeps_evalArgs hev args).bind fun vals => ?_
    exact (keeps_outside _).bind fun _ => keeps_pure
  · exact keeps_callArrayMethod hev _ method args
  · split
    · exact (keeps_evalArgs hev args).bind fun vals => keeps_callFn hev _ _ _
    · split
      · exact keeps_callNamedFn hev _ args
      · exact keeps_raise
  · exact keeps_raise

omit hev in
theorem keeps_emit (text : String) : Keeps (emit text : Run W Unit) :=
  Leads.modify fun _ => ⟨Nat.le_refl _, rfl, rfl, rfl⟩

theorem keeps_callSpill (method : String) (args : List Arg) :
    Keeps (callSpill pr ev method args) := by
  unfold callSpill
  split
  · split
    · exact (hev.expr _).bind fun _ => keeps_get.bind fun _ => keeps_emit _
    · exact keeps_raise
  split
  · split
    · exact keeps_raise
    · refine (hev.expr _).bind fun v => ?_
      split
      · refine (keeps_evalArgs hev _).bind fun vals => ?_
        refine keeps_get.bind fun s => ?_
        split
        · exact keeps_emit _
        · exact keeps_fail
      · exact keeps_raise
  · exact keeps_raise

theorem keeps_callYikes (method : String) (args : List Arg) :
    Keeps (callYikes ev method args) := by
  unfold callYikes
  split
  · refine (keeps_evalArgs hev args).bind fun vals => ?_
    split
    · exact keeps_pure
    · exact keeps_raise
  · exact keeps_raise

theorem keeps_evalAllocCtxArg (args : List Arg) : Keeps (evalAllocCtxArg ev args) := by
  unfold evalAllocCtxArg
  split
  · exact keeps_pure
  · refine (hev.expr _).bind fun v => ?_
    split
    · exact keeps_pure
    · exact keeps_raise
  · exact keeps_raise

theorem keeps_memSlab (generics : List Typ) (args : List Arg) :
    Keeps (memSlab tb ev generics args) := by
  have hzero : Keeps (slabZero tb ev generics) := by
    unfold slabZero
    split
    · split
      · exact hev.zeroDefault _ _
      · exact keeps_pure
    · exact keeps_pure
  unfold memSlab
  refine (keeps_evalArgs hev args).bind fun vals => ?_
  split
  · split
    · exact hzero.bind fun z => (keeps_checkedAlloc _).bind fun _ => keeps_pure
    · exact keeps_raise
  · exact keeps_raise

theorem keeps_callModule (fn : ModuleFn) (modname method : String) (generics : List Typ)
    (args : List Arg) : Keeps (callModule pr tb ev fn modname method generics args) := by
  unfold callModule
  cases fn with
  | spill => exact (keeps_callSpill hev method args).bind fun _ => keeps_pure
  | yikes => exact (keeps_callYikes hev method args).bind fun _ => keeps_pure
  | stashNew =>
    refine (keeps_evalAllocCtxArg hev args).bind fun _ => ?_
    exact (steps_newCell _).keeps0.bind fun _ => keeps_pure
  | vecNew => exact (steps_newCell _).keeps0.bind fun _ => keeps_pure
  | scratch => exact (steps_newArena false).keeps0.bind fun _ => keeps_pure
  | receipts => exact keeps_pure
  | slab => exact (keeps_memSlab hev generics args).bind fun _ => keeps_pure
  | other =>
    refine (keeps_evalArgs hev args).bind fun vals => ?_
    exact (keeps_outside _).bind fun _ => keeps_pure

theorem keeps_callOn (receiver : Expr) (method : String) (args : List Arg) :
    Keeps (callOn pr tb ev receiver method args) :=
  (hev.expr receiver).bind fun v => keeps_callMethod hev v method args

theorem keeps_callOnPlace (receiver : Expr) (method : String) (args : List Arg) :
    Keeps (callOnPlace pr tb ev receiver method args) := by
  unfold callOnPlace
  refine (keeps_evalArgs hev args).bind fun vals => ?_
  refine (keeps_placeMut hev receiver).caught.keeps0.bind fun r => ?_
  cases r with
  | error e => exact keeps_callOn hev receiver method args
  | ok p =>
    dsimp only
    split
    · exact keeps_arrayStackPop _ _ _ _
    · exact keeps_vecStackPop _ _ _
    · exact keeps_callOn hev receiver method args

theorem keeps_evalMethodCall (receiver : Expr) (method : String) (generics : List Typ)
    (args : List Arg) : Keeps (evalMethodCall pr tb ev receiver method generics args) := by
  have hmodule : Keeps (moduleOf receiver method : Run W (Option (ModuleFn × String))) := by
    unfold moduleOf
    split
    · refine keeps_get.bind fun s => ?_
      split
      · exact keeps_pure
      · exact keeps_pure
    · exact keeps_pure
  unfold evalMethodCall
  refine hmodule.bind fun m => ?_
  split
  · exact keeps_callModule hev _ _ method generics args
  · split
    · exact keeps_callOnPlace hev receiver method args
    · exact keeps_callOn hev receiver method args

theorem keeps_callValue (args : List Arg) (v : Value) : Keeps (callValue tb ev args v) := by
  unfold callValue
  split
  · exact keeps_callNamedFn hev _ args
  · exact keeps_raise

theorem keeps_evalPlainCall (callee : Expr) (args : List Arg) :
    Keeps (evalPlainCall tb ev callee args) := by
  unfold evalPlainCall
  split
  · refine keeps_get.bind fun s => ?_
    split
    · exact keeps_callValue hev args _
    · split
      · exact (keeps_constructVariant hev _ _ _ args).bind fun _ => keeps_pure
      · split
        · exact keeps_callNamedFn hev _ args
        · split
          · unfold callExternShim
            refine (keeps_evalArgs hev args).bind fun vals => ?_
            split
            · exact keeps_pure
            · exact keeps_raise
          · exact keeps_raise
  · exact (hev.expr _).bind fun v => keeps_callValue hev args v

theorem keeps_evalCallExpr (e : Expr) : Keeps (evalCallExpr pr tb ev e) := by
  unfold evalCallExpr
  split
  · exact keeps_evalMethodCall hev _ _ _ _
  · exact keeps_evalPlainCall hev _ _
  · exact (hev.expr _).bind fun _ => keeps_pure

omit hev in
theorem keeps_elemAt (xs : List Value) (i : Nat) : Keeps (elemAt xs i : Run W Value) := by
  unfold elemAt
  split
  · exact keeps_pure
  · exact keeps_raise

theorem keeps_evalField (base : Expr) (name : String) : Keeps (evalField ev base name) := by
  unfold evalField
  refine (hev.expr base).bind fun v => ?_
  split
  · split
    · exact keeps_pure
    · exact keeps_raise
  · exact keeps_raise

theorem keeps_evalIndex (base index : Expr) : Keeps (evalIndex ev base index) := by
  unfold evalIndex
  refine (hev.expr base).bind fun v => ?_
  refine (hev.expr index).bind fun idx => ?_
  refine (keeps_indexOf idx).bind fun i => ?_
  split
  · exact keeps_elemAt _ _
  · exact (keeps_vecAt _).bind fun ⟨declared, xs⟩ => keeps_elemAt xs i
  · exact keeps_raise

theorem keeps_evalTrust (tag crib : Expr) : Keeps (evalTrust ev tag crib) := by
  unfold evalTrust
  refine (hev.expr tag).bind fun v => ?_
  refine (keeps_evalCrib hev crib).bind fun id => ?_
  split
  · refine keeps_get.bind fun s => ?_
    split
    · exact keeps_pure
    · exact keeps_raise
  · exact keeps_raise

theorem keeps_evalExprInner (e : Expr) : Keeps (evalExprInner pr tb ev e) := by
  have hone : ∀ vals, Keeps (exactlyOne vals : Run W Value) := keeps_exactlyOne
  unfold evalExprInner
  split
  · exact keeps_pure
  · exact keeps_pure
  · exact keeps_pure
  · exact keeps_pure
  · exact keeps_pure
  · exact keeps_pure
  · exact keeps_evalName _
  · exact keeps_evalField hev _ _
  · exact keeps_evalIndex hev _ _
  · exact (keeps_evalCallExpr hev _).bind hone
  · exact (keeps_evalCallExpr hev _).bind hone
  · exact (hev.expr _).bind fun _ => keeps_raised
  · exact keeps_evalBinary hev _ _ _
  · exact (hev.expr _).bind fun _ => keeps_raised
  · exact keeps_evalStructLit hev _
  · exact (keeps_evalExprs hev _).bind fun _ => keeps_pure
  · exact keeps_evalCop hev _ _
  · exact keeps_evalTrust hev _ _

theorem keeps_evalExpr (e : Expr) : Keeps (evalExpr pr tb ev e) :=
  keeps_deeper (keeps_evalExprInner hev e)

end Calls

end BetLang.Eval
