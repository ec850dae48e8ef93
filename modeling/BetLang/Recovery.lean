import BetLang.EvalLevel
import BetLang.StampedRun

/-! Recovery from a `yeet`. Loops, arms and calls close what they opened on the error path too, a
block does not: behind every recovered `sheesh` stand more scopes than before it. -/

namespace BetLang.Eval

open Collect (Typ RetType)
open Interp (Value RunError)
open Traced

variable {W α : Type} {pr : Prims W} {tb : Tables} {ev : Evaluator W}

section Scopes

/-- The rest of a computation that opened a scope: it closes one, whatever its outcome. -/
def Closes (x : Run W α) : Prop := Leads (Level 0 1) (Level 0 1) Stuck x

theorem closes_popScope {f : Unit → Run W α} (hf : ∀ v, Keeps (f v)) :
    Closes (popScope >>= f) :=
  Leads.bind steps_popScope hf (fun _ _ _ h h' => h.trans h') (fun _ _ _ h h' => h.trans h')
    fun _ _ h => h.elim

theorem Steps.closes {β : Type} {x : Run W α} {f : α → Run W β} (hx : Steps 0 0 x)
    (hf : ∀ v, Closes (f v)) : Closes (x >>= f) :=
  Leads.bind hx hf (fun _ _ _ h h' => h.trans h') (fun _ _ _ h h' => h.trans h')
    fun _ _ h => h.elim

theorem keeps_pushScope {f : Unit → Run W α} (hf : ∀ v, Closes (f v)) :
    Keeps (pushScope >>= f) := by
  have hbalance : ∀ s t u : State W, Level 1 0 s t → Level 0 1 t u → Level 0 0 s u :=
    fun _ _ _ h h' => (h.trans h').weaken (by decide)
  exact Leads.bind steps_pushScope hf hbalance hbalance fun _ _ h => h.elim

theorem keeps_inScope {x : Run W α} (hx : Keeps x) : Keeps (inScope x) :=
  keeps_pushScope fun _ => hx.caught.closes fun _ => closes_popScope fun _ => keeps_ofExcept

theorem keeps_andThen {x : Run W α} (hx : Keeps x) : Keeps (andThen x) :=
  hx.bind fun _ => keeps_pure

theorem keeps_execStmts {execStmt : Stmt → Run W Flow} (h : ∀ stmt, Keeps (execStmt stmt))
    (stmts : List Stmt) : Keeps (execStmts execStmt stmts) := by
  induction stmts with
  | nil => exact keeps_pure
  | cons stmt rest ih =>
    rw [execStmts]
    refine (h stmt).bind fun flow => ?_
    split
    · exact ih
    · exact keeps_pure

/-- A block that ends in an error has one scope too many. -/
theorem execBlock_leads {execStmt : Stmt → Run W Flow} (h : ∀ stmt, Keeps (execStmt stmt))
    (block : Block) : Leads (Level 0 0) (Level 1 0) Stuck (execBlock execStmt block) := by
  have hpop : ∀ flow, Steps 0 1 (popScope >>= fun _ => (pure flow : Run W Flow)) :=
    fun flow => steps_popScope.bind fun _ => steps_pure
  have hrest : Leads (Level 0 1) (Level 0 0) Stuck
      (execStmts execStmt block >>= fun flow => popScope >>= fun _ => (pure flow : Run W Flow)) :=
    Leads.bind (keeps_execStmts h block) hpop (fun _ _ _ h₁ h₂ => h₁.trans h₂)
      (fun _ _ _ _ h₂ => h₂.elim) fun _ _ h₁ => h₁
  exact Leads.bind steps_pushScope (fun _ => hrest)
    (fun _ _ _ h₁ h₂ => (h₁.trans h₂).weaken (by decide))
    (fun _ _ _ h₁ h₂ => h₁.trans h₂) fun _ _ h₁ => h₁.elim

theorem steps_declareTargets (ty : Option Typ) (names : List String) (vals : List Value) :
    Steps 0 0 (declareTargets ty names vals : Run W Unit) := by
  induction names generalizing vals with
  | nil => exact steps_pure
  | cons name names ih =>
    cases vals with
    | nil => exact steps_pure
    | cons v vs => exact (steps_declareAs _ _ _).next fun _ => ih vs

theorem steps_declareAll (names : List String) (vals : List Value) :
    Steps 0 0 (declareAll names vals : Run W Unit) := by
  induction names generalizing vals with
  | nil => exact steps_pure
  | cons name names ih =>
    cases vals with
    | nil => exact steps_pure
    | cons v vs => exact (steps_declare _ _).next fun _ => ih vs

theorem keeps_assignName (name : String) (val : Value) :
    Keeps (assignName name val : Run W Unit) := by
  unfold assignName
  refine keeps_get.bind fun s => ?_
  split
  · refine (steps_change ?_ ?_).keeps0
    · exact fun st => Nat.le_of_eq (st.env.length_set name _).symm
    · exact fun _ => rfl
  · split
    · refine (steps_change_rest ?_ ?_).keeps0
      · exact fun _ => rfl
      · exact fun _ => rfl
    · exact keeps_raise

theorem steps_writeBack (binding : String) (id slot : Nat) (generation : BitVec 64)
    (snapshot : Value) : Steps 0 0 (writeBack pr binding id slot generation snapshot) := by
  unfold writeBack
  refine steps_get.next fun s => ?_
  split
  · exact steps_pure
  · split
    · exact steps_pure
    · refine steps_change_rest ?_ ?_
      · exact fun _ => rfl
      · exact fun _ => rfl

end Scopes

section Statements

variable (hev : EvKeeps ev)

include hev

theorem keeps_spread (targets : Nat) (values : List Expr) :
    Keeps (spread pr tb ev targets values) := by
  unfold spread
  split
  · exact keeps_evalExprs hev values
  · split
    · refine (keeps_evalCallExpr hev _).bind fun vals => ?_
      split
      · exact keeps_raise
      · exact keeps_pure
    · exact keeps_raise

theorem keeps_assignField (base : Expr) (name : String) (val : Value) :
    Keeps (assignField tb ev base name val) := by
  unfold assignField
  refine (keeps_placeMut hev base).bind fun p => ?_
  split
  · split
    · exact (steps_setPlace _ _ _).keeps0
    · exact keeps_raise
  · exact keeps_raise

theorem keeps_assignVecField (addr : Nat) (index : Expr) (name : String) (val : Value) :
    Keeps (assignVecField tb ev addr index name val) := by
  unfold assignVecField
  refine (hev.expr index).bind fun v => ?_
  refine (keeps_indexOf v).bind fun i => ?_
  refine (keeps_vecAt addr).bind fun ⟨declared, xs⟩ => ?_
  dsimp only
  split
  · exact keeps_raise
  · split
    · exact (steps_setCell _ _ _).keeps0
    · exact keeps_raise
  · exact keeps_raise

theorem keeps_assignIndex (base index : Expr) (val : Value) :
    Keeps (assignIndex tb ev base index val) := by
  unfold assignIndex
  refine (hev.expr index).bind fun v => ?_
  refine (keeps_indexOf v).bind fun i => ?_
  refine (keeps_placeMut hev base).bind fun p => ?_
  split
  · split
    · exact (steps_setPlace _ _ _).keeps0
    · exact keeps_raise
  · refine (keeps_vecAt _).bind fun ⟨declared, xs⟩ => ?_
    dsimp only
    split
    · exact (steps_setCell _ _ _).keeps0
    · exact keeps_raise
  · exact keeps_raise

theorem keeps_assignPlace (target : Expr) (val : Value) :
    Keeps (assignPlace tb ev target val) := by
  unfold assignPlace
  split
  · exact keeps_assignName _ val
  · refine (hev.expr _).bind fun v => ?_
    split
    · exact keeps_assignVecField hev _ _ _ val
    · exact keeps_assignField hev _ _ val
  · exact keeps_assignField hev _ _ val
  · exact keeps_assignIndex hev _ _ val
  · exact keeps_raise

theorem keeps_assignAll (targets : List Expr) (vals : List Value) :
    Keeps (assignAll tb ev targets vals) := by
  induction targets generalizing vals with
  | nil => exact keeps_pure
  | cons t ts ih =>
    cases vals with
    | nil => exact keeps_pure
    | cons v vs => exact (keeps_assignPlace hev t v).bind fun _ => ih vs

theorem keeps_assignCompound (op : AssignOp) (target value : Expr) :
    Keeps (assignCompound pr tb ev op target value) := by
  unfold assignCompound
  refine (hev.expr target).bind fun old => ?_
  refine (hev.expr value).bind fun rhs => ?_
  exact (keeps_binary _ old rhs).bind fun new => keeps_assignPlace hev target new

theorem keeps_execAssign (targets : List Expr) (op : AssignOp) (values : List Expr) :
    Keeps (execAssign pr tb ev targets op values) := by
  unfold execAssign
  split
  · split
    · exact keeps_assignCompound hev op _ _
    · exact keeps_raise
  · exact (keeps_spread hev _ values).bind fun vals => keeps_assignAll hev targets vals

theorem keeps_execElifs (els : Option Block) (elifs : List (Expr × Block)) :
    Keeps (execElifs ev els elifs) := by
  induction elifs with
  | nil =>
    unfold execElifs
    split
    · exact hev.keepsBlock _
    · exact keeps_pure
  | cons p rest ih =>
    rw [execElifs]
    refine (keeps_evalBool hev p.1).bind fun b => ?_
    split
    · exact hev.keepsBlock _
    · exact ih

theorem keeps_vibin (cond : Expr) (body : Block) : Keeps (vibin ev cond body) := by
  unfold vibin
  refine (keeps_evalBool hev cond).bind fun b => ?_
  split
  · refine (hev.keepsBlock body).bind fun flow => ?_
    split
    · exact keeps_pure
    · exact keeps_pure
    · exact hev.vibin cond body
    · exact hev.vibin cond body
  · exact keeps_pure

theorem keeps_squadLoop (var : String) (body : Block) (items : List Value) :
    Keeps (squadLoop ev var body items) := by
  induction items with
  | nil => exact keeps_pure
  | cons item items ih =>
    have hbody : Keeps (declare var item >>= fun _ => ev.block body) :=
      (steps_declare var item).keeps0.bind fun _ => hev.keepsBlock body
    rw [squadLoop]
    refine (keeps_inScope hbody).bind fun flow => ?_
    split
    · exact keeps_pure
    · exact keeps_pure
    · exact ih
    · exact ih

theorem keeps_execSquad (var : String) (iter : Expr) (body : Block) :
    Keeps (execSquad ev var iter body) := by
  unfold execSquad
  refine (hev.expr iter).bind fun v => ?_
  split
  · exact keeps_squadLoop hev var body _
  · exact (keeps_vecAt _).bind fun ⟨declared, xs⟩ => keeps_squadLoop hev var body xs
  · exact keeps_raise

theorem keeps_execVibe (name : String) (payload : List Value) (default : Option Block)
    (arms : List MatchArm) : Keeps (execVibe ev name payload default arms) := by
  induction arms with
  | nil =>
    unfold execVibe
    split
    · exact hev.keepsBlock _
    · exact keeps_raise
  | cons arm rest ih =>
    cases arm with
    | mk variant bindings body =>
      have hbody : Keeps (declareAll bindings payload >>= fun _ => ev.block body) :=
        (steps_declareAll bindings payload).keeps0.bind fun _ => hev.keepsBlock body
      rw [execVibe]
      split
      · split
        · exact keeps_raise
        · exact keeps_inScope hbody
      · exact ih

theorem keeps_execVibeStmt (scrutinee : Expr) (arms : List MatchArm) (default : Option Block) :
    Keeps (execVibeStmt ev scrutinee arms default) := by
  unfold execVibeStmt
  refine (hev.expr scrutinee).bind fun v => ?_
  split
  · exact keeps_execVibe hev _ _ default arms
  · exact keeps_raise

theorem keeps_holdLive (binding : String) (id slot : Nat) (generation : BitVec 64) (val : Value)
    (live : Block) : Keeps (holdLive pr ev binding id slot generation val live) := by
  unfold holdLive
  refine keeps_pushScope fun _ => ?_
  refine (steps_declare binding val).closes fun _ => ?_
  refine (hev.keepsBlock live).caught.closes fun flow => ?_
  refine (steps_writeBack binding id slot generation val).closes fun _ => ?_
  exact closes_popScope fun _ => keeps_ofExcept

theorem keeps_execHolla (binding : String) (tag crib : Expr) (live ghosted : Block) :
    Keeps (execHolla pr ev binding tag crib live ghosted) := by
  unfold execHolla
  refine (hev.expr tag).bind fun v => ?_
  refine (keeps_evalCrib hev crib).bind fun id => ?_
  split
  · refine keeps_get.bind fun s => ?_
    split
    · exact keeps_holdLive hev _ _ _ _ _ live
    · exact hev.keepsBlock ghosted
  · exact hev.keepsBlock ghosted
  · exact keeps_raise

theorem keeps_recoverWith (v : Value) (recover : Option (String × Block)) :
    Keeps (recoverWith ev v recover) := by
  unfold recoverWith
  split
  · exact keeps_inScope ((steps_declare _ v).keeps0.bind fun _ => hev.keepsBlock _)
  · exact keeps_pure

theorem keeps_execSheesh (body : Block) (recover : Option (String × Block)) :
    Keeps (execSheesh ev body recover) := by
  unfold execSheesh
  refine (hev.keepsBlock body).caught.keeps0.bind fun r => ?_
  split
  · exact keeps_recoverWith hev _ recover
  · exact keeps_ofExcept

theorem keeps_execEvict (crib : Expr) (tag : Option Expr) : Keeps (execEvict ev crib tag) := by
  unfold execEvict
  refine (keeps_evalCrib hev crib).bind fun id => ?_
  split
  · refine (steps_change_rest ?_ ?_).keeps0
    · exact fun _ => rfl
    · exact fun _ => rfl
  · refine (hev.expr _).bind fun v => ?_
    split
    · refine (steps_change_rest ?_ ?_).keeps0
      · exact fun _ => rfl
      · exact fun _ => rfl
    · exact keeps_pure
    · exact keeps_raise

theorem keeps_execBounce (e : Expr) : Keeps (execBounce ev e) := by
  unfold execBounce
  refine (hev.expr e).bind fun v => ?_
  split
  · exact keeps_pure
  · exact keeps_get.bind fun s => keeps_pure

theorem keeps_execStmt (stmt : Stmt) : Keeps (execStmt pr tb ev stmt) := by
  unfold execStmt
  cases stmt with
  | var v =>
    refine keeps_andThen ((keeps_spread hev _ v.values).bind fun vals => ?_)
    exact (steps_declareTargets v.ty v.targets vals).keeps0
  | const c => exact keeps_andThen ((hev.expr c.value).bind fun val => (steps_declareAs _ _ _).keeps0)
  | crib c =>
    exact keeps_andThen ((steps_newArena _).keeps0.bind fun id => (steps_declare _ _).keeps0)
  | fr cond thenBlock elifs els => exact keeps_execElifs hev els _
  | vibin cond body => exact hev.vibin cond body
  | squad var iter body => exact keeps_execSquad hev var iter body
  | vibe scrutinee arms default => exact keeps_execVibeStmt hev scrutinee arms default
  | holla binding tag crib live ghosted => exact keeps_execHolla hev binding tag crib live ghosted
  | sheesh body recover => exact keeps_execSheesh hev body recover
  | evict crib tag => exact keeps_andThen (keeps_execEvict hev crib tag)
  | slide call => exact keeps_andThen (keeps_evalCallExpr hev call)
  | bet exprs => exact (keeps_evalExprs hev exprs).bind fun _ => keeps_pure
  | bounce e => exact keeps_execBounce hev e
  | yeet e => exact (hev.expr e).bind fun _ => keeps_raise
  | dip => exact keeps_pure
  | skip => exact keeps_pure
  | assign targets op values => exact keeps_andThen (keeps_execAssign hev targets op values)
  | expr e => exact keeps_andThen (keeps_evalCallExpr hev e)

end Statements

theorem leads_stop {R F : State W → State W → Prop} :
    Leads R F Stuck (fail .stop : Run W α) := fun _ h => (h rfl).elim

theorem evaluator_keeps (pr : Prims W) (tb : Tables) (fuel : Nat) :
    EvKeeps (evaluator pr tb fuel) := by
  induction fuel with
  | zero => exact ⟨fun _ => leads_stop, fun _ => leads_stop, fun _ _ => leads_stop, fun _ _ => leads_stop⟩
  | succ fuel ih =>
    exact ⟨keeps_evalExpr ih, execBlock_leads (keeps_execStmt ih), keeps_vibin ih,
      keeps_zeroDefault ih⟩

section Sheesh

/-- What lexical scoping asks of the state behind a recovered statement: the scopes that it began
with, no name that was not visible then, and the bookkeeping of the calls as it was. -/
structure Restored (s u : State W) : Prop where
  scopes : u.store.env.length = s.store.env.length
  names : ∀ name, (u.store.env.get name).isSome → (s.store.env.get name).isSome
  retStack : u.retStack = s.retStack
  depth : u.depth = s.depth

/-- Behind a caught `yeet` the recovery goes on from the state of the `yeet`. -/
theorem execSheesh_yeet {body : Block} (recover : Option (String × Block)) {s t : State W}
    {v : Value} {ws : List Write}
    (h : (ev.block body).run s = ⟨.error (.raise (.yeet v)), t, ws⟩) :
    ((execSheesh ev body recover).run s).outcome = ((recoverWith ev v recover).run t).outcome ∧
      ((execSheesh ev body recover).run s).state = ((recoverWith ev v recover).run t).state := by
  have hcaught : (caught (ev.block body)).run s =
      ⟨.ok (.error (.raise (.yeet v))), t, ws⟩ := run_attempt_error h
  unfold execSheesh
  rw [run_bind_ok hcaught]
  exact ⟨rfl, rfl⟩

/-- The balance of a statement that recovered: the calls are as before, and at least the scope of
the guarded block is left over. -/
theorem execSheesh_leaves (hev : EvKeeps ev) {body : Block}
    {recover : Option (String × Block)} {s : State W} {v : Value} {flow : Flow}
    (hyeet : ((ev.block body).run s).outcome = .error (.raise (.yeet v)))
    (hdone : ((execSheesh ev body recover).run s).outcome = .ok flow) :
    Level 1 0 s ((execSheesh ev body recover).run s).state := by
  have hbody := hev.block body s
  have hrecover := keeps_recoverWith hev v recover ((ev.block body).run s).state
  have hrun : (ev.block body).run s = ⟨.error (.raise (.yeet v)), ((ev.block body).run s).state,
      ((ev.block body).run s).trace⟩ := by rw [← hyeet]
  obtain ⟨hout, hstate⟩ := execSheesh_yeet recover hrun
  rw [hyeet] at hbody
  rw [← hout, hdone] at hrecover
  rw [hstate]
  have hraised : ¬Stuck (.raise (.yeet v)) := fun h => Halt.noConfusion h
  exact (hbody hraised).trans hrecover

/-- No `sheesh` that catches a `yeet` restores the environment, in whatever program and state: the
stack of return types and the depth come back, the scopes do not. -/
theorem sheesh_never_restores (pr : Prims W) (tb : Tables) (fuel : Nat) (body : Block)
    (recover : Option (String × Block)) (s : State W) (v : Value) (flow : Flow)
    (hyeet : (((evaluator pr tb fuel).block body).run s).outcome = .error (.raise (.yeet v)))
    (hdone : ((execSheesh (evaluator pr tb fuel) body recover).run s).outcome = .ok flow) :
    ¬Restored s ((execSheesh (evaluator pr tb fuel) body recover).run s).state ∧
      ((execSheesh (evaluator pr tb fuel) body recover).run s).state.retStack = s.retStack ∧
      ((execSheesh (evaluator pr tb fuel) body recover).run s).state.depth = s.depth := by
  have hleft := execSheesh_leaves (evaluator_keeps pr tb fuel) hyeet hdone
  refine ⟨fun h => ?_, hleft.retStack, hleft.depth⟩
  have henv := hleft.env
  have hscopes := h.scopes
  omega

/-- `sheesh { lowkey x = 2; yeet x }` -/
def shadowing : Block := [.var ⟨["x"], none, [.int 2]⟩, .yeet (.name "x")]

/-- `lowkey x = 1` in the scope of a function. -/
def outer : State Unit :=
  { initial () 9 with
    store := { (initial () 9).store with env := [[("x", ⟨none, .word 1⟩)]] } }

theorem sheesh_never_restores_shadowing :
    ¬Restored outer
        ((execSheesh (evaluator silent (mainOf []).tables 5) shadowing none).run outer).state ∧
      ((execSheesh (evaluator silent (mainOf []).tables 5) shadowing none).run outer).state.retStack =
        outer.retStack ∧
      ((execSheesh (evaluator silent (mainOf []).tables 5) shadowing none).run outer).state.depth =
        outer.depth :=
  sheesh_never_restores silent (mainOf []).tables 5 shadowing none outer (.word 2) .normal rfl rfl

/-- `lowkey x = 1`, the `sheesh` above, `bet x`: nothing is assigned to the outer `x`, and the
function returns 2. -/
def rebound : FnDecl :=
  ⟨none, "rebound", [], .single (.named "int" []),
    [.var ⟨["x"], none, [.int 1]⟩, .sheesh shadowing none, .bet [.name "x"]]⟩

theorem rebound_returns_inner :
    ((callFn (evaluator silent (mainOf []).tables 7) rebound [] none).run (initial () 20)).outcome =
        .ok [.word 2] ∧
      ¬∀ (fuel : Nat) (body : Block) (recover : Option (String × Block)) (s : State Unit)
        (v : Value) (flow : Flow),
        (((evaluator silent (mainOf []).tables fuel).block body).run s).outcome =
          .error (.raise (.yeet v)) →
        ((execSheesh (evaluator silent (mainOf []).tables fuel) body recover).run s).outcome =
          .ok flow →
        Restored s
          ((execSheesh (evaluator silent (mainOf []).tables fuel) body recover).run s).state := by
  refine ⟨rfl, fun h => ?_⟩
  have hscopes := (h 5 shadowing none outer (.word 2) .normal rfl rfl).scopes
  exact absurd hscopes (by decide)

end Sheesh

end BetLang.Eval
