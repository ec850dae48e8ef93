import BetLang.StampedCall

/-! The declared widths over a whole run: where the coercion is applied they hold, and everywhere
else they hold exactly as long as the program brings the right values there itself. -/

namespace BetLang.Eval

open Collect (Typ RetType)
open Interp (Value RunError)
open Traced

variable {W : Type} {tb : Tables} {pr : Prims W} {ev : Evaluator W}

theorem safe_declareTargets (ty : Option Typ) (names : List String) {vals : List Value}
    (hvals : AllGood tb vals) :
    Safe tb (fun _ => True) (declareTargets ty names vals : Run W Unit) := by
  induction names generalizing vals with
  | nil => exact safe_pure trivial
  | cons name names ih =>
    cases vals with
    | nil => exact safe_pure trivial
    | cons v vs => exact (safe_declareAs _ _ hvals.head).bind fun _ _ => ih hvals.tail

theorem safe_declareAll (names : List String) {vals : List Value} (hvals : AllGood tb vals) :
    Safe tb (fun _ => True) (declareAll names vals : Run W Unit) := by
  induction names generalizing vals with
  | nil => exact safe_pure trivial
  | cons name names ih =>
    cases vals with
    | nil => exact safe_pure trivial
    | cons v vs => exact (safe_declare _ hvals.head).bind fun _ _ => ih hvals.tail

theorem safe_assignName (name : String) {val : Value} (hv : Good tb val) :
    Safe tb (fun _ => True) (assignName name val : Run W Unit) := by
  unfold assignName
  refine safe_get.bind fun s _ => ?_
  split
  · exact safe_change fun _ h hws => { h with env := h.env.set ⟨hv, plain_meets hws⟩ }
  · split
    · exact safe_change fun _ h hws => { h with globals := h.globals.set ⟨hv, plain_meets hws⟩ }
    · exact safe_raise trivial

theorem safe_inScope {α : Type} {Q : α → Prop} {x : Run W α} (hx : Safe tb Q x) :
    Safe tb Q (inScope x) := by
  unfold inScope
  refine safe_pushScope.bind fun _ _ => ?_
  refine hx.caught.bind fun r hr => ?_
  exact safe_popScope.bind fun _ _ => safe_ofExcept hr

theorem safe_andThen {α : Type} {Q : α → Prop} {x : Run W α} (hx : Safe tb Q x) :
    Safe tb (FlowGood tb) (andThen x) := by
  unfold andThen
  exact hx.bind fun _ _ => safe_pure trivial

theorem safe_execStmts {execStmt : Stmt → Run W Flow}
    (h : ∀ stmt, Safe tb (FlowGood tb) (execStmt stmt)) (stmts : List Stmt) :
    Safe tb (FlowGood tb) (execStmts execStmt stmts) := by
  induction stmts with
  | nil => exact safe_pure trivial
  | cons stmt rest ih =>
    rw [execStmts]
    refine (h stmt).bind fun flow hflow => ?_
    split
    · exact ih
    · exact safe_pure hflow

theorem safe_execBlock {execStmt : Stmt → Run W Flow}
    (h : ∀ stmt, Safe tb (FlowGood tb) (execStmt stmt)) (block : Block) :
    Safe tb (FlowGood tb) (execBlock execStmt block) := by
  unfold execBlock
  refine safe_pushScope.bind fun _ _ => ?_
  refine (safe_execStmts h block).bind fun flow hflow => ?_
  exact safe_popScope.bind fun _ _ => safe_pure hflow

section

variable (hev : EvSafe tb ev)

include hev

theorem safe_spread (targets : Nat) (values : List Expr) :
    Safe tb (AllGood tb) (spread pr tb ev targets values) := by
  unfold spread
  split
  · exact safe_evalExprs hev values
  · split
    · refine (safe_evalCallExpr hev _).bind fun vals hvals => ?_
      split
      · exact safe_raise trivial
      · exact safe_pure hvals
    · exact safe_raise trivial

theorem safe_assignField (base : Expr) (name : String) {val : Value} (hv : Good tb val) :
    Safe tb (fun _ => True) (assignField tb ev base name val) := by
  unfold assignField
  refine (safe_placeMut hev base).bind fun p hp => ?_
  split
  · rename_i hstruct
    have hfits := hstruct ▸ hp.value
    split
    · exact safe_setPlace hp fun hws => hfits.withField ⟨hv, plain_meets hws⟩
    · exact safe_raise trivial
  · exact safe_raise trivial

theorem safe_assignVecField (addr : Nat) (index : Expr) (name : String) {val : Value}
    (hv : Good tb val) : Safe tb (fun _ => True) (assignVecField tb ev addr index name val) := by
  unfold assignVecField
  refine (hev.expr index).bind fun v _ => ?_
  refine (safe_indexOf v).bind fun i _ => ?_
  refine (safe_vecAt addr).bind fun ⟨declared, xs⟩ hcell => ?_
  dsimp only
  split
  · exact safe_raise trivial
  · rename_i hx
    have helem := hcell _ (List.mem_of_getElem? hx)
    split
    · exact safe_setCell addr fun hws =>
        forall_set hcell i (helem.withField ⟨hv, plain_meets hws⟩)
    · exact safe_raise trivial
  · exact safe_raise trivial

theorem safe_assignIndex (base index : Expr) {val : Value} (hv : Good tb val) :
    Safe tb (fun _ => True) (assignIndex tb ev base index val) := by
  unfold assignIndex
  refine (hev.expr index).bind fun v _ => ?_
  refine (safe_indexOf v).bind fun i _ => ?_
  refine (safe_placeMut hev base).bind fun p hp => ?_
  split
  · rename_i harray
    have hfits := harray ▸ hp.value
    split
    · exact safe_setPlace hp fun hws =>
        hfits.withElems (forall_set hfits.elem i ⟨hv, plain_meets hws⟩)
    · exact safe_raise trivial
  · refine (safe_vecAt _).bind fun ⟨declared, xs⟩ hcell => ?_
    dsimp only
    split
    · exact safe_setCell _ fun hws => forall_set hcell i ⟨hv, plain_meets hws⟩
    · exact safe_raise trivial
  · exact safe_raise trivial

theorem safe_assignPlace (target : Expr) {val : Value} (hv : Good tb val) :
    Safe tb (fun _ => True) (assignPlace tb ev target val) := by
  unfold assignPlace
  split
  · exact safe_assignName _ hv
  · refine (hev.expr _).bind fun v _ => ?_
    split
    · exact safe_assignVecField hev _ _ _ hv
    · exact safe_assignField hev _ _ hv
  · exact safe_assignField hev _ _ hv
  · exact safe_assignIndex hev _ _ hv
  · exact safe_raise trivial

theorem safe_assignAll (targets : List Expr) {vals : List Value} (hvals : AllGood tb vals) :
    Safe tb (fun _ => True) (assignAll tb ev targets vals) := by
  induction targets generalizing vals with
  | nil => exact safe_pure trivial
  | cons t ts ih =>
    cases vals with
    | nil => exact safe_pure trivial
    | cons v vs => exact (safe_assignPlace hev t hvals.head).bind fun _ _ => ih hvals.tail

theorem safe_execAssign (targets : List Expr) (op : AssignOp) (values : List Expr) :
    Safe tb (fun _ => True) (execAssign pr tb ev targets op values) := by
  unfold execAssign
  split
  · split
    · refine (hev.expr _).bind fun old hold => ?_
      refine (hev.expr _).bind fun rhs hrhs => ?_
      exact (safe_binary _ hold hrhs).bind fun new hnew => safe_assignPlace hev _ hnew
    · exact safe_raise trivial
  · exact (safe_spread hev _ values).bind fun vals hvals => safe_assignAll hev targets hvals

theorem safe_execElifs (els : Option Block) (elifs : List (Expr × Block)) :
    Safe tb (FlowGood tb) (execElifs ev els elifs) := by
  induction elifs with
  | nil =>
    cases els with
    | some body => exact hev.block body
    | none => exact safe_pure trivial
  | cons p rest ih =>
    rw [execElifs]
    refine (safe_evalBool hev p.1).bind fun b _ => ?_
    split
    · exact hev.block _
    · exact ih

theorem safe_vibin (cond : Expr) (body : Block) : Safe tb (FlowGood tb) (vibin ev cond body) := by
  unfold vibin
  refine (safe_evalBool hev cond).bind fun b _ => ?_
  split
  · refine (hev.block body).bind fun flow hflow => ?_
    split
    · exact safe_pure trivial
    · exact safe_pure hflow
    · exact hev.vibin cond body
    · exact hev.vibin cond body
  · exact safe_pure trivial

theorem safe_squadLoop (var : String) (body : Block) {items : List Value}
    (h : AllGood tb items) : Safe tb (FlowGood tb) (squadLoop ev var body items) := by
  induction items with
  | nil => exact safe_pure trivial
  | cons item items ih =>
    have hround : Safe tb (FlowGood tb) (inScope do
        declare var item
        ev.block body) :=
      safe_inScope ((safe_declare var h.head).bind fun _ _ => hev.block body)
    rw [squadLoop]
    refine hround.bind fun flow hflow => ?_
    split
    · exact safe_pure trivial
    · exact safe_pure hflow
    · exact ih h.tail
    · exact ih h.tail

theorem safe_execSquad (var : String) (iter : Expr) (body : Block) :
    Safe tb (FlowGood tb) (execSquad ev var iter body) := by
  unfold execSquad
  refine (hev.expr iter).bind fun v hv => ?_
  split
  · exact safe_squadLoop hev var body hv.elem
  · refine (safe_vecAt _).bind fun ⟨declared, xs⟩ hcell => ?_
    exact safe_squadLoop hev var body fun x hx => (hcell x hx).good
  · exact safe_raise trivial

theorem safe_execVibe (name : String) {payload : List Value} (h : AllGood tb payload)
    (default : Option Block) (arms : List MatchArm) :
    Safe tb (FlowGood tb) (execVibe ev name payload default arms) := by
  induction arms with
  | nil =>
    cases default with
    | some body => exact hev.block body
    | none => exact safe_raise trivial
  | cons arm rest ih =>
    cases arm with
    | mk variant bindings body =>
      rw [execVibe]
      split
      · split
        · exact safe_raise trivial
        · exact safe_inScope ((safe_declareAll bindings h).bind fun _ _ => hev.block body)
      · exact ih

omit hev in
theorem safe_writeBack (binding : String) (id slot : Nat) (generation : BitVec 64)
    (snapshot : Value) :
    Safe tb (fun _ => True) (writeBack pr binding id slot generation snapshot) := by
  unfold writeBack
  refine safe_get.bind fun s hs => ?_
  split
  · exact safe_pure trivial
  · rename_i updated hup
    split
    · exact safe_pure trivial
    · refine safe_change_nil fun st h => { h with arenas := ?_ }
      exact forall_modify h.arenas id fun a ha => ha.writeSlot slot generation (hs.env.get hup).good

theorem safe_execHolla (binding : String) (tag crib : Expr) (live ghosted : Block) :
    Safe tb (FlowGood tb) (execHolla pr ev binding tag crib live ghosted) := by
  unfold execHolla
  refine (hev.expr tag).bind fun v _ => ?_
  refine (safe_evalCrib hev crib).bind fun id _ => ?_
  split
  · refine safe_get.bind fun s hs => ?_
    split
    · rename_i val hr
      obtain ⟨a, ha, hr⟩ := Option.bind_eq_some_iff.mp hr
      have hval := (hs.arenas a (List.mem_of_getElem? ha)).resolve hr
      unfold holdLive
      refine safe_pushScope.bind fun _ _ => ?_
      refine (safe_declare binding hval).bind fun _ _ => ?_
      refine (hev.block live).caught.bind fun flow hflow => ?_
      refine (safe_writeBack binding id _ _ val).bind fun _ _ => ?_
      exact safe_popScope.bind fun _ _ => safe_ofExcept hflow
    · exact hev.block ghosted
  · exact hev.block ghosted
  · exact safe_raise trivial

theorem safe_execSheesh (body : Block) (recover : Option (String × Block)) :
    Safe tb (FlowGood tb) (execSheesh ev body recover) := by
  unfold execSheesh
  refine (hev.block body).caught.bind fun r hr => ?_
  split
  · unfold recoverWith
    split
    · exact safe_inScope ((safe_declare _ hr).bind fun _ _ => hev.block _)
    · exact safe_pure trivial
  · exact safe_ofExcept hr

omit hev in
theorem defaultValue_good (ty : Typ) : Good tb (defaultValue ty) := by
  unfold defaultValue
  split
  · split
    · exact good_word tb 0
    split
    · exact .float
    split
    · exact .bool
    split
    · exact .str
    · exact .ghosted
  · exact .ghosted

theorem safe_execBounce (e : Expr) : Safe tb (FlowGood tb) (execBounce ev e) := by
  unfold execBounce
  refine (hev.expr e).bind fun v hv => ?_
  split
  · exact safe_pure trivial
  · refine safe_get.bind fun s _ => safe_pure ?_
    refine forall_concat (fun x hx => ?_) hv
    obtain ⟨t, _, rfl⟩ := List.mem_map.mp hx
    exact defaultValue_good t

theorem safe_execEvict (crib : Expr) (tag : Option Expr) :
    Safe tb (fun _ => True) (execEvict ev crib tag) := by
  unfold execEvict
  refine (safe_evalCrib hev crib).bind fun id _ => ?_
  split
  · exact safe_change_nil fun _ h => { h with arenas := forall_modify h.arenas id fun _ ha => ha.evict }
  · refine (hev.expr _).bind fun v _ => ?_
    split
    · exact safe_change_nil fun _ h =>
        { h with arenas := forall_modify h.arenas id fun _ ha => ha.evictSlot _ _ }
    · exact safe_pure trivial
    · exact safe_raise trivial

theorem safe_execStmt (stmt : Stmt) : Safe tb (FlowGood tb) (execStmt pr tb ev stmt) := by
  unfold execStmt
  split
  · exact safe_andThen ((safe_spread hev _ _).bind fun vals hvals => safe_declareTargets _ _ hvals)
  · exact safe_andThen ((hev.expr _).bind fun v hv => safe_declareAs _ _ hv)
  · exact safe_andThen ((safe_newArena _).bind fun id _ => safe_declare _ .crib)
  · exact safe_execElifs hev _ _
  · exact hev.vibin _ _
  · exact safe_execSquad hev _ _ _
  · unfold execVibeStmt
    refine (hev.expr _).bind fun v hv => ?_
    split
    · cases hv with
      | variant h => exact safe_execVibe hev _ h _ _
    · exact safe_raise trivial
  · exact safe_execHolla hev _ _ _ _ _
  · exact safe_execSheesh hev _ _
  · exact safe_andThen (safe_execEvict hev _ _)
  · exact safe_andThen (safe_evalCallExpr hev _)
  · exact (safe_evalExprs hev _).bind fun vals hvals => safe_pure hvals
  · exact safe_execBounce hev _
  · exact (hev.expr _).bind fun v hv => safe_raise hv
  · exact safe_pure trivial
  · exact safe_pure trivial
  · exact safe_andThen (safe_execAssign hev _ _ _)
  · exact safe_andThen (safe_evalCallExpr hev _)

end

/-- One more level of nesting at a time. -/
theorem evaluator_safe (fuel : Nat) : EvSafe tb (evaluator pr tb fuel) := by
  induction fuel with
  | zero =>
    exact ⟨fun _ => safe_fail trivial, fun _ => safe_fail trivial, fun _ _ => safe_fail trivial,
      fun _ _ => safe_fail trivial⟩
  | succ fuel ih =>
    exact ⟨safe_evalExpr ih, safe_execBlock (safe_execStmt ih), safe_vibin ih,
      safe_zeroDefault ih⟩

section Program

theorem safe_declareGlobal (name : String) {ws : List Write} {slot : Slot}
    (h : (∀ w ∈ ws, w.Meets) → Fits tb slot.declared slot.value) :
    Safe tb (fun _ => True) (declareGlobal name ws slot : Run W Unit) :=
  safe_change fun _ hst hws =>
    { hst with globals := List.forall_mem_cons.mpr ⟨h hws, hst.globals⟩ }

theorem safe_declareGlobals (ty : Option Typ) (names : List String) {vals : List Value}
    (hvals : AllGood tb vals) :
    Safe tb (fun _ => True) (declareGlobals ty names vals : Run W Unit) := by
  induction names generalizing vals with
  | nil => exact safe_pure trivial
  | cons name names ih =>
    cases vals with
    | nil => exact safe_pure trivial
    | cons v vs =>
      rw [declareGlobals]
      refine (safe_declareGlobal name fun hws => ?_).bind fun _ _ => ih hvals.tail
      exact ⟨hvals.head, plain_meets hws⟩

theorem safe_registerCrib (item : Item) :
    Safe tb (fun _ => True) (registerCrib item : Run W Unit) := by
  unfold registerCrib
  split
  · refine (safe_newArena _).bind fun id _ => ?_
    exact safe_declareGlobal _ fun _ => ⟨.crib, carriesOpt_none _⟩
  · exact safe_pure trivial

theorem safe_evalGlobal (hev : EvSafe tb ev) (item : Item) :
    Safe tb (fun _ => True) (evalGlobal pr tb ev item) := by
  unfold evalGlobal
  split
  · refine safe_pushFrame.bind fun _ _ => ?_
    refine (hev.expr _).bind fun v hv => ?_
    refine safe_popFrame.bind fun _ _ => ?_
    exact safe_declareGlobal _ fun hws => coerce_fits hv (hws _ List.mem_cons_self)
  · refine safe_pushFrame.bind fun _ _ => ?_
    refine (safe_spread hev _ _).bind fun vals hvals => ?_
    exact safe_popFrame.bind fun _ _ => safe_declareGlobals _ _ hvals
  · exact safe_pure trivial

theorem safe_forItems {f : Item → Run W Unit} (h : ∀ item, Safe tb (fun _ => True) (f item))
    (items : List Item) : Safe tb (fun _ => True) (forItems f items) := by
  induction items with
  | nil => exact safe_pure trivial
  | cons item items ih => exact (h item).bind fun _ _ => ih

theorem safe_execMain (hev : EvSafe tb ev) : Safe tb (fun _ => True) (execMain tb ev) := by
  unfold execMain
  split
  · exact safe_raise trivial
  · exact (safe_callFn hev _ .nil no_receiver).bind fun _ _ => safe_pure trivial

theorem initial_stamped (world : W) (budget : Nat) : Stamped tb (initial world budget).store where
  env := List.forall_mem_nil _
  callers := List.forall_mem_nil _
  globals := List.forall_mem_nil _
  arenas := List.forall_mem_nil _
  heap := List.forall_mem_nil _
  returned := List.forall_mem_nil _

/-- No floats, no text and no modules. -/
def silent : Prims Unit where
  display := fun _ _ => ""
  formatStr := fun _ _ _ => .ok ""
  equal := fun _ _ _ => false
  floatBinary := fun _ _ _ => .error (.type "float")
  floatNeg := id
  floatEq := fun _ _ => false
  ofInt := fun _ => 0
  trunc := fun _ => 0
  lossy := fun _ => ""
  call := fun _ _ _ w => (.ok [], w)
  draw := fun _ _ _ w => (.ok (.word 0), w)

def mainOf (body : Block) : Program := [.func ⟨none, "main", [], .none, body⟩]

def i8 : Typ := .named "i8" []

/-- `lowkey x: i8 = 300`, `lowkey y: i8 = 5`, `x = y`. -/
def narrowed : Program :=
  mainOf [.var ⟨["x"], some i8, [.int 300]⟩, .var ⟨["y"], some i8, [.int 5]⟩,
    .assign [.name "x"] .eq [.name "y"]]

/-- `lowkey x: i8 = 1`, `x = 300`. -/
def reassigned : Program :=
  mainOf [.var ⟨["x"], some i8, [.int 1]⟩, .assign [.name "x"] .eq [.int 300]]

end Program

end BetLang.Eval
