import BetLang.StampedExpr

/-! Calls, collections and places: what they write to a declared place is reported, so they keep the
store stamped. -/

namespace BetLang.Eval

open Collect (Typ RetType)
open Interp (Value RunError)
open Traced

variable {W : Type} {tb : Tables} {pr : Prims W} {ev : Evaluator W}

/-- A borrow that is sound in the store that it was made in. -/
structure PlaceFits (tb : Tables) (p : Place) : Prop where
  slot : Fits tb p.slot.declared p.slot.value
  walk : walk tb p.slot.declared p.slot.value p.steps = .ok (p.ty, p.value)

theorem PlaceFits.value {p : Place} (h : PlaceFits tb p) : Fits tb p.ty p.value :=
  walk_fits h.slot h.walk

theorem safe_setPlace {p : Place} (h : PlaceFits tb p) {ws : List Write} {new : Value}
    (hnew : (∀ w ∈ ws, w.Meets) → Fits tb p.ty new) :
    Safe tb (fun _ => True) (setPlace p ws new : Run W Unit) :=
  safe_change fun _ hst hws =>
    { hst with env := hst.env.set (replace_fits h.slot h.walk (hnew hws)) }

theorem elems_concat {ty : Option Typ} {xs : List Value} {v : Value}
    (hxs : ∀ x ∈ xs, Fits tb ty x) (hv : Good tb v) {ws : List Write}
    (hws : ∀ w ∈ Write.plain ty v :: ws, w.Meets) : ∀ x ∈ xs ++ [v], Fits tb ty x :=
  forall_concat hxs ⟨hv, plain_meets hws⟩

theorem safe_arrayStackPop {p : Place} (h : PlaceFits tb p) {xs : List Value}
    (hp : p.value = .array xs) (method : String) {argVals : List Value}
    (hargs : AllGood tb argVals) :
    Safe tb (AllGood tb) (arrayStackPop p xs method argVals : Run W (List Value)) := by
  have hfits : Fits tb p.ty (.array xs) := hp ▸ h.value
  unfold arrayStackPop
  split
  · split
    · refine (safe_setPlace h fun hws => ?_).bind fun _ _ => safe_pure .nil
      exact hfits.withElems (elems_concat hfits.elem hargs.head hws)
    · exact safe_raise trivial
  · split
    · rename_i v hv
      refine (safe_setPlace h fun _ => ?_).bind fun _ _ => safe_pure ?_
      · exact hfits.withElems fun y hy => hfits.elem y (List.dropLast_subset _ hy)
      · exact .one (hfits.good.elem v (List.mem_of_getLast? hv))
    · exact safe_raise trivial

theorem safe_vecStackPop (addr : Nat) (method : String) {argVals : List Value}
    (hargs : AllGood tb argVals) :
    Safe tb (AllGood tb) (vecStackPop addr method argVals : Run W (List Value)) := by
  unfold vecStackPop
  refine (safe_vecAt addr).bind fun ⟨declared, xs⟩ hcell => ?_
  dsimp only
  split
  · split
    · refine (safe_setCell addr fun hws => ?_).bind fun _ _ => safe_pure .nil
      exact elems_concat hcell hargs.head hws
    · exact safe_raise trivial
  · split
    · split
      · rename_i v hv
        refine (safe_setCell addr fun _ => ?_).bind fun _ _ => safe_pure ?_
        · exact fun y hy => hcell y (List.dropLast_subset _ hy)
        · exact .one (hcell v (List.mem_of_getLast? hv)).good
      · exact safe_raise trivial
    · exact safe_raise trivial

section

variable (hev : EvSafe tb ev)

include hev

theorem safe_flatten (e : Expr) : Safe tb (fun _ => True) (flatten ev e) := by
  induction e using flatten.induct with
  | case1 name => exact safe_pure trivial
  | case2 base name ih =>
    rw [flatten]
    exact ih.bind fun _ _ => safe_pure trivial
  | case3 base index ih =>
    rw [flatten]
    refine (hev.expr index).bind fun v _ => ?_
    refine (safe_indexOf v).bind fun i _ => ?_
    exact ih.bind fun _ _ => safe_pure trivial
  | case4 e h1 h2 h3 =>
    rw [flatten]
    · exact safe_raise trivial
    · exact h1
    · exact h2
    · exact h3

theorem safe_placeMut (e : Expr) : Safe tb (PlaceFits tb) (placeMut tb ev e) := by
  unfold placeMut
  refine (safe_flatten hev e).bind fun path _ => ?_
  refine safe_get.bind fun s hs => ?_
  split
  · exact safe_raise trivial
  · rename_i slot hslot
    refine (safe_raised (fun a ha => ha) fun e he => quiet_walk he).bind fun r hr => ?_
    exact safe_pure ⟨hs.env.get hslot, hr⟩

theorem safe_oneFnArg (method : String) (args : List Arg) :
    Safe tb (Good tb) (oneFnArg ev method args) := by
  unfold oneFnArg
  split
  · exact hev.expr _
  · exact safe_raise trivial

theorem safe_vibeCheckLoop (f : Value) {xs : List Value} (hxs : AllGood tb xs) :
    Safe tb (AllGood tb) (vibeCheckLoop tb ev f xs) := by
  induction xs with
  | nil => exact safe_pure .nil
  | cons x xs ih =>
    rw [vibeCheckLoop]
    refine (safe_applyFnValue hev f (.one hxs.head)).bind fun keep _ => ?_
    refine (ih hxs.tail).bind fun rest hrest => safe_pure ?_
    split
    · exact .cons hxs.head hrest
    · exact hrest

theorem safe_glowUpLoop (f : Value) {xs : List Value} (hxs : AllGood tb xs) :
    Safe tb (AllGood tb) (glowUpLoop tb ev f xs) := by
  induction xs with
  | nil => exact safe_pure .nil
  | cons x xs ih =>
    rw [glowUpLoop]
    refine (safe_applyFnValue hev f (.one hxs.head)).bind fun y hy => ?_
    exact (ih hxs.tail).bind fun rest hrest => safe_pure (.cons hy hrest)

theorem safe_callArrayMethod {xs : List Value} (hxs : AllGood tb xs) (method : String)
    (args : List Arg) : Safe tb (AllGood tb) (callArrayMethod tb ev xs method args) := by
  unfold callArrayMethod
  split
  · exact safe_pure (.one (good_word tb _))
  split
  · refine (safe_oneFnArg hev method args).bind fun f _ => ?_
    exact (safe_vibeCheckLoop hev f hxs).bind fun out hout => safe_pure (.one (.array hout))
  split
  · refine (safe_oneFnArg hev method args).bind fun f _ => ?_
    exact (safe_glowUpLoop hev f hxs).bind fun out hout => safe_pure (.one (.array hout))
  · exact safe_raise trivial

omit hev in
theorem utf8_good {s : String} : ∀ v ∈ utf8 s, Good tb v := by
  intro v hv
  obtain ⟨b, _, rfl⟩ := List.mem_map.mp hv
  exact .byte

theorem safe_callVec (addr : Nat) (method : String) (args : List Arg) :
    Safe tb (AllGood tb) (callVec pr tb ev addr method args) := by
  unfold callVec
  split
  · exact (safe_evalArgs hev args).bind fun vals hvals => safe_vecStackPop addr method hvals
  split
  · refine (safe_evalArgs hev args).bind fun vals _ => ?_
    split
    · refine (safe_vecAt addr).bind fun ⟨declared, xs⟩ hcell => ?_
      refine (safe_setCell addr fun hws => ?_).bind fun _ _ => safe_pure .nil
      intro x hx
      rcases List.mem_append.mp hx with hx | hx
      · exact hcell x hx
      · exact ⟨utf8_good x hx, hws _ (List.mem_map_of_mem hx)⟩
    · exact safe_raise trivial
  split
  · split
    · refine (safe_vecAt addr).bind fun ⟨declared, xs⟩ _ => ?_
      refine (safe_raised (fun _ _ => trivial) fun e he => quiet_bytesOf he).bind fun _ _ => ?_
      exact safe_pure (.one .str)
    · exact safe_raise trivial
  · refine (safe_vecAt addr).bind fun ⟨declared, xs⟩ hcell => ?_
    exact safe_callArrayMethod hev (fun x hx => (hcell x hx).good) method args

omit hev in
theorem putEntry_good {eq : Value → Value → Bool} {k v : Value} (hk : Good tb k) (hv : Good tb v)
    {entries : List (Value × Value)} (h : ∀ e ∈ entries, Good tb e.1 ∧ Good tb e.2) :
    ∀ e ∈ putEntry eq k v entries, Good tb e.1 ∧ Good tb e.2 := by
  induction entries with
  | nil => exact List.forall_mem_singleton.mpr ⟨hk, hv⟩
  | cons p rest ih =>
    obtain ⟨hp, hrest⟩ := List.forall_mem_cons.mp h
    rw [putEntry]
    split
    · exact List.forall_mem_cons.mpr ⟨⟨hp.1, hv⟩, hrest⟩
    · exact List.forall_mem_cons.mpr ⟨hp, ih hrest⟩

theorem safe_callStash (addr : Nat) (method : String) (args : List Arg) :
    Safe tb (AllGood tb) (callStash pr ev addr method args) := by
  unfold callStash
  refine (safe_evalArgs hev args).bind fun vals hvals => ?_
  refine safe_get.bind fun s _ => ?_
  refine (safe_stashAt addr).bind fun entries hes => ?_
  split
  · split
    · refine (safe_setCell addr fun _ => ?_).bind fun _ _ => safe_pure .nil
      exact putEntry_good hvals.head hvals.tail.head hes
    · exact safe_raise trivial
  split
  · split
    · split
      · rename_i e he
        exact safe_pure (.cons (hes e (List.mem_of_find?_eq_some he)).2 (.one .bool))
      · exact safe_pure (.cons .ghosted (.one .bool))
    · exact safe_raise trivial
  split
  · split
    · refine (safe_setCell addr fun _ => ?_).bind fun _ _ => safe_pure (.one .bool)
      exact fun e he => hes e (List.mem_filter.mp he).1
    · exact safe_raise trivial
  split
  · exact safe_pure (.one (good_word tb _))
  · exact safe_raise trivial

omit hev in
theorem safe_outside {α : Type} (f : W → Except Fault α × W) :
    Safe tb (fun _ => True) (outside f : Run W α) := by
  unfold outside
  refine safe_get.bind fun s _ => ?_
  refine Safe.bind (safe_modify fun _ => rfl) fun _ _ => ?_
  split
  · exact safe_pure trivial
  · exact safe_fail (halt_yields _)

theorem safe_callMethod {recv : Value} (hrecv : Good tb recv) (method : String)
    (args : List Arg) : Safe tb (AllGood tb) (callMethod pr tb ev recv method args) := by
  unfold callMethod
  split
  · split
    · refine (safe_evalArgs hev args).bind fun vals _ => ?_
      split
      · exact safe_pure (.one .yikes)
      · exact safe_raise trivial
    · exact safe_raise trivial
  · exact safe_callStash hev _ method args
  · exact safe_callVec hev _ method args
  · refine (safe_evalArgs hev args).bind fun vals _ => ?_
    exact (safe_outside _).bind fun drawn _ => safe_pure (.one (good_plain drawn))
  · exact safe_callArrayMethod hev hrecv.elem method args
  · split
    · refine (safe_evalArgs hev args).bind fun vals hvals => ?_
      refine safe_callFn hev _ hvals fun v hv => ?_
      cases hv
      exact hrecv
    · split
      · exact safe_callNamedFn hev _ args
      · exact safe_raise trivial
  · exact safe_raise trivial

omit hev in
theorem safe_emit (text : String) : Safe tb (fun _ => True) (emit text : Run W Unit) :=
  safe_modify fun _ => rfl

theorem safe_callSpill (method : String) (args : List Arg) :
    Safe tb (fun _ => True) (callSpill pr ev method args) := by
  unfold callSpill
  split
  · split
    · refine (hev.expr _).bind fun v _ => ?_
      exact safe_get.bind fun s _ => safe_emit _
    · exact safe_raise trivial
  split
  · split
    · exact safe_raise trivial
    · refine (hev.expr _).bind fun v _ => ?_
      split
      · refine (safe_evalArgs hev _).bind fun vals _ => ?_
        refine safe_get.bind fun s _ => ?_
        split
        · exact safe_emit _
        · exact safe_fail trivial
      · exact safe_raise trivial
  · exact safe_raise trivial

theorem safe_callYikes (method : String) (args : List Arg) :
    Safe tb (Good tb) (callYikes ev method args) := by
  unfold callYikes
  split
  · refine (safe_evalArgs hev args).bind fun vals _ => ?_
    split
    · exact safe_pure .yikes
    · exact safe_raise trivial
  · exact safe_raise trivial

theorem safe_evalAllocCtxArg (args : List Arg) :
    Safe tb (fun _ => True) (evalAllocCtxArg ev args) := by
  unfold evalAllocCtxArg
  split
  · exact safe_pure trivial
  · refine (hev.expr _).bind fun v _ => ?_
    split
    · exact safe_pure trivial
    · exact safe_raise trivial
  · exact safe_raise trivial

theorem safe_slabZero (generics : List Typ) : Safe tb (Good tb) (slabZero tb ev generics) := by
  unfold slabZero
  split
  · split
    · exact hev.zeroDefault _ _
    · exact safe_pure (good_word tb 0)
  · exact safe_pure (good_word tb 0)

theorem safe_memSlab (generics : List Typ) (args : List Arg) :
    Safe tb (Good tb) (memSlab tb ev generics args) := by
  unfold memSlab
  refine (safe_evalArgs hev args).bind fun vals _ => ?_
  split
  · split
    · refine (safe_slabZero hev generics).bind fun z hz => ?_
      refine (safe_checkedAlloc _).bind fun _ _ => safe_pure (.array fun x hx => ?_)
      rw [List.eq_of_mem_replicate hx]
      exact hz
    · exact safe_raise trivial
  · exact safe_raise trivial

theorem safe_callModule (fn : ModuleFn) (modname method : String) (generics : List Typ)
    (args : List Arg) :
    Safe tb (AllGood tb) (callModule pr tb ev fn modname method generics args) := by
  unfold callModule
  cases fn with
  | spill => exact (safe_callSpill hev method args).bind fun _ _ => safe_pure .nil
  | yikes => exact (safe_callYikes hev method args).bind fun v hv => safe_pure (.one hv)
  | stashNew =>
    refine (safe_evalAllocCtxArg hev args).bind fun _ _ => ?_
    exact (safe_newCell (c := .stash []) (List.forall_mem_nil _)).bind fun _ _ =>
      safe_pure (.one .stash)
  | vecNew =>
    exact (safe_newCell (c := .vec _ []) (List.forall_mem_nil _)).bind fun _ _ =>
      safe_pure (.one .vec)
  | scratch => exact (safe_newArena false).bind fun _ _ => safe_pure (.one .crib)
  | receipts => exact safe_pure (.one (good_word tb 0))
  | slab => exact (safe_memSlab hev generics args).bind fun v hv => safe_pure (.one hv)
  | other =>
    refine (safe_evalArgs hev args).bind fun vals _ => ?_
    refine (safe_outside _).bind fun out _ => safe_pure fun v hv => ?_
    obtain ⟨p, _, rfl⟩ := List.mem_map.mp hv
    exact good_plain p

omit hev in
theorem safe_moduleOf (receiver : Expr) (method : String) :
    Safe tb (fun _ => True) (moduleOf receiver method : Run W (Option (ModuleFn × String))) := by
  unfold moduleOf
  split
  · refine safe_get.bind fun s _ => ?_
    split
    · exact safe_pure trivial
    · exact safe_pure trivial
  · exact safe_pure trivial

theorem safe_callOn (receiver : Expr) (method : String) (args : List Arg) :
    Safe tb (AllGood tb) (callOn pr tb ev receiver method args) := by
  unfold callOn
  exact (hev.expr receiver).bind fun v hv => safe_callMethod hev hv method args

theorem safe_callOnPlace (receiver : Expr) (method : String) (args : List Arg) :
    Safe tb (AllGood tb) (callOnPlace pr tb ev receiver method args) := by
  unfold callOnPlace
  refine (safe_evalArgs hev args).bind fun vals hvals => ?_
  refine (safe_placeMut hev receiver).caught.bind fun r hr => ?_
  cases r with
  | error e => exact safe_callOn hev receiver method args
  | ok p =>
    dsimp only
    split
    · rename_i xs hxs
      exact safe_arrayStackPop hr hxs method hvals
    · exact safe_vecStackPop _ method hvals
    · exact safe_callOn hev receiver method args

theorem safe_evalMethodCall (receiver : Expr) (method : String) (generics : List Typ)
    (args : List Arg) :
    Safe tb (AllGood tb) (evalMethodCall pr tb ev receiver method generics args) := by
  unfold evalMethodCall
  refine (safe_moduleOf receiver method).bind fun m _ => ?_
  split
  · exact safe_callModule hev _ _ method generics args
  · split
    · exact safe_callOnPlace hev receiver method args
    · exact safe_callOn hev receiver method args

theorem safe_callExternShim (name : String) (args : List Arg) :
    Safe tb (AllGood tb) (callExternShim ev name args) := by
  unfold callExternShim
  refine (safe_evalArgs hev args).bind fun vals _ => ?_
  split
  · exact safe_pure (.one (good_word tb _))
  · exact safe_raise trivial

theorem safe_callValue (args : List Arg) (v : Value) :
    Safe tb (AllGood tb) (callValue tb ev args v) := by
  unfold callValue
  split
  · exact safe_callNamedFn hev _ args
  · exact safe_raise trivial

theorem safe_evalPlainCall (callee : Expr) (args : List Arg) :
    Safe tb (AllGood tb) (evalPlainCall tb ev callee args) := by
  unfold evalPlainCall
  split
  · refine safe_get.bind fun s _ => ?_
    split
    · exact safe_callValue hev args _
    · split
      · exact (safe_constructVariant hev _ _ _ args).bind fun v hv => safe_pure (.one hv)
      · split
        · exact safe_callNamedFn hev _ args
        · split
          · exact safe_callExternShim hev _ args
          · exact safe_raise trivial
  · exact (hev.expr _).bind fun v _ => safe_callValue hev args v

theorem safe_evalCallExpr (e : Expr) : Safe tb (AllGood tb) (evalCallExpr pr tb ev e) := by
  unfold evalCallExpr
  split
  · exact safe_evalMethodCall hev _ _ _ _
  · exact safe_evalPlainCall hev _ _
  · exact (hev.expr _).bind fun v hv => safe_pure (.one hv)

theorem safe_evalField (base : Expr) (name : String) :
    Safe tb (Good tb) (evalField ev base name) := by
  unfold evalField
  refine (hev.expr base).bind fun v hv => ?_
  split
  · split
    · rename_i hl
      exact safe_pure (hv.fields _ (mem_of_lookup hl)).good
    · exact safe_raise trivial
  · exact safe_raise trivial

omit hev in
theorem safe_elemAt {xs : List Value} (h : AllGood tb xs) (i : Nat) :
    Safe tb (Good tb) (elemAt xs i : Run W Value) := by
  unfold elemAt
  split
  · rename_i hx
    exact safe_pure (h _ (List.mem_of_getElem? hx))
  · exact safe_raise trivial

theorem safe_evalIndex (base index : Expr) : Safe tb (Good tb) (evalIndex ev base index) := by
  unfold evalIndex
  refine (hev.expr base).bind fun v hv => ?_
  refine (hev.expr index).bind fun idx _ => ?_
  refine (safe_indexOf idx).bind fun i _ => ?_
  split
  · exact safe_elemAt hv.elem i
  · refine (safe_vecAt _).bind fun ⟨declared, xs⟩ hcell => ?_
    exact safe_elemAt (fun x hx => (hcell x hx).good) i
  · exact safe_raise trivial

theorem safe_evalTrust (tag crib : Expr) : Safe tb (Good tb) (evalTrust ev tag crib) := by
  unfold evalTrust
  refine (hev.expr tag).bind fun v _ => ?_
  refine (safe_evalCrib hev crib).bind fun id _ => ?_
  split
  · refine safe_get.bind fun s hs => ?_
    split
    · rename_i hr
      obtain ⟨a, ha, hr⟩ := Option.bind_eq_some_iff.mp hr
      exact safe_pure ((hs.arenas a (List.mem_of_getElem? ha)).resolveUnchecked hr)
    · exact safe_raise trivial
  · exact safe_raise trivial

theorem safe_evalExprInner (e : Expr) : Safe tb (Good tb) (evalExprInner pr tb ev e) := by
  unfold evalExprInner
  split
  · exact safe_pure (good_word tb _)
  · exact safe_pure .float
  · exact safe_pure .str
  · exact safe_pure .byte
  · exact safe_pure .bool
  · exact safe_pure .ghosted
  · exact safe_evalName _
  · exact safe_evalField hev _ _
  · exact safe_evalIndex hev _ _
  · exact (safe_evalCallExpr hev _).bind fun vals hvals => safe_exactlyOne hvals
  · exact (safe_evalCallExpr hev _).bind fun vals hvals => safe_exactlyOne hvals
  · refine (hev.expr _).bind fun v hv => ?_
    exact safe_raised (fun _ ha => good_unaryOp hv ha) fun _ he => quiet_unaryOp he
  · exact safe_evalBinary hev _ _ _
  · refine (hev.expr _).bind fun v _ => ?_
    exact safe_raised (fun _ ha => good_cast ha) fun _ he => quiet_cast he
  · exact safe_evalStructLit hev _
  · exact (safe_evalExprs hev _).bind fun xs hxs => safe_pure (.array hxs)
  · exact safe_evalCop hev _ _
  · exact safe_evalTrust hev _ _

theorem safe_evalExpr (e : Expr) : Safe tb (Good tb) (evalExpr pr tb ev e) :=
  safe_deeper (safe_evalExprInner hev e)

end

end BetLang.Eval
