import BetLang.ZeroDefault
import Mathlib.Data.Set.Finite.List
import Mathlib.Data.Finite.Prod

/-! When a zero value is computed at all: a type that contains itself by value is computed for ever,
by the interpreter and by lowering. -/

namespace BetLang.Zero

open OrderedCalls Relation
open Collect (Typ DripDecl FieldDecl)
open Eval (Halt insertField zeroScalar)
open Interp (Value)
open Ir (Ty StructDef)

section Interpreter

variable (drips : Drips)

/-- The types whose zeros a zero is made of. -/
def interpParts : Typ × Subst → List (Typ × Subst)
  | (.named name args, subst) =>
    match subst.lookup name with
    | some sub => [(sub, [])]
    | none =>
      match zeroScalar name with
      | some _ => []
      | none =>
        match drips.lookup name with
        | none => []
        | some decl => decl.fields.map fun fd => (fd.ty, bindParams decl args)
  | (.array elem _, subst) => [(elem, subst)]
  | (.soa inner, subst) => [(inner, subst)]
  | _ => []

def insertFields (acc : List (String × Value)) (names : List String) (vals : List Value) :
    List (String × Value) :=
  (names.zip vals).foldl (fun acc x => insertField acc x.1 x.2) acc

def interpCombine : Typ × Subst → List Value → Except Halt Value
  | (.named name _, subst), rs =>
    match subst.lookup name with
    | some _ => .ok (rs.headD .ghosted)
    | none =>
      match zeroScalar name with
      | some v => .ok v
      | none =>
        match drips.lookup name with
        | none => .error (noZero name)
        | some decl => .ok (.struct name (insertFields [] (decl.fields.map (·.name)) rs))
  | (.slice _, _), _ => .ok (.array [])
  | (.array _ n, _), rs => zeroArray n (rs.headD .ghosted)
  | (.soa _, _), rs => .ok (rs.headD .ghosted)
  | (.rawPtr, _), _ => .ok (.word 0)
  | _, _ => .ok .ghosted

def interpPlan : Plan (Typ × Subst) Halt Value where
  calls := interpParts drips
  combine := interpCombine drips

theorem zeroFields_eq (zero : Typ → Fueled Halt Value) (acc : List (String × Value))
    (fds : List FieldDecl) :
    zeroFields zero acc fds =
      andThen (inOrder (fun fd : FieldDecl => zero fd.ty) fds) fun vals =>
        some (.ok (insertFields acc (fds.map (·.name)) vals)) := by
  induction fds generalizing acc with
  | nil => rfl
  | cons fd rest ih =>
    rw [zeroFields, inOrder]
    cases zero fd.ty with
    | none => rfl
    | some r =>
      cases r with
      | error e => rfl
      | ok v =>
        simp only [andThen_ok, ih]
        cases inOrder (fun fd : FieldDecl => zero fd.ty) rest with
        | none => rfl
        | some r => cases r <;> rfl

theorem zeroDefault_eq_run (fuel : Nat) (ty : Typ) (subst : Subst) :
    zeroDefault drips fuel ty subst = (interpPlan drips).run fuel (ty, subst) := by
  induction fuel generalizing ty subst with
  | zero => cases ty <;> rfl
  | succ fuel ih =>
    rw [Plan.run]
    cases ty with
    | named name args =>
      simp only [zeroDefault, interpPlan, interpParts, interpCombine]
      cases subst.lookup name with
      | some sub =>
        dsimp only
        rw [inOrder_singleton, andThen_assoc, ih]
        exact (andThen_return _).symm
      | none =>
        dsimp only
        cases zeroScalar name with
        | some v => rfl
        | none =>
          dsimp only
          cases drips.lookup name with
          | none => rfl
          | some decl =>
            dsimp only
            rw [zeroFields_eq, inOrder_map, andThen_assoc]
            simp only [ih]
            rfl
    | array elem n =>
      rw [zeroDefault, ih]
      show _ = andThen (inOrder ((interpPlan drips).run fuel) [(elem, subst)]) _
      rw [inOrder_singleton, andThen_assoc]
      rfl
    | soa inner =>
      rw [zeroDefault, ih]
      show _ = andThen (inOrder ((interpPlan drips).run fuel) [(inner, subst)]) _
      rw [inOrder_singleton, andThen_assoc]
      exact (andThen_return _).symm
    | _ => rfl

end Interpreter

section Lowering

variable (structs : List StructDef)

def lowerParts : Ty → List Ty
  | .struct sid => ((structs[sid]?).map fun d => d.fields.map (·.ty)).getD []
  | .array elem _ => [elem]
  | .simd elem _ => [elem]
  | _ => []

def lowerCombine : Ty → List ZeroOperand → Except String ZeroOperand
  | .int width signed, _ => .ok (.const (.int 0 (.int width signed)))
  | .f32, _ => .ok (.const (.float 0 .f32))
  | .f64, _ => .ok (.const (.float 0 .f64))
  | .bool, _ => .ok (.const (.bool false))
  | .str, _ => .ok (.const (.str ""))
  | .tag _, _ => .ok (.const .ghosted)
  | .fnPtr _ _, _ | .map _ _, _ | .vec _, _ | .rng, _ | .rawPtr, _ | .crib _, _ =>
    .ok (.const .nullPtr)
  | .slice elem, _ => .ok (.emptySlice elem)
  | .struct sid, ops =>
    match structs[sid]? with
    | none => .error "bad struct"
    | some _ => .ok (.aggregate (.struct sid) ops)
  | .array elem n, ops =>
    .ok (.aggregate (.array elem) (List.replicate n (ops.headD (.const .nullPtr))))
  | .simd elem n, ops =>
    .ok (.aggregate (.simd elem) (List.replicate n (ops.headD (.const .nullPtr))))
  | _, _ => .error "no zero value; initialize it explicitly"

def lowerPlan : Plan Ty String ZeroOperand where
  calls := lowerParts structs
  combine := lowerCombine structs

theorem zeroOps_eq (zero : Ty → Fueled String ZeroOperand) (tys : List Ty) :
    zeroOps zero tys = inOrder zero tys := by
  induction tys with
  | nil => rfl
  | cons ty tys ih => rw [zeroOps, inOrder, ih]

theorem zeroValue_eq_run (fuel : Nat) (ty : Ty) :
    zeroValue structs fuel ty = (lowerPlan structs).run fuel ty := by
  induction fuel generalizing ty with
  | zero => rfl
  | succ fuel ih =>
    have hih : zeroValue structs fuel = (lowerPlan structs).run fuel := funext ih
    rw [Plan.run]
    cases ty with
    | struct sid =>
      simp only [zeroValue, lowerPlan, lowerParts, lowerCombine, zeroOps_eq, hih]
      cases structs[sid]? <;> rfl
    | array elem n =>
      rw [zeroValue, ih]
      show _ = andThen (inOrder ((lowerPlan structs).run fuel) [elem]) _
      rw [inOrder_singleton, andThen_assoc]
      rfl
    | simd elem n =>
      rw [zeroValue, ih]
      show _ = andThen (inOrder ((lowerPlan structs).run fuel) [elem]) _
      rw [inOrder_singleton, andThen_assoc]
      rfl
    | _ => rfl

end Lowering

section Finite

mutual

/-- The types that a type mentions where its zero may need them, itself included. -/
def mentioned : Typ → List Typ
  | .named name args => .named name args :: mentionedAll args
  | .array elem n => .array elem n :: mentioned elem
  | .soa inner => .soa inner :: mentioned inner
  | ty => [ty]

def mentionedAll : List Typ → List Typ
  | [] => []
  | ty :: tys => mentioned ty ++ mentionedAll tys

end

theorem mentioned_self (ty : Typ) : ty ∈ mentioned ty := by
  cases ty <;> simp [mentioned]

theorem mentioned_of_mem_args {args : List Typ} {ty : Typ} (h : ty ∈ args) :
    ∀ t ∈ mentioned ty, t ∈ mentionedAll args := by
  induction args with
  | nil => cases h
  | cons a args ih =>
    intro t ht
    rw [mentionedAll]
    rcases List.mem_cons.mp h with rfl | h
    · exact List.mem_append_left _ ht
    · exact List.mem_append_right _ (ih h t ht)

mutual

theorem mentioned_trans : ∀ (ty : Typ) {t u : Typ}, t ∈ mentioned ty → u ∈ mentioned t →
    u ∈ mentioned ty
  | .named name args, t, u, ht, hu => by
    rw [mentioned] at ht ⊢
    rcases List.mem_cons.mp ht with rfl | ht
    · rwa [mentioned] at hu
    · exact List.mem_cons_of_mem _ (mentionedAll_trans args ht hu)
  | .array elem n, t, u, ht, hu => by
    rw [mentioned] at ht ⊢
    rcases List.mem_cons.mp ht with rfl | ht
    · rwa [mentioned] at hu
    · exact List.mem_cons_of_mem _ (mentioned_trans elem ht hu)
  | .soa inner, t, u, ht, hu => by
    rw [mentioned] at ht ⊢
    rcases List.mem_cons.mp ht with rfl | ht
    · rwa [mentioned] at hu
    · exact List.mem_cons_of_mem _ (mentioned_trans inner ht hu)
  | .slice _, t, u, ht, hu => by
    obtain rfl := List.mem_singleton.mp ht
    exact hu
  | .tag _, t, u, ht, hu => by
    obtain rfl := List.mem_singleton.mp ht
    exact hu
  | .crib _, t, u, ht, hu => by
    obtain rfl := List.mem_singleton.mp ht
    exact hu
  | .fn _ _, t, u, ht, hu => by
    obtain rfl := List.mem_singleton.mp ht
    exact hu
  | .rawPtr, t, u, ht, hu => by
    obtain rfl := List.mem_singleton.mp ht
    exact hu

theorem mentionedAll_trans : ∀ (tys : List Typ) {t u : Typ}, t ∈ mentionedAll tys →
    u ∈ mentioned t → u ∈ mentionedAll tys
  | [], _, _, ht, _ => nomatch ht
  | ty :: tys, t, u, ht, hu => by
    rw [mentionedAll] at ht ⊢
    rcases List.mem_append.mp ht with ht | ht
    · exact List.mem_append_left _ (mentioned_trans ty ht hu)
    · exact List.mem_append_right _ (mentionedAll_trans tys ht hu)

end

variable (drips : Drips) (ty : Typ) (subst : Subst)

/-- Every type that the zero of a type can come to. -/
def typesBelow : List Typ :=
  mentioned ty ++ subst.flatMap (fun x => mentioned x.2) ++
    drips.flatMap fun d => d.2.fields.flatMap fun fd => mentioned fd.ty

def argsOf : Typ → Option (List Typ)
  | .named _ args => some args
  | _ => none

/-- Every substitution that it can come to: the arguments of a drip are taken as they stand. -/
def substsBelow : List Subst :=
  subst :: [] :: drips.flatMap fun d =>
    ((typesBelow drips ty subst).filterMap argsOf).map (bindParams d.2)

theorem typesBelow_trans {t u : Typ} (ht : t ∈ typesBelow drips ty subst) (hu : u ∈ mentioned t) :
    u ∈ typesBelow drips ty subst := by
  rw [typesBelow, List.mem_append, List.mem_append] at ht ⊢
  rcases ht with (ht | ht) | ht
  · exact .inl (.inl (mentioned_trans ty ht hu))
  · obtain ⟨x, hx, ht⟩ := List.mem_flatMap.mp ht
    exact .inl (.inr (List.mem_flatMap.mpr ⟨x, hx, mentioned_trans x.2 ht hu⟩))
  · obtain ⟨d, hd, ht⟩ := List.mem_flatMap.mp ht
    obtain ⟨fd, hfd, ht⟩ := List.mem_flatMap.mp ht
    exact .inr (List.mem_flatMap.mpr ⟨d, hd, List.mem_flatMap.mpr
      ⟨fd, hfd, mentioned_trans fd.ty ht hu⟩⟩)

theorem mem_of_lookup {α : Type} {l : List (String × α)} {k : String} {v : α}
    (h : l.lookup k = some v) : (k, v) ∈ l := by
  obtain ⟨l₁, l₂, rfl, _⟩ := List.lookup_eq_some_iff.mp h
  exact List.mem_append_right _ (List.mem_cons_self ..)

/-- The types that a substitution gives are among those below. -/
theorem substsBelow_types {σ : Subst} (hσ : σ ∈ substsBelow drips ty subst) {x : String × Typ}
    (hx : x ∈ σ) : x.2 ∈ typesBelow drips ty subst := by
  rcases List.mem_cons.mp hσ with rfl | hσ
  · rw [typesBelow, List.mem_append, List.mem_append]
    exact .inl (.inr (List.mem_flatMap.mpr ⟨x, hx, mentioned_self x.2⟩))
  · rcases List.mem_cons.mp hσ with rfl | hσ
    · cases hx
    · obtain ⟨d, _, hσ⟩ := List.mem_flatMap.mp hσ
      obtain ⟨args, hargs, rfl⟩ := List.mem_map.mp hσ
      obtain ⟨t, ht, hta⟩ := List.mem_filterMap.mp hargs
      have hxa : x.2 ∈ args := (List.of_mem_zip (List.mem_reverse.mp hx)).2
      cases t with
      | named name as =>
        cases hta
        refine typesBelow_trans drips ty subst ht ?_
        rw [mentioned]
        exact List.mem_cons_of_mem _ (mentioned_of_mem_args hxa _ (mentioned_self _))
      | _ => cases hta

def StatesBelow : Set (Typ × Subst) :=
  {x | x.1 ∈ typesBelow drips ty subst ∧ x.2 ∈ substsBelow drips ty subst}

theorem statesBelow_finite : (StatesBelow drips ty subst).Finite := by
  have htypes := List.finite_toSet (typesBelow drips ty subst)
  have hsubsts := List.finite_toSet (substsBelow drips ty subst)
  exact (Set.Finite.prod htypes hsubsts).subset fun x hx => ⟨hx.1, hx.2⟩

theorem statesBelow_closed {x y : Typ × Subst} (hx : x ∈ StatesBelow drips ty subst)
    (hy : y ∈ interpParts drips x) : y ∈ StatesBelow drips ty subst := by
  obtain ⟨t, σ⟩ := x
  obtain ⟨ht, hσ⟩ := hx
  cases t with
  | named name args =>
    simp only [interpParts] at hy
    cases hsub : σ.lookup name with
    | some sub =>
      rw [hsub] at hy
      obtain rfl := List.mem_singleton.mp hy
      refine ⟨substsBelow_types drips ty subst hσ (mem_of_lookup hsub), ?_⟩
      exact List.mem_cons_of_mem _ (List.mem_cons_self ..)
    | none =>
      rw [hsub] at hy
      dsimp only at hy
      split at hy
      · cases hy
      · cases hdrip : drips.lookup name with
        | none =>
          rw [hdrip] at hy
          cases hy
        | some decl =>
          rw [hdrip] at hy
          obtain ⟨fd, hfd, rfl⟩ := List.mem_map.mp hy
          have hmem := mem_of_lookup hdrip
          constructor
          · refine List.mem_append_right _ (List.mem_flatMap.mpr ⟨_, hmem, ?_⟩)
            exact List.mem_flatMap.mpr ⟨fd, hfd, mentioned_self fd.ty⟩
          · refine List.mem_cons_of_mem _ (List.mem_cons_of_mem _ ?_)
            refine List.mem_flatMap.mpr ⟨_, hmem, List.mem_map.mpr ⟨args, ?_, rfl⟩⟩
            exact List.mem_filterMap.mpr ⟨_, ht, rfl⟩
  | array elem n =>
    obtain rfl := List.mem_singleton.mp hy
    refine ⟨typesBelow_trans drips ty subst ht ?_, hσ⟩
    rw [mentioned]
    exact List.mem_cons_of_mem _ (mentioned_self elem)
  | soa inner =>
    obtain rfl := List.mem_singleton.mp hy
    refine ⟨typesBelow_trans drips ty subst ht ?_, hσ⟩
    rw [mentioned]
    exact List.mem_cons_of_mem _ (mentioned_self inner)
  | _ => cases hy

theorem statesBelow_self : (ty, subst) ∈ StatesBelow drips ty subst := by
  refine ⟨?_, List.mem_cons_self ..⟩
  rw [typesBelow, List.mem_append, List.mem_append]
  exact .inl (.inl (mentioned_self ty))

/-- The element chain of an array or a vector. -/
def elements : Ty → List Ty
  | .array elem n => .array elem n :: elements elem
  | .simd elem n => .simd elem n :: elements elem
  | ty => [ty]

theorem elements_self (ty : Ty) : ty ∈ elements ty := by
  cases ty <;> simp [elements]

theorem elements_trans : ∀ (ty : Ty) {t u : Ty}, t ∈ elements ty → u ∈ elements t →
    u ∈ elements ty
  | .array elem n, t, u, ht, hu => by
    rw [elements] at ht ⊢
    rcases List.mem_cons.mp ht with rfl | ht
    · rwa [elements] at hu
    · exact List.mem_cons_of_mem _ (elements_trans elem ht hu)
  | .simd elem n, t, u, ht, hu => by
    rw [elements] at ht ⊢
    rcases List.mem_cons.mp ht with rfl | ht
    · rwa [elements] at hu
    · exact List.mem_cons_of_mem _ (elements_trans elem ht hu)
  | .bool, _, _, ht, hu | .int _ _, _, _, ht, hu | .f32, _, _, ht, hu | .f64, _, _, ht, hu
  | .str, _, _, ht, hu | .void, _, _, ht, hu | .rawPtr, _, _, ht, hu | .struct _, _, _, ht, hu
  | .sum _, _, _, ht, hu | .slice _, _, _, ht, hu | .soa _, _, _, ht, hu | .tag _, _, _, ht, hu
  | .crib _, _, _, ht, hu | .ref _, _, _, ht, hu | .map _ _, _, _, ht, hu | .vec _, _, _, ht, hu
  | .rng, _, _, ht, hu | .fnPtr _ _, _, _, ht, hu | .tuple _, _, _, ht, hu => by
    obtain rfl := List.mem_singleton.mp ht
    exact hu

def irTypesBelow (structs : List StructDef) (ty : Ty) : List Ty :=
  elements ty ++ structs.flatMap fun d => d.fields.flatMap fun f => elements f.ty

theorem irTypesBelow_closed {structs : List StructDef} {ty t u : Ty}
    (ht : t ∈ irTypesBelow structs ty) (hu : u ∈ lowerParts structs t) :
    u ∈ irTypesBelow structs ty := by
  have hsub (h : u ∈ elements t) : u ∈ irTypesBelow structs ty := by
    rw [irTypesBelow, List.mem_append] at ht ⊢
    rcases ht with ht | ht
    · exact .inl (elements_trans ty ht h)
    · obtain ⟨d, hd, ht⟩ := List.mem_flatMap.mp ht
      obtain ⟨f, hf, ht⟩ := List.mem_flatMap.mp ht
      exact .inr (List.mem_flatMap.mpr ⟨d, hd, List.mem_flatMap.mpr ⟨f, hf, elements_trans f.ty ht h⟩⟩)
  cases t with
  | struct sid =>
    rw [lowerParts] at hu
    cases hd : structs[sid]? with
    | none =>
      rw [hd] at hu
      cases hu
    | some d =>
      rw [hd] at hu
      obtain ⟨f, hf, rfl⟩ := List.mem_map.mp hu
      refine List.mem_append_right _ (List.mem_flatMap.mpr ⟨d, List.mem_of_getElem? hd, ?_⟩)
      exact List.mem_flatMap.mpr ⟨f, hf, elements_self f.ty⟩
  | array elem n =>
    obtain rfl := List.mem_singleton.mp hu
    refine hsub ?_
    rw [elements]
    exact List.mem_cons_of_mem _ (elements_self _)
  | simd elem n =>
    obtain rfl := List.mem_singleton.mp hu
    refine hsub ?_
    rw [elements]
    exact List.mem_cons_of_mem _ (elements_self _)
  | _ => cases hu

end Finite

/-- A part by value for the interpreter: a field, an element or a parameter's type, where every part
before it has a zero. -/
def InterpPart (drips : Drips) : Typ × Subst → Typ × Subst → Prop := Reached (interpPlan drips)

/-- A part by value for lowering. -/
def LowerPart (structs : List StructDef) : Ty → Ty → Prop := Reached (lowerPlan structs)

theorem zeroDefault_terminates_iff (drips : Drips) (ty : Typ) (subst : Subst) :
    (∃ n r, zeroDefault drips n ty subst = some r) ↔
      ∀ x, ReflTransGen (InterpPart drips) x (ty, subst) → ¬TransGen (InterpPart drips) x x := by
  simp only [zeroDefault_eq_run]
  rw [terminates_iff, InterpPart]
  exact acc_iff_no_cycle (finite_below (statesBelow_finite drips ty subst)
    (fun _ hx _ hy => statesBelow_closed drips ty subst hx hy) (statesBelow_self drips ty subst))

theorem zeroValue_terminates_iff (structs : List StructDef) (ty : Ty) :
    (∃ n r, zeroValue structs n ty = some r) ↔
      ∀ t, ReflTransGen (LowerPart structs) t ty → ¬TransGen (LowerPart structs) t t := by
  simp only [zeroValue_eq_run]
  rw [terminates_iff, LowerPart]
  exact acc_iff_no_cycle (finite_below (irTypesBelow structs ty).finite_toSet
    (fun _ hx _ hy => irTypesBelow_closed hx hy) (List.mem_append_left _ (elements_self ty)))

/-- A zero value is computed, by both, exactly where no type that it is made of contains itself by
value. -/
theorem zero_terminates_iff (drips : Drips) (structs : List StructDef) (ty : Typ) (subst : Subst)
    (irTy : Ty) :
    (∃ n r, zeroDefault drips n ty subst = some r) ∧ (∃ n r, zeroValue structs n irTy = some r) ↔
      (∀ x, ReflTransGen (InterpPart drips) x (ty, subst) → ¬TransGen (InterpPart drips) x x) ∧
        ∀ t, ReflTransGen (LowerPart structs) t irTy → ¬TransGen (LowerPart structs) t t :=
  and_congr (zeroDefault_terminates_iff drips ty subst) (zeroValue_terminates_iff structs irTy)

/-- `drip A { a: A }`. -/
def selfDrip : DripDecl := ⟨"A", [], [⟨none, "a", .named "A" []⟩]⟩

def selfStruct : StructDef := ⟨"A", [⟨"a", .struct 0, .hush⟩]⟩

/-- Collection accepts it, and neither zero ever comes back. -/
theorem self_drip_never_zero :
    (Collect.collect 1 [.drip selfDrip]).run (Collect.Ctx.new fun _ => 0) =
        (.ok (), { Collect.Ctx.new (fun _ => 0) with
          structs := [("A", 0)], structDefs := [selfStruct] }) ∧
      (∀ n, zeroDefault [("A", selfDrip)] n (.named "A" []) [] = none) ∧
      ∀ n, zeroValue [selfStruct] n (.struct 0) = none := by
  refine ⟨rfl, fun n => ?_, fun n => ?_⟩
  · induction n with
    | zero => rfl
    | succ n ih =>
      show andThen (andThen (zeroDefault [("A", selfDrip)] n (.named "A" []) []) _) _ = none
      rw [ih]
      rfl
  · induction n with
    | zero => rfl
    | succ n ih =>
      show andThen (andThen (zeroValue [selfStruct] n (.struct 0)) _) _ = none
      rw [ih]
      rfl

end BetLang.Zero
