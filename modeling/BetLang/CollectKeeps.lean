import BetLang.Collect

/-! What collection keeps of its state. Mapping a type changes the state only by interning a struct
and, inside a generic drip, by its substitution. -/

namespace BetLang.Collect

open Ir Stateful

/-- The tables that types are resolved in. -/
structure SameScope (c c' : Ctx) : Prop where
  structs : c'.structs = c.structs
  sums : c'.sums = c.sums
  monoStructs : c'.monoStructs = c.monoStructs
  subst : c'.subst = c.subst
  yikesSid : c'.yikesSid = c.yikesSid
  structDefs : c'.structDefs = c.structDefs

def Ctx.internYikes (c : Ctx) : Ctx :=
  { c with structDefs := c.structDefs ++ [yikesDef], yikesSid := some c.structDefs.length }

def Ctx.internMono (c : Ctx) (key : String × List Ty) (d : StructDef) : Ctx :=
  { c with
    structDefs := c.structDefs ++ [d]
    monoStructs := (key, c.structDefs.length) :: c.monoStructs }

/-- A property that collection keeps, its own definitions of drips apart. -/
structure Invariant (P : Ctx → Prop) : Prop where
  yikes : ∀ c, c.yikesSid = none → P c → P c.internYikes
  mono : ∀ c key d, P c → P (c.internMono key d)
  fields : ∀ fuel decl argTys, (∀ t, Keeps P (mapType fuel t)) →
    Keeps P (monoFields (mapType fuel) decl argTys)
  rest : ∀ c c', SameScope c c' → P c → P c'

theorem yikesStruct_run (c : Ctx) :
    yikesStruct.run c =
      match c.yikesSid with
      | some sid => (.ok sid, c)
      | none => (.ok c.structDefs.length, c.internYikes) := by
  rw [yikesStruct, run_bind]
  show (match c.yikesSid with
    | some sid => (pure sid : M Nat)
    | none => _).run c = _
  cases c.yikesSid with
  | some sid => rfl
  | none => rfl

theorem monoFields_run (f : Typ → M Ty) (decl : DripDecl) (argTys : List Ty) (c : Ctx) :
    (monoFields f decl argTys).run c =
      let r := (decl.fields.mapM (mapField f)).run
        { c with subst := (decl.generics.zip argTys).reverse }
      (r.1, { r.2 with subst := c.subst }) := rfl

section Keeps

variable {P : Ctx → Prop}

theorem keeps_message {α : Type} (s : String) : Keeps P (message s : M α) := keeps_fail _

theorem keeps_structDef (sid : Nat) : Keeps P (structDef sid) := by
  refine keeps_bind keeps_get fun c => ?_
  cases c.structDefs[sid]? with
  | some d => exact keeps_pure d
  | none => exact keeps_fail _

theorem keeps_sumDef (sid : Nat) : Keeps P (sumDef sid) := by
  refine keeps_bind keeps_get fun c => ?_
  cases c.sumDefs[sid]? with
  | some d => exact keeps_pure d
  | none => exact keeps_fail _

theorem keeps_mangleTy (t : Ty) : Keeps P (mangleTy t) := by
  fun_induction mangleTy t with
  | case8 sid => exact keeps_bind (keeps_structDef sid) fun d => keeps_pure _
  | case9 sid => exact keeps_bind (keeps_sumDef sid) fun d => keeps_pure _
  | case10 e ih | case12 e ih | case13 e ih | case14 e ih =>
    exact keeps_bind ih fun s => keeps_pure _
  | case11 e n ih => exact keeps_bind ih fun s => keeps_pure _
  | case15 => exact keeps_bind keeps_get fun c => keeps_pure _
  | _ => exact keeps_pure _

theorem keeps_mangle (base : String) (args : List Ty) : Keeps P (mangle base args) :=
  keeps_bind (keeps_mapM fun t _ => keeps_mangleTy t) fun _ => keeps_pure _

theorem keeps_checkSoa (inner : Ty) : Keeps P (checkSoa inner) := by
  unfold checkSoa
  split
  · exact keeps_message _
  · refine keeps_bind (keeps_structDef _) fun d => ?_
    cases d.fields.find? fun f => isSoa f.ty with
    | some f => exact keeps_message _
    | none => exact keeps_pure _
  · exact keeps_message _

theorem keeps_mapField {f : Typ → M Ty} (hf : ∀ t, Keeps P (f t)) (d : FieldDecl) :
    Keeps P (mapField f d) :=
  keeps_bind (hf d.ty) fun _ => keeps_pure _

theorem Invariant.keeps_yikesStruct (hP : Invariant P) : Keeps P yikesStruct := by
  intro c hc
  rw [yikesStruct_run]
  cases hy : c.yikesSid with
  | some sid => exact hc
  | none => exact hP.yikes c hy hc

theorem Invariant.keeps_namedType (hP : Invariant P) (name : String) :
    Keeps P (namedType name) := by
  refine keeps_bind keeps_get fun c => ?_
  cases c.subst.lookup name with
  | some t => exact keeps_pure t
  | none =>
    by_cases hy : name = "yikes"
    · rw [if_pos hy]
      exact keeps_bind hP.keeps_yikesStruct fun sid => keeps_pure _
    · rw [if_neg hy]
      cases plainNamed c name with
      | some t => exact keeps_pure t
      | none => exact keeps_message _

theorem Invariant.keeps_monoStruct (hP : Invariant P) {fuel : Nat}
    (ih : ∀ t, Keeps P (mapType fuel t)) (name : String) (args : List Typ) :
    Keeps P (monoStruct (mapType fuel) name args) := by
  refine keeps_bind (keeps_mapM fun t _ => ih t) fun argTys => ?_
  refine keeps_bind keeps_get fun c => ?_
  cases c.monoStructs.lookup (name, argTys) with
  | some sid => exact keeps_pure sid
  | none =>
    cases c.genericStructs.lookup name with
    | none => exact keeps_message _
    | some decl =>
      dsimp only
      by_cases hlen : decl.generics.length = argTys.length
      · rw [if_pos hlen]
        refine keeps_bind (keeps_mangle name argTys) fun mangled => ?_
        refine keeps_bind (hP.fields fuel decl argTys ih) fun fields => ?_
        exact fun c' hc' => hP.mono c' _ _ hc'
      · rw [if_neg hlen]
        exact keeps_message _

theorem keeps_stashType {f : Typ → M Ty} (hf : ∀ t, Keeps P (f t)) (generics : List Typ) :
    Keeps P (stashType f generics) := by
  unfold stashType
  split
  · exact keeps_bind (hf _) fun k => keeps_bind (hf _) fun v => keeps_pure _
  · exact keeps_message _

theorem keeps_vecType {f : Typ → M Ty} (hf : ∀ t, Keeps P (f t)) (generics : List Typ) :
    Keeps P (vecType f generics) := by
  unfold vecType
  split
  · exact keeps_bind (hf _) fun e => keeps_pure _
  · exact keeps_message _

theorem Invariant.keeps_mapType (hP : Invariant P) (fuel : Nat) (t : Typ) :
    Keeps P (mapType fuel t) := by
  induction fuel generalizing t with
  | zero => exact keeps_fail _
  | succ fuel ih =>
    cases t with
    | slice e | tag e | crib e => exact keeps_bind (ih e) fun ty => keeps_pure _
    | array e n => exact keeps_bind (ih e) fun ty => keeps_pure _
    | soa inner =>
      refine keeps_bind (ih inner) fun ty => ?_
      exact keeps_bind (keeps_checkSoa ty) fun _ => keeps_pure _
    | rawPtr => exact keeps_pure _
    | fn params ret =>
      refine keeps_bind (keeps_mapM fun t _ => ih t) fun ps => ?_
      by_cases hv : ret.isVoid = true
      · rw [if_pos hv]
        exact keeps_pure _
      · rw [if_neg hv]
        exact keeps_bind (ih ret) fun r => keeps_pure _
    | named name generics =>
      rw [mapType]
      by_cases hg : generics.isEmpty = true
      · rw [if_pos hg]
        exact hP.keeps_namedType name
      rw [if_neg hg]
      by_cases hs : name = "stash"
      · rw [if_pos hs]
        exact keeps_stashType ih generics
      rw [if_neg hs]
      by_cases hv : name = "vec"
      · rw [if_pos hv]
        exact keeps_vecType ih generics
      rw [if_neg hv]
      exact keeps_bind (hP.keeps_monoStruct ih name generics) fun sid => keeps_pure _

theorem Invariant.keeps_modify (hP : Invariant P) {f : Ctx → Ctx}
    (hf : ∀ c, SameScope c (f c)) : Keeps P (modify f : M Unit) :=
  fun c hc => hP.rest c (f c) (hf c) hc

theorem Invariant.keeps_retTypes (hP : Invariant P) (fuel : Nat) (r : RetType) :
    Keeps P (retTypes fuel r) := by
  cases r with
  | none => exact keeps_pure _
  | single t => exact keeps_bind (hP.keeps_mapType fuel t) fun ty => keeps_pure _
  | multi ts => exact keeps_mapM fun t _ => hP.keeps_mapType fuel t

theorem keeps_sigType {α : Type} {x : M α} (hx : Keeps P x) : Keeps P (sigType x) := by
  refine keeps_bind (keeps_attempt hx) fun r => ?_
  cases r with
  | ok a => exact keeps_pure _
  | error e =>
    cases e with
    | message s => exact keeps_pure _
    | abort => exact keeps_fail _

theorem Invariant.keeps_variants (hP : Invariant P) (fuel : Nat) (vs : List VariantDecl) :
    Keeps P (mapVariants fuel vs) :=
  keeps_mapM fun _ _ =>
    keeps_bind (keeps_mapM fun t _ => hP.keeps_mapType fuel t) fun _ => keeps_pure _

theorem Invariant.keeps_collectExtern (hP : Invariant P) (fuel : Nat) (i : Item) :
    Keeps P (collectExtern fuel i) := by
  cases i with
  | extern_ e =>
    refine keeps_bind (keeps_mapM fun t _ => hP.keeps_mapType fuel t) fun ps => ?_
    refine keeps_bind (hP.keeps_retTypes fuel e.ret) fun rs => ?_
    exact hP.keeps_modify fun c => ⟨rfl, rfl, rfl, rfl, rfl, rfl⟩
  | _ => exact keeps_pure _

theorem Invariant.keeps_collectFunc (hP : Invariant P) (fuel : Nat) (i : Item) :
    Keeps P (collectFunc fuel i) := by
  cases i with
  | func f =>
    by_cases hg : f.generics.isEmpty = true
    · rw [collectFunc, if_pos hg]
      refine keeps_bind keeps_get fun c => ?_
      refine keeps_bind ?_ fun sig => hP.keeps_modify fun c => ⟨rfl, rfl, rfl, rfl, rfl, rfl⟩
      refine keeps_bind (keeps_mapM fun t _ => keeps_sigType (hP.keeps_mapType fuel t)) fun ps => ?_
      exact keeps_bind (keeps_sigType (hP.keeps_retTypes fuel f.ret)) fun rs => keeps_pure _
    · rw [collectFunc, if_neg hg]
      exact hP.keeps_modify fun c => ⟨rfl, rfl, rfl, rfl, rfl, rfl⟩
  | _ => exact keeps_pure _

theorem Invariant.keeps_collectConst (hP : Invariant P) (fuel : Nat) (i : Item) :
    Keeps P (collectConst fuel i) := by
  cases i with
  | const d =>
    refine keeps_bind ?_ fun hint => ?_
    · cases d.ty with
      | none => exact keeps_pure _
      | some t => exact keeps_bind (hP.keeps_mapType fuel t) fun ty => keeps_pure _
    · cases d.form with
      | literal => exact hP.keeps_modify fun c => ⟨rfl, rfl, rfl, rfl, rfl, rfl⟩
      | negation => exact keeps_message _
      | expr => exact keeps_message _
  | _ => exact keeps_pure _

/-- The steps after the aggregates keep an invariant. -/
theorem Invariant.keeps_signatures (hP : Invariant P) (fuel : Nat) (items : List Item) :
    Keeps P (collectSignatures fuel items) :=
  keeps_bind (keeps_forM fun i _ => hP.keeps_collectExtern fuel i) fun _ =>
    keeps_bind (keeps_forM fun i _ => hP.keeps_collectFunc fuel i) fun _ =>
      keeps_forM fun i _ => hP.keeps_collectConst fuel i

end Keeps

end BetLang.Collect
