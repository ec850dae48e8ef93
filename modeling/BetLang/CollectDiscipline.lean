import BetLang.CollectTypes
import BetLang.Sequencing
import Mathlib.Data.List.Nodup

/-! Struct ids: what the pass hands out by appearance against what it defines. -/

namespace BetLang.Collect

open Ir Registry Stateful

/-- The types whose mapping defines an aggregate. -/
def itemTypes : Item → List Typ
  | .drip d => if d.generics.isEmpty then d.fields.map (·.ty) else []
  | .moods m => m.variants.flatMap (·.payload)
  | _ => []

/-- The types that are mapped before the last concrete drip is defined. -/
def earlyTypes : List Item → List Typ
  | [] => []
  | i :: is => if (i :: is).any (·.concrete.isSome) then itemTypes i ++ earlyTypes is else []

/-- The struct ids handed out: those by appearance, and those of interned structs. -/
def Ctx.handedOut (c : Ctx) : List Nat :=
  c.structs.map Prod.snd ++ c.extraIds

def MapsTo (c : Ctx) (t : Typ) (ty : Ty) : Prop :=
  ∃ fuel, (mapType fuel t).run c = (.ok ty, c)

/-- A definition has a drip's name and its fields, in order. -/
structure Defines (c : Ctx) (d : DripDecl) (s : StructDef) : Prop where
  name : s.name = d.name
  fields : List.Forall₂
    (fun f g => g.name = f.name ∧ g.vis = fieldVis f.vis ∧ MapsTo c f.ty g.ty) d.fields s.fields

structure Discipline (items : List Item) (c : Ctx) : Prop where
  recorded : ∀ name sid, c.structs.lookup name = some sid →
    ∃ d s, (concreteDrips items)[sid]? = some d ∧ d.name = name ∧ c.structDefs[sid]? = some s ∧
      Defines c d s
  distinct : c.handedOut.Nodup
  defined : ∀ sid ∈ c.handedOut, sid < c.structDefs.length

variable {items : List Item} {c c' : Ctx} {fuel : Nat}

theorem concreteDrips_cons (i : Item) (is : List Item) :
    concreteDrips (i :: is) = concreteDrips [i] ++ concreteDrips is := by
  rw [concreteDrips, concreteDrips, concreteDrips, ← List.filterMap_append]
  rfl

theorem concreteDrips_of_none (h : items.any (·.concrete.isSome) = false) :
    concreteDrips items = [] := by
  rw [List.any_eq_false] at h
  rw [concreteDrips, List.filterMap_eq_nil_iff]
  exact fun i hi => Option.not_isSome_iff_eq_none.mp (h i hi)

theorem exists_concrete (h : items.any (·.concrete.isSome) = true) :
    0 < (concreteDrips items).length := by
  obtain ⟨i, hi, hc⟩ := List.any_eq_true.mp h
  obtain ⟨d, hd⟩ := Option.isSome_iff_exists.mp hc
  exact List.length_pos_of_mem (List.mem_filterMap.mpr ⟨i, hi, hd⟩)

theorem concrete_drip {d : DripDecl} (hg : d.generics.isEmpty = true) :
    concreteDrips [.drip d] = [d] := by
  have hd : Item.concrete (.drip d) = some d := if_pos hg
  rw [concreteDrips, List.filterMap_cons_some hd, List.filterMap_nil]

theorem generic_drip {d : DripDecl} (hg : ¬d.generics.isEmpty = true) :
    concreteDrips [.drip d] = [] := by
  have hd : Item.concrete (.drip d) = none := if_neg hg
  rw [concreteDrips, List.filterMap_cons_none hd, List.filterMap_nil]

section Kept

theorem sameScope_sums (c : Ctx) (s : List SumDef) : SameScope c { c with sumDefs := s } :=
  ⟨rfl, rfl, rfl, rfl, rfl, rfl⟩

variable {P : Ctx → Prop}

/-- An item that is no concrete drip keeps an invariant, and a concrete one keeps it until its
definition is added. -/
theorem Invariant.keeps_collectItem (hP : Invariant P)
    (hadd : ∀ c s, P c → P { c with structDefs := c.structDefs ++ [s] }) (i : Item) :
    Keeps P (collectItem fuel i) := by
  cases i with
  | drip d =>
    by_cases hg : d.generics.isEmpty = true
    · rw [collectItem, if_pos hg]
      refine keeps_bind (keeps_mapM fun f _ =>
        keeps_mapField (fun t => hP.keeps_mapType fuel t) f) fun fields => ?_
      exact fun c hc => hadd c _ hc
    · rw [collectItem, if_neg hg]
      exact keeps_pure _
  | moods m =>
    refine keeps_bind (hP.keeps_variants fuel m.variants) fun vs => ?_
    exact hP.keeps_modify fun c => sameScope_sums c _
  | _ => exact keeps_pure _

theorem invariant_grows (base : List StructDef) : Invariant fun c => base <+: c.structDefs := by
  refine .of_same (fun c _ hc => ?_) (fun c _ d hc => ?_) (fun c s hc => hc) fun c c' hs hc => ?_
  · exact hc.trans (List.prefix_append _ _)
  · exact hc.trans (List.prefix_append _ _)
  · rw [hs.structDefs]
    exact hc

theorem invariant_names (structs sums : List (String × Nat)) :
    Invariant fun c => c.structs = structs ∧ c.sums = sums :=
  .of_same (fun _ _ hc => hc) (fun _ _ _ hc => hc) (fun _ _ hc => hc)
    fun _ _ hs hc => ⟨hs.structs.trans hc.1, hs.sums.trans hc.2⟩

theorem invariant_mem (sid : Nat) : Invariant fun c => sid ∈ c.extraIds := by
  refine .of_same (fun c hy hc => ?_) (fun c key d hc => ?_) (fun c s hc => hc)
    fun c c' hs hc => ?_
  · rw [extraIds_internYikes hy]
    exact List.mem_cons_of_mem _ hc
  · exact mem_extraIds_internMono.mpr (Or.inr hc)
  · rw [extraIds_same hs]
    exact hc

/-- Interned ids are distinct positions of the table. -/
def Distinct (c : Ctx) : Prop :=
  c.extraIds.Nodup ∧ ∀ sid ∈ c.extraIds, sid < c.structDefs.length

theorem invariant_distinct : Invariant Distinct := by
  refine .of_same (fun c hy ⟨hn, hlt⟩ => ?_) (fun c key d ⟨hn, hlt⟩ => ?_) (fun c s hc => hc)
    fun c c' hs hc => ?_
  · have hnot : c.structDefs.length ∉ c.extraIds := fun hm => Nat.lt_irrefl _ (hlt _ hm)
    rw [Distinct, extraIds_internYikes hy]
    refine ⟨List.nodup_cons.mpr ⟨hnot, hn⟩, fun sid hsid => ?_⟩
    simp only [Ctx.internYikes, List.length_append, List.length_singleton]
    rcases List.mem_cons.mp hsid with rfl | hsid
    · omega
    · have hlt := hlt sid hsid
      omega
  · have hnot : c.structDefs.length ∉ c.extraIds := fun hm => Nat.lt_irrefl _ (hlt _ hm)
    refine ⟨List.nodup_middle.mpr (List.nodup_cons.mpr ⟨hnot, hn⟩), fun sid hsid => ?_⟩
    simp only [Ctx.internMono, List.length_append, List.length_singleton]
    rcases mem_extraIds_internMono.mp hsid with rfl | hsid
    · omega
    · have hlt := hlt sid hsid
      omega
  · rw [Distinct, extraIds_same hs, hs.structDefs]
    exact hc

/-- The ids interned since a state are positions from `n` on. -/
def FreshFrom (n : Nat) (old : List Nat) (c : Ctx) : Prop :=
  n ≤ c.structDefs.length ∧ ∀ sid ∈ c.extraIds, sid ∈ old ∨ n ≤ sid

theorem invariant_fresh (n : Nat) (old : List Nat) : Invariant (FreshFrom n old) := by
  refine .of_same (fun c hy ⟨hlen, hfresh⟩ => ?_) (fun c key d ⟨hlen, hfresh⟩ => ?_)
    (fun c s hc => hc) fun c c' hs hc => ?_
  · refine ⟨by simp [Ctx.internYikes]; omega, fun sid hsid => ?_⟩
    rw [extraIds_internYikes hy] at hsid
    rcases List.mem_cons.mp hsid with rfl | hsid
    · exact Or.inr hlen
    · exact hfresh sid hsid
  · refine ⟨by simp [Ctx.internMono]; omega, fun sid hsid => ?_⟩
    rcases mem_extraIds_internMono.mp hsid with rfl | hsid
    · exact Or.inr hlen
    · exact hfresh sid hsid
  · rw [FreshFrom, extraIds_same hs, hs.structDefs]
    exact hc

/-- Either nothing is interned and `n` drips are defined, or some id up to `n` is taken. -/
def Shift (n : Nat) (c : Ctx) : Prop :=
  (c.extraIds = [] ∧ c.structDefs.length = n) ∨ ∃ sid ∈ c.extraIds, sid ≤ n

theorem invariant_shift (n : Nat) : Invariant (Shift n) := by
  refine .of_same (fun c hy hc => Or.inr ?_) (fun c key d hc => Or.inr ?_) (fun c s hc => hc)
    fun c c' hs hc => ?_
  · rw [extraIds_internYikes hy]
    rcases hc with ⟨_, hlen⟩ | ⟨sid, hsid, hle⟩
    · exact ⟨_, List.mem_cons_self, Nat.le_of_eq hlen⟩
    · exact ⟨sid, List.mem_cons_of_mem _ hsid, hle⟩
  · rcases hc with ⟨_, hlen⟩ | ⟨sid, hsid, hle⟩
    · exact ⟨_, mem_extraIds_internMono.mpr (Or.inl rfl), Nat.le_of_eq hlen⟩
    · exact ⟨sid, mem_extraIds_internMono.mpr (Or.inr hsid), hle⟩
  · rw [Shift, extraIds_same hs, hs.structDefs]
    exact hc

end Kept

/-- What a successful computation keeps. -/
theorem kept {α : Type} {P : Ctx → Prop} {x : M α} {a : α} (hx : Keeps P x)
    (h : x.run c = (.ok a, c')) (hc : P c) : P c' := by
  have hkeep := hx c hc
  rw [h] at hkeep
  exact hkeep

theorem collectItem_drip {d : DripDecl} (hg : d.generics.isEmpty = true)
    (h : (collectItem fuel (.drip d)).run c = (.ok (), c')) :
    ∃ fields c₁, (d.fields.mapM (mapField (mapType fuel))).run c = (.ok fields, c₁) ∧
      c' = { c₁ with structDefs := c₁.structDefs ++ [{ name := d.name, fields := fields }] } := by
  rw [collectItem, if_pos hg] at h
  obtain ⟨fields, c₁, hfields, h⟩ := bind_ok.mp h
  exact ⟨fields, c₁, hfields, (congrArg Prod.snd h).symm⟩

section Broken

theorem interns_fields {d : DripDecl} (h : ∃ f ∈ d.fields, f.ty.interns = true) :
    Interns (d.fields.mapM (mapField (mapType fuel))) := by
  obtain ⟨f, hf, hi⟩ := h
  refine interns_mapM hf (interns_left (interns_mapType fuel hi) fun ty => keeps_pure _) ?_ ?_
  · exact keeps_mapField fun t => (invariant_subst []).keeps_mapType fuel t
  · exact keeps_mapField fun t => invariant_extra.keeps_mapType fuel t

theorem interns_variants {vs : List VariantDecl}
    (h : ∃ v ∈ vs, ∃ t ∈ v.payload, t.interns = true) : Interns (mapVariants fuel vs) := by
  obtain ⟨v, hv, t, ht, hi⟩ := h
  have hs : ∀ t, Keeps (fun c => c.subst = []) (mapType fuel t) :=
    fun t => (invariant_subst []).keeps_mapType fuel t
  have he : ∀ t, Keeps (fun c => c.extraIds ≠ []) (mapType fuel t) :=
    fun t => invariant_extra.keeps_mapType fuel t
  refine interns_mapM hv ?_ (fun v => ?_) fun v => ?_
  · exact interns_left (interns_mapM ht (interns_mapType fuel hi) hs he) fun ts => keeps_pure _
  · exact keeps_bind (keeps_mapM fun t _ => hs t) fun ts => keeps_pure _
  · exact keeps_bind (keeps_mapM fun t _ => he t) fun ts => keeps_pure _

theorem Shift.taken {n : Nat} (hs : Shift n c) (hne : c.extraIds ≠ []) :
    ∃ sid ∈ c.extraIds, sid ≤ n :=
  hs.resolve_left fun h => hne h.1

/-- One item: how many drips are defined, and what its own types take. -/
theorem shift_item {n : Nat} {i : Item} (hs : Shift n c) (hc : c.subst = [])
    (h : (collectItem fuel i).run c = (.ok (), c')) :
    Shift (n + (concreteDrips [i]).length) c' ∧
      ((∃ t ∈ itemTypes i, t.interns = true) → ∃ sid ∈ c'.extraIds, sid ≤ n) := by
  cases i with
  | drip d =>
    by_cases hg : d.generics.isEmpty = true
    · obtain ⟨fields, c₁, hfields, rfl⟩ := collectItem_drip hg h
      have hshift : Shift n c₁ := kept (keeps_mapM fun f _ =>
        keeps_mapField (fun t => (invariant_shift n).keeps_mapType fuel t) f) hfields hs
      constructor
      · rw [concrete_drip hg]
        rcases hshift with ⟨hnil, hn⟩ | ⟨sid, hsid, hle⟩
        · exact Or.inl ⟨hnil, by simp [hn]⟩
        · exact Or.inr ⟨sid, hsid, by omega⟩
      · rintro ⟨t, ht, hi⟩
        rw [itemTypes, if_pos hg] at ht
        obtain ⟨f, hf, rfl⟩ := List.mem_map.mp ht
        exact hshift.taken (interns_fields ⟨f, hf, hi⟩ c hc fields c₁ hfields)
    · rw [collectItem, if_neg hg] at h
      cases h
      refine ⟨by rw [generic_drip hg]; exact hs, ?_⟩
      rintro ⟨t, ht, _⟩
      rw [itemTypes, if_neg hg] at ht
      cases ht
  | moods m =>
    obtain ⟨vs, c₁, hvs, h⟩ := bind_ok.mp h
    have hc' : c' = { c₁ with
        sumDefs := c₁.sumDefs ++ [{ name := m.name, variants := vs }] } :=
      (congrArg Prod.snd h).symm
    have hshift : Shift n c₁ := kept ((invariant_shift n).keeps_variants fuel _) hvs hs
    subst hc'
    refine ⟨hshift, ?_⟩
    rintro ⟨t, ht, hi⟩
    obtain ⟨v, hv, ht⟩ := List.mem_flatMap.mp ht
    exact hshift.taken (interns_variants ⟨v, hv, t, ht, hi⟩ c hc vs c₁ hvs)
  | _ =>
    cases h
    refine ⟨hs, ?_⟩
    rintro ⟨t, ht, _⟩
    cases ht

theorem keeps_items {P : Ctx → Prop} (hP : Invariant P)
    (hadd : ∀ c s, P c → P { c with structDefs := c.structDefs ++ [s] }) (is : List Item) :
    Keeps P (is.forM (collectItem fuel)) :=
  keeps_forM fun i _ => hP.keeps_collectItem hadd i

/-- A type that interns a struct before the last concrete drip takes an id of a drip. -/
theorem taken_of_interns {n : Nat} {t : Typ} (hs : Shift n c) (hc : c.subst = [])
    (h : (items.forM (collectItem fuel)).run c = (.ok (), c')) (ht : t ∈ earlyTypes items)
    (hi : t.interns = true) :
    ∃ sid ∈ c'.extraIds, sid < n + (concreteDrips items).length := by
  induction items generalizing c n with
  | nil => cases ht
  | cons i is ih =>
    by_cases hany : (i :: is).any (·.concrete.isSome) = true
    · rw [earlyTypes, if_pos hany] at ht
      obtain ⟨_, c₁, hitem, hrest⟩ := bind_ok.mp h
      obtain ⟨hs₁, htaken⟩ := shift_item hs hc hitem
      have hc₁ : c₁.subst = [] := kept ((invariant_subst []).keeps_collectItem (fun _ _ hc => hc) i) hitem hc
      rw [concreteDrips_cons, List.length_append]
      rcases List.mem_append.mp ht with ht | ht
      · obtain ⟨sid, hsid, hle⟩ := htaken ⟨t, ht, hi⟩
        have hpos := exists_concrete hany
        rw [concreteDrips_cons, List.length_append] at hpos
        exact ⟨sid, kept (keeps_items (invariant_mem sid) (fun _ _ hc => hc) is) hrest hsid,
          by omega⟩
      · obtain ⟨sid, hsid, hlt⟩ := ih hs₁ hc₁ hrest ht
        exact ⟨sid, hsid, by omega⟩
    · rw [earlyTypes, if_neg hany] at ht
      cases ht

end Broken

section Sound

theorem later_of_run {x : M Unit} (hx : ∀ {P : Ctx → Prop}, Invariant P →
      (∀ c s, P c → P { c with structDefs := c.structDefs ++ [s] }) → Keeps P x)
    (hc : c.subst = []) (h : x.run c = (.ok (), c')) : Later c c' := by
  obtain ⟨hstructs, hsums⟩ :=
    kept (hx (invariant_names c.structs c.sums) fun _ _ hc => hc) h ⟨rfl, rfl⟩
  exact ⟨hstructs, hsums, kept (hx (invariant_subst []) fun _ _ hc => hc) h hc,
    kept (hx (invariant_grows c.structDefs) fun _ s hc => hc.trans (List.prefix_append _ [s])) h
      (List.prefix_refl _)⟩

theorem Later.trans {c₁ c₂ c₃ : Ctx} (h : Later c₁ c₂) (h' : Later c₂ c₃) : Later c₁ c₃ :=
  ⟨h'.structs.trans h.structs, h'.sums.trans h.sums, h'.subst, h.structDefs.trans h'.structDefs⟩

theorem plain_fields {d : DripDecl} (hd : ∀ f ∈ d.fields, f.ty.interns = false)
    {fields : List Field} {c₁ : Ctx} (hc : c.subst = [])
    (h : (d.fields.mapM (mapField (mapType fuel))).run c = (.ok fields, c₁)) :
    c₁ = c ∧ List.Forall₂ (fun f g => g.name = f.name ∧ g.vis = fieldVis f.vis ∧
      ∀ c₂, Later c c₂ → MapsTo c₂ f.ty g.ty) d.fields fields := by
  generalize d.fields = fs at hd h
  induction fs generalizing c₁ fields with
  | nil =>
    cases h
    exact ⟨rfl, .nil⟩
  | cons f fs ih =>
    rw [List.mapM_cons] at h
    obtain ⟨g, c₂, hg, h⟩ := bind_ok.mp h
    obtain ⟨gs, c₃, hgs, h⟩ := bind_ok.mp h
    cases h
    obtain ⟨ty, c₄, hty, hg⟩ := bind_ok.mp hg
    cases hg
    obtain ⟨rfl, hlater⟩ := plain_mapType fuel (hd f List.mem_cons_self) c hc _ _ hty
    obtain ⟨rfl, hrest⟩ := ih (fun x hx => hd x (List.mem_cons_of_mem _ hx)) hgs
    exact ⟨rfl, .cons ⟨rfl, rfl, fun c₂ h₂ => ⟨fuel, hlater c₂ h₂⟩⟩ hrest⟩

theorem plain_variants {vs : List VariantDecl}
    (hv : ∀ v ∈ vs, ∀ t ∈ v.payload, t.interns = false) : Plain (mapVariants fuel vs) :=
  plain_mapM fun v hmem =>
    plain_bind (plain_mapM fun t ht => plain_mapType fuel (hv v hmem t ht)) fun _ => plain_pure _

/-- An item whose types intern nothing defines its drip, if it is one, and interns nothing. -/
theorem plain_item {i : Item} (hc : c.subst = []) (hi : ∀ t ∈ itemTypes i, t.interns = false)
    (h : (collectItem fuel i).run c = (.ok (), c')) :
    c'.extraIds = c.extraIds ∧ ∃ defs, c'.structDefs = c.structDefs ++ defs ∧
      List.Forall₂ (fun d s => ∀ c₂, Later c c₂ → Defines c₂ d s) (concreteDrips [i]) defs := by
  cases i with
  | drip d =>
    by_cases hg : d.generics.isEmpty = true
    · obtain ⟨fields, c₁, hfields, rfl⟩ := collectItem_drip hg h
      have hd : ∀ f ∈ d.fields, f.ty.interns = false := by
        intro f hf
        refine hi f.ty ?_
        rw [itemTypes, if_pos hg]
        exact List.mem_map_of_mem hf
      obtain ⟨rfl, hall⟩ := plain_fields hd hc hfields
      refine ⟨rfl, _, rfl, ?_⟩
      rw [concrete_drip hg]
      refine .cons (fun c₂ h₂ => ⟨rfl, ?_⟩) .nil
      exact hall.imp fun f g ⟨hname, hvis, hty⟩ => ⟨hname, hvis, hty c₂ h₂⟩
    · rw [collectItem, if_neg hg] at h
      cases h
      rw [generic_drip hg]
      exact ⟨rfl, [], (List.append_nil _).symm, .nil⟩
  | moods m =>
    obtain ⟨vs, c₁, hvs, hadd⟩ := bind_ok.mp h
    have hplain : Plain (mapVariants fuel m.variants) :=
      plain_variants fun v hv t ht => hi t (List.mem_flatMap.mpr ⟨v, hv, ht⟩)
    obtain ⟨rfl, _⟩ := hplain c hc vs c₁ hvs
    cases hadd
    exact ⟨rfl, [], (List.append_nil _).symm, .nil⟩
  | _ =>
    cases h
    exact ⟨rfl, [], (List.append_nil _).symm, .nil⟩

/-- Without early interning the table starts with the drips in order, and ids come after them. -/
theorem defined_of_plain (hc : c.subst = [])
    (h : (items.forM (collectItem fuel)).run c = (.ok (), c'))
    (hplain : ∀ t ∈ earlyTypes items, t.interns = false) :
    FreshFrom (c.structDefs.length + (concreteDrips items).length) c.extraIds c' ∧
      ∃ defs, c.structDefs ++ defs <+: c'.structDefs ∧
        List.Forall₂ (fun d s => ∀ c₂, Later c' c₂ → Defines c₂ d s) (concreteDrips items) defs := by
  induction items generalizing c with
  | nil =>
    cases h
    exact ⟨⟨Nat.le_refl _, fun sid hsid => Or.inl hsid⟩, [], by simp, .nil⟩
  | cons i is ih =>
    by_cases hany : (i :: is).any (·.concrete.isSome) = true
    · rw [earlyTypes, if_pos hany] at hplain
      obtain ⟨_, c₁, hitem, hrest⟩ := bind_ok.mp h
      obtain ⟨hextra, defs, hdefs, hall⟩ :=
        plain_item hc (fun t ht => hplain t (List.mem_append_left _ ht)) hitem
      have hlater : Later c c₁ :=
        later_of_run (fun hP hadd => hP.keeps_collectItem hadd i) hc hitem
      obtain ⟨hfresh, defs', hprefix, hall'⟩ :=
        ih hlater.subst hrest fun t ht => hplain t (List.mem_append_right _ ht)
      have hlater' : Later c₁ c' :=
        later_of_run (fun hP hadd => keeps_items hP hadd is) hlater.subst hrest
      rw [hdefs] at hprefix
      rw [hextra, hdefs, List.length_append, ← hall.length_eq] at hfresh
      rw [concreteDrips_cons, List.length_append, ← Nat.add_assoc]
      refine ⟨hfresh, defs ++ defs', by rwa [← List.append_assoc], ?_⟩
      refine List.rel_append ?_ hall'
      exact hall.imp fun d s hd c₂ h₂ => hd c₂ ((hlater.trans hlater').trans h₂)
    · have hnone := concreteDrips_of_none (Bool.eq_false_iff.mpr hany)
      rw [hnone, List.length_nil, Nat.add_zero]
      refine ⟨?_, [], ?_, .nil⟩
      · refine kept (keeps_items (invariant_fresh _ _) (fun c s hc => ?_) (i :: is)) h
          ⟨Nat.le_refl _, fun sid hsid => Or.inl hsid⟩
        exact ⟨by simp; have := hc.1; omega, hc.2⟩
      · rw [List.append_nil]
        exact kept (keeps_items (invariant_grows _)
          (fun _ s hc => hc.trans (List.prefix_append _ [s])) (i :: is)) h (List.prefix_refl _)

end Sound

/-- The state after the ids by appearance. -/
def Ctx.assigned (tyNumber : Ty → Nat) (items : List Item) : Ctx :=
  ((assignIds items).run (Ctx.new tyNumber)).2

theorem assigned_structs (tyNumber : Ty → Nat) (items : List Item) :
    (Ctx.assigned tyNumber items).structs =
      insertAll (fun d => some d.name) (concreteDrips items) := rfl

/-- The ids handed out in the end: one for each drip, and those of interned structs. -/
theorem handedOut_assigned {tyNumber : Ty → Nat}
    (h : c.structs = (Ctx.assigned tyNumber items).structs) :
    c.handedOut = (List.range (concreteDrips items).length).reverse ++ c.extraIds := by
  rw [Ctx.handedOut, h, assigned_structs, insertAll_positions]

theorem discipline_of_plain {tyNumber : Ty → Nat} {c₁ : Ctx}
    (hitems : (items.forM (collectItem fuel)).run (Ctx.assigned tyNumber items) = (.ok (), c₁))
    (hsigs : (collectSignatures fuel items).run c₁ = (.ok (), c))
    (hplain : ∀ t ∈ earlyTypes items, t.interns = false) : Discipline items c := by
  have hstart : (Ctx.assigned tyNumber items).subst = [] := rfl
  have hlater₁ : Later (Ctx.assigned tyNumber items) c₁ :=
    later_of_run (fun hP hadd => keeps_items hP hadd items) hstart hitems
  have hlater : Later c₁ c :=
    later_of_run (fun hP _ => hP.keeps_signatures fuel items) hlater₁.subst hsigs
  have hstructs := hlater.structs.trans hlater₁.structs
  obtain ⟨hfresh₁, defs, hprefix, hall⟩ := defined_of_plain hstart hitems hplain
  have hdefs : defs <+: c.structDefs := hprefix.trans hlater.structDefs
  have hlen : (concreteDrips items).length ≤ c.structDefs.length :=
    hall.length_eq ▸ hdefs.length_le
  have hfresh := kept ((invariant_fresh _ _).keeps_signatures fuel items) hsigs hfresh₁
  have hdistinct₁ : Distinct c₁ := by
    refine kept (keeps_items invariant_distinct (fun c s hc => ⟨hc.1, fun sid hsid => ?_⟩) items)
      hitems ⟨List.nodup_nil, fun sid hsid => absurd hsid List.not_mem_nil⟩
    have hlt := hc.2 sid hsid
    simp only [List.length_append, List.length_singleton]
    omega
  have hdistinct := kept (invariant_distinct.keeps_signatures fuel items) hsigs hdistinct₁
  refine ⟨fun name sid hname => ?_, ?_, fun sid hsid => ?_⟩
  · rw [hstructs, assigned_structs, lookup_insertAll] at hname
    obtain ⟨⟨d, hd, hdname⟩, _⟩ := hname
    obtain ⟨s, hs, hdef⟩ : ∃ s, defs[sid]? = some s ∧ ∀ c₂, Later c₁ c₂ → Defines c₂ d s :=
      forall₂_getElem? hall hd
    obtain ⟨rest, hrest⟩ := hdefs
    refine ⟨d, s, hd, Option.some.inj hdname, ?_, hdef c hlater⟩
    rw [← hrest, List.getElem?_append_left (List.getElem?_eq_some_iff.mp hs).1, hs]
  · rw [handedOut_assigned hstructs, List.nodup_append]
    refine ⟨List.nodup_reverse.mpr List.nodup_range, hdistinct.1, ?_⟩
    rintro sid hsid sid' hsid' rfl
    rw [List.mem_reverse, List.mem_range] at hsid
    rcases hfresh.2 sid hsid' with hold | hle
    · exact absurd hold List.not_mem_nil
    · have hzero : (Ctx.assigned tyNumber items).structDefs.length = 0 := rfl
      omega
  · rw [handedOut_assigned hstructs] at hsid
    rcases List.mem_append.mp hsid with hsid | hsid
    · rw [List.mem_reverse, List.mem_range] at hsid
      omega
    · exact hdistinct.2 sid hsid

/-- Every id of a drip has the drip's definition, and no id is handed out twice, exactly when no
type mapped before the last drip is defined interns a struct. -/
theorem collect_discipline_iff (tyNumber : Ty → Nat) (items : List Item) (fuel : Nat) (c : Ctx)
    (h : (collect fuel items).run (Ctx.new tyNumber) = (.ok (), c)) :
    Discipline items c ↔ ∀ t ∈ earlyTypes items, t.interns = false := by
  obtain ⟨_, c₀, hassign, h⟩ := bind_ok.mp h
  obtain ⟨_, c₁, hitems, hsigs⟩ := bind_ok.mp h
  obtain rfl : Ctx.assigned tyNumber items = c₀ := congrArg Prod.snd hassign
  constructor
  · intro hd t ht
    by_contra hi
    rw [Bool.not_eq_false] at hi
    obtain ⟨sid, hsid, hlt⟩ := taken_of_interns (n := 0) (Or.inl ⟨rfl, rfl⟩) rfl hitems ht hi
    have hsid := kept ((invariant_mem sid).keeps_signatures fuel items) hsigs hsid
    have hstructs : c.structs = (Ctx.assigned tyNumber items).structs := by
      have hnames₁ := kept (keeps_items (invariant_names (Ctx.assigned tyNumber items).structs
        (Ctx.assigned tyNumber items).sums) (fun _ _ hc => hc) items) hitems ⟨rfl, rfl⟩
      exact (kept ((invariant_names _ _).keeps_signatures fuel items) hsigs hnames₁).1
    have hnodup := hd.distinct
    rw [handedOut_assigned hstructs, List.nodup_append] at hnodup
    refine hnodup.2.2 sid ?_ sid hsid rfl
    rw [List.mem_reverse, List.mem_range]
    omega
  · exact discipline_of_plain hitems hsigs

def field (name : String) (ty : Typ) : FieldDecl :=
  { vis := none, name := name, ty := ty }

/-- A generic drip, a drip, moods over `yikes` and a function over an instance. -/
def lateInstances : List Item :=
  [.drip { name := "Pair", generics := ["T"], fields := [field "fst" (.named "T" [])] },
    .drip { name := "A", generics := [], fields := [field "x" (.named "int" [])] },
    .moods { name := "M", variants := [{ name := "Oops", payload := [.named "yikes" []] }] },
    .func {
      receiver := none, name := "f", generics := [],
      params := [.named "Pair" [.named "int" []]], ret := .none}]

theorem lateInstances_discipline :
    Discipline lateInstances ((collect 3 lateInstances).run (Ctx.new fun _ => 0)).2 :=
  (collect_discipline_iff (fun _ => 0) lateInstances 3 _ rfl).mpr (by decide)

/-- `drip A { e: yikes }`. -/
def yikesField : List Item :=
  [.drip { name := "A", generics := [], fields := [field "e" (.named "yikes" [])] }]

/-- The id of `A` is the id of the error struct. -/
theorem yikesField_shifts :
    ∃ c, (collect 2 yikesField).run (Ctx.new fun _ => 0) = (.ok (), c) ∧
      c.structs.lookup "A" = some 0 ∧ c.structDefs[0]? = some yikesDef ∧
      c.yikesSid = some 0 ∧ ¬Discipline yikesField c := by
  refine ⟨_, rfl, rfl, rfl, rfl, fun hd => ?_⟩
  exact absurd hd.distinct (by decide)

end BetLang.Collect
