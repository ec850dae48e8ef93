import BetLang.CollectKeeps

/-! Which types intern a struct when they are mapped, and which are read off the tables. -/

namespace BetLang.Collect

open Ir Stateful

mutual

/-- A type that mentions `yikes` or an instance of a generic drip. -/
def Typ.interns : Typ → Bool
  | .slice e | .array e _ | .tag e | .crib e | .soa e => e.interns
  | .rawPtr => false
  | .fn params ret => anyInterns params || (!ret.isVoid && ret.interns)
  | .named name generics =>
    if generics.isEmpty then name = "yikes"
    else if name = "stash" || name = "vec" then anyInterns generics
    else true

def anyInterns : List Typ → Bool
  | [] => false
  | t :: ts => t.interns || anyInterns ts

end

theorem anyInterns_iff {ts : List Typ} : anyInterns ts = true ↔ ∃ t ∈ ts, t.interns = true := by
  induction ts with
  | nil => simp [anyInterns]
  | cons t ts ih => simp [anyInterns, ih]

/-- The ids of the structs interned while mapping types. -/
def Ctx.extraIds (c : Ctx) : List Nat :=
  c.yikesSid.toList ++ c.monoStructs.map Prod.snd

theorem extraIds_internYikes {c : Ctx} (hy : c.yikesSid = none) :
    c.internYikes.extraIds = c.structDefs.length :: c.extraIds := by
  simp [Ctx.extraIds, Ctx.internYikes, hy]

theorem mem_extraIds_internMono {c : Ctx} {key : String × List Ty} {d : StructDef} {sid : Nat} :
    sid ∈ (c.internMono key d).extraIds ↔ sid = c.structDefs.length ∨ sid ∈ c.extraIds := by
  simp only [Ctx.extraIds, Ctx.internMono, List.map_cons, List.mem_append, List.mem_cons]
  tauto

/-- A property that does not depend on the substitution is kept where it is set and restored. -/
theorem Invariant.of_same {P : Ctx → Prop}
    (hy : ∀ c, c.yikesSid = none → P c → P c.internYikes)
    (hm : ∀ c key d, P c → P (c.internMono key d))
    (hs : ∀ c s, P c → P { c with subst := s }) (hr : ∀ c c', SameScope c c' → P c → P c') :
    Invariant P where
  yikes := hy
  mono := hm
  rest := hr
  fields fuel decl argTys ih c hc := by
    rw [monoFields_run]
    exact hs _ _ (keeps_mapM (fun d _ => keeps_mapField ih d) _ (hs c _ hc))

section Interned

/-- What later states agree on with an earlier one, outside generic drips. -/
structure Later (c c' : Ctx) : Prop where
  structs : c'.structs = c.structs
  sums : c'.sums = c.sums
  subst : c'.subst = []
  structDefs : c.structDefs <+: c'.structDefs

/-- A computation that reads the tables only, and what no later state changes. -/
def Plain {α : Type} (x : M α) : Prop :=
  ∀ c, c.subst = [] → ∀ a c', x.run c = (.ok a, c') →
    c' = c ∧ ∀ c₂, Later c c₂ → x.run c₂ = (.ok a, c₂)

variable {α β : Type}

theorem plain_pure (a : α) : Plain (pure a : M α) := by
  intro c _ b c' h
  cases h
  exact ⟨rfl, fun _ _ => rfl⟩

theorem plain_message (s : String) : Plain (message s : M α) := by
  intro c _ b c' h
  cases h

theorem plain_bind {x : M α} {f : α → M β} (hx : Plain x) (hf : ∀ a, Plain (f a)) :
    Plain (x >>= f) := by
  intro c hc b c' h
  obtain ⟨a, c₁, hxa, hfb⟩ := bind_ok.mp h
  obtain ⟨rfl, hlater⟩ := hx c hc a c₁ hxa
  obtain ⟨rfl, hlater'⟩ := hf a c₁ hc b c' hfb
  exact ⟨rfl, fun c₂ h₂ => bind_ok.mpr ⟨a, c₂, hlater c₂ h₂, hlater' c₂ h₂⟩⟩

theorem plain_mapM {f : α → M β} {as : List α} (hf : ∀ a ∈ as, Plain (f a)) :
    Plain (as.mapM f) := by
  induction as with
  | nil => exact plain_pure []
  | cons a as ih =>
    rw [List.mapM_cons]
    refine plain_bind (hf a List.mem_cons_self) fun b => ?_
    exact plain_bind (ih fun x hx => hf x (List.mem_cons_of_mem _ hx)) fun bs => plain_pure _

theorem structDef_run (sid : Nat) (c : Ctx) :
    (structDef sid).run c =
      match c.structDefs[sid]? with
      | some d => (.ok d, c)
      | none => (.error .abort, c) := by
  rw [structDef, run_bind]
  show (match c.structDefs[sid]? with
    | some d => (pure d : M StructDef)
    | none => fail .abort).run c = _
  cases c.structDefs[sid]? with
  | some d => rfl
  | none => rfl

theorem plain_structDef (sid : Nat) : Plain (structDef sid) := by
  intro c _ d c' h
  rw [structDef_run] at h
  cases hd : c.structDefs[sid]? with
  | none =>
    rw [hd] at h
    cases h
  | some d' =>
    rw [hd] at h
    cases h
    refine ⟨rfl, fun c₂ h₂ => ?_⟩
    obtain ⟨rest, hrest⟩ := h₂.structDefs
    have hlt := (List.getElem?_eq_some_iff.mp hd).1
    rw [structDef_run, ← hrest, List.getElem?_append_left hlt, hd]

theorem plain_checkSoa (inner : Ty) : Plain (checkSoa inner) := by
  unfold checkSoa
  split
  · exact plain_message _
  · refine plain_bind (plain_structDef _) fun d => ?_
    cases d.fields.find? fun f => isSoa f.ty with
    | some f => exact plain_message _
    | none => exact plain_pure _
  · exact plain_message _

theorem plainNamed_later {c c₂ : Ctx} (h : Later c c₂) (hc : c.subst = []) (name : String) :
    plainNamed c₂ name = plainNamed c name := by
  simp only [plainNamed, simdElem, h.structs, h.sums, h.subst, hc]

theorem namedType_run {c : Ctx} (hc : c.subst = []) {name : String} (hy : name ≠ "yikes") :
    (namedType name).run c =
      match plainNamed c name with
      | some t => (.ok t, c)
      | none => (message s!"unknown type `{name}`").run c := by
  rw [namedType, run_bind]
  show (match c.subst.lookup name with
    | some t => (pure t : M Ty)
    | none => _).run c = _
  rw [hc, List.lookup_nil]
  dsimp only
  rw [if_neg hy]
  cases plainNamed c name with
  | some t => rfl
  | none => rfl

theorem plain_namedType {name : String} (hy : name ≠ "yikes") : Plain (namedType name) := by
  intro c hc t c' h
  rw [namedType_run hc hy] at h
  cases hn : plainNamed c name with
  | none =>
    rw [hn] at h
    cases h
  | some t' =>
    rw [hn] at h
    cases h
    refine ⟨rfl, fun c₂ h₂ => ?_⟩
    rw [namedType_run h₂.subst hy, plainNamed_later h₂ hc, hn]

theorem plain_fail (e : Fail) : Plain (fail e : M α) := by
  intro c _ b c' h
  cases h

/-- A type that interns nothing is read off the tables. -/
theorem plain_mapType (fuel : Nat) {t : Typ} (ht : t.interns = false) :
    Plain (mapType fuel t) := by
  induction fuel generalizing t with
  | zero => exact plain_fail _
  | succ fuel ih =>
    have hall : ∀ ts, anyInterns ts = false → ∀ t ∈ ts, Plain (mapType fuel t) := by
      intro ts hts t hmem
      refine ih (Bool.eq_false_iff.mpr fun hi => ?_)
      rw [anyInterns_iff.mpr ⟨t, hmem, hi⟩] at hts
      cases hts
    cases t with
    | slice e | tag e | crib e => exact plain_bind (ih ht) fun ty => plain_pure _
    | array e n => exact plain_bind (ih ht) fun ty => plain_pure _
    | soa inner =>
      refine plain_bind (ih ht) fun ty => ?_
      exact plain_bind (plain_checkSoa ty) fun _ => plain_pure _
    | rawPtr => exact plain_pure _
    | fn params ret =>
      rw [Typ.interns, Bool.or_eq_false_iff, Bool.and_eq_false_iff] at ht
      refine plain_bind (plain_mapM (hall params ht.1)) fun ps => ?_
      by_cases hv : ret.isVoid = true
      · rw [if_pos hv]
        exact plain_pure _
      · rw [if_neg hv]
        refine plain_bind (ih ?_) fun r => plain_pure _
        exact ht.2.resolve_left (by simpa using hv)
    | named name generics =>
      rw [Typ.interns] at ht
      rw [mapType]
      by_cases hg : generics.isEmpty = true
      · rw [if_pos hg] at ht ⊢
        exact plain_namedType (of_decide_eq_false ht)
      rw [if_neg hg] at ht ⊢
      by_cases hs : name = "stash"
      · rw [if_pos (by simp [hs])] at ht
        rw [if_pos hs]
        unfold stashType
        split
        · refine plain_bind (hall _ ht _ (by simp)) fun k => ?_
          exact plain_bind (hall _ ht _ (by simp)) fun v => plain_pure _
        · exact plain_message _
      rw [if_neg hs]
      by_cases hv : name = "vec"
      · rw [if_pos (by simp [hv])] at ht
        rw [if_pos hv]
        unfold vecType
        split
        · exact plain_bind (hall _ ht _ (by simp)) fun e => plain_pure _
        · exact plain_message _
      rw [if_neg (by simp [hs, hv])] at ht
      cases ht

theorem invariant_subst (subst : List (String × Ty)) : Invariant fun c => c.subst = subst where
  yikes _ _ hc := hc
  mono _ _ _ hc := hc
  fields fuel decl argTys _ c hc := by
    rw [monoFields_run]
    exact hc
  rest _ _ hs hc := hs.subst.trans hc

theorem extraIds_same {c c' : Ctx} (hs : SameScope c c') : c'.extraIds = c.extraIds := by
  rw [Ctx.extraIds, hs.yikesSid, hs.monoStructs, Ctx.extraIds]

theorem invariant_extra : Invariant fun c => c.extraIds ≠ [] := by
  refine .of_same (fun c hy _ => ?_) (fun c key d _ => ?_) (fun c s hc => hc) fun c c' hs hc => ?_
  · rw [extraIds_internYikes hy]
    exact List.cons_ne_nil _ _
  · exact List.ne_nil_of_mem (mem_extraIds_internMono.mpr (Or.inl rfl))
  · rw [extraIds_same hs]
    exact hc

/-- A computation that interns a struct, or finds one interned, if it succeeds. -/
def Interns (x : M α) : Prop :=
  ∀ c, c.subst = [] → ∀ a c', x.run c = (.ok a, c') → c'.extraIds ≠ []

theorem interns_left {x : M α} {f : α → M β} (hx : Interns x)
    (hf : ∀ a, Keeps (fun c => c.extraIds ≠ []) (f a)) : Interns (x >>= f) := by
  intro c hc b c' h
  obtain ⟨a, c₁, hxa, hfb⟩ := bind_ok.mp h
  have hkeep := hf a c₁ (hx c hc a c₁ hxa)
  rw [hfb] at hkeep
  exact hkeep

theorem interns_right {x : M α} {f : α → M β} (hx : Keeps (fun c => c.subst = []) x)
    (hf : ∀ a, Interns (f a)) : Interns (x >>= f) := by
  intro c hc b c' h
  obtain ⟨a, c₁, hxa, hfb⟩ := bind_ok.mp h
  have hkeep := hx c hc
  rw [hxa] at hkeep
  exact hf a c₁ hkeep b c' hfb

theorem interns_message (s : String) : Interns (message s : M α) := by
  intro c _ b c' h
  cases h

theorem interns_mapM {f : α → M β} {as : List α} {a : α} (ha : a ∈ as) (hi : Interns (f a))
    (hs : ∀ a, Keeps (fun c => c.subst = []) (f a))
    (he : ∀ a, Keeps (fun c => c.extraIds ≠ []) (f a)) : Interns (as.mapM f) := by
  induction as with
  | nil => cases ha
  | cons b as ih =>
    rw [List.mapM_cons]
    rcases List.mem_cons.mp ha with rfl | ha
    · refine interns_left hi fun b => ?_
      exact keeps_bind (keeps_mapM fun x _ => he x) fun bs => keeps_pure _
    · refine interns_right (hs b) fun b => ?_
      exact interns_left (ih ha) fun bs => keeps_pure _

theorem interns_yikes : Interns (namedType "yikes") := by
  intro c hc t c' h
  have hrun : (namedType "yikes").run c = (yikesStruct >>= fun sid => pure (.struct sid)).run c := by
    rw [namedType, run_bind]
    show (match c.subst.lookup "yikes" with
      | some t => (pure t : M Ty)
      | none => _).run c = _
    rw [hc, List.lookup_nil]
    rfl
  rw [hrun] at h
  obtain ⟨sid, c₁, hy, hp⟩ := bind_ok.mp h
  cases hp
  rw [yikesStruct_run] at hy
  cases hsid : c.yikesSid with
  | some sid' =>
    rw [hsid] at hy
    cases hy
    simp [Ctx.extraIds, hsid]
  | none =>
    rw [hsid] at hy
    cases hy
    rw [extraIds_internYikes hsid]
    exact List.cons_ne_nil _ _

theorem interns_instantiate (f : Typ → M Ty) (name : String) (decl : DripDecl)
    (argTys : List Ty) : Interns (instantiate f name decl argTys) := by
  intro c _ sid c' h
  obtain ⟨mangled, c₁, _, h⟩ := bind_ok.mp h
  obtain ⟨fields, c₂, _, h⟩ := bind_ok.mp h
  have hc' : c' = c₂.internMono (name, argTys) { name := mangled, fields := fields } :=
    (congrArg Prod.snd h).symm
  rw [hc']
  exact List.ne_nil_of_mem (mem_extraIds_internMono.mpr (Or.inl rfl))

theorem interns_monoStruct {f : Typ → M Ty} (hs : ∀ t, Keeps (fun c => c.subst = []) (f t))
    (name : String) (args : List Typ) : Interns (monoStruct f name args) := by
  refine interns_right (keeps_mapM fun t _ => hs t) fun argTys => ?_
  intro c hc sid c' h
  obtain ⟨c₁, c₂, hget, h⟩ := bind_ok.mp h
  cases hget
  cases hm : c.monoStructs.lookup (name, argTys) with
  | some sid' =>
    rw [hm] at h
    cases h
    have hne : c.monoStructs ≠ [] := by
      intro hnil
      rw [hnil] at hm
      cases hm
    simpa [Ctx.extraIds] using fun _ => hne
  | none =>
    rw [hm] at h
    cases hg : c.genericStructs.lookup name with
    | none =>
      rw [hg] at h
      cases h
    | some decl =>
      rw [hg] at h
      dsimp only at h
      by_cases hlen : decl.generics.length = argTys.length
      · rw [if_pos hlen] at h
        exact interns_instantiate f name decl argTys c hc sid c' h
      · rw [if_neg hlen] at h
        cases h

theorem interns_stashType {f : Typ → M Ty} {generics : List Typ}
    (hg : anyInterns generics = true) (hf : ∀ {t}, t.interns = true → Interns (f t))
    (hs : ∀ t, Keeps (fun c => c.subst = []) (f t))
    (he : ∀ t, Keeps (fun c => c.extraIds ≠ []) (f t)) : Interns (stashType f generics) := by
  unfold stashType
  split
  · rename_i k v
    simp only [anyInterns, Bool.or_false, Bool.or_eq_true] at hg
    rcases hg with hk | hv
    · exact interns_left (hf hk) fun k => keeps_bind (he v) fun v => keeps_pure _
    · exact interns_right (hs k) fun k => interns_left (hf hv) fun v => keeps_pure _
  · exact interns_message _

theorem interns_vecType {f : Typ → M Ty} {generics : List Typ}
    (hg : anyInterns generics = true) (hf : ∀ {t}, t.interns = true → Interns (f t)) :
    Interns (vecType f generics) := by
  unfold vecType
  split
  · rename_i e
    simp only [anyInterns, Bool.or_false] at hg
    exact interns_left (hf hg) fun e => keeps_pure _
  · exact interns_message _

/-- A type that mentions `yikes` or a generic instance leaves one interned. -/
theorem interns_mapType (fuel : Nat) {t : Typ} (ht : t.interns = true) :
    Interns (mapType fuel t) := by
  have hs : ∀ fuel t, Keeps (fun c => c.subst = []) (mapType fuel t) :=
    fun fuel t => (invariant_subst []).keeps_mapType fuel t
  have he : ∀ fuel t, Keeps (fun c => c.extraIds ≠ []) (mapType fuel t) :=
    fun fuel t => invariant_extra.keeps_mapType fuel t
  induction fuel generalizing t with
  | zero =>
    intro c _ a c' h
    cases h
  | succ fuel ih =>
    have hall : ∀ ts, anyInterns ts = true → Interns (ts.mapM (mapType fuel)) := by
      intro ts hts
      obtain ⟨t, hmem, hi⟩ := anyInterns_iff.mp hts
      exact interns_mapM hmem (ih hi) (hs fuel) (he fuel)
    cases t with
    | slice e | tag e | crib e => exact interns_left (ih ht) fun ty => keeps_pure _
    | array e n => exact interns_left (ih ht) fun ty => keeps_pure _
    | soa inner =>
      refine interns_left (ih ht) fun ty => ?_
      exact keeps_bind (keeps_checkSoa ty) fun _ => keeps_pure _
    | rawPtr => cases ht
    | fn params ret =>
      rw [Typ.interns, Bool.or_eq_true, Bool.and_eq_true] at ht
      rw [mapType]
      rcases ht with ht | ⟨hv, ht⟩
      · refine interns_left (hall params ht) fun ps => ?_
        by_cases hv : ret.isVoid = true
        · rw [if_pos hv]
          exact keeps_pure _
        · rw [if_neg hv]
          exact keeps_bind (he fuel ret) fun r => keeps_pure _
      · refine interns_right (keeps_mapM fun t _ => hs fuel t) fun ps => ?_
        rw [if_neg (by simpa using hv)]
        exact interns_left (ih ht) fun r => keeps_pure _
    | named name generics =>
      rw [Typ.interns] at ht
      rw [mapType]
      by_cases hg : generics.isEmpty = true
      · rw [if_pos hg] at ht ⊢
        rw [of_decide_eq_true ht]
        exact interns_yikes
      rw [if_neg hg] at ht ⊢
      by_cases hst : name = "stash"
      · rw [if_pos (by simp [hst])] at ht
        rw [if_pos hst]
        exact interns_stashType ht ih (hs fuel) (he fuel)
      rw [if_neg hst]
      by_cases hv : name = "vec"
      · rw [if_pos (by simp [hv])] at ht
        rw [if_pos hv]
        exact interns_vecType ht ih
      rw [if_neg hv]
      exact interns_left (interns_monoStruct (hs fuel) name generics) fun sid => keeps_pure _

end Interned

end BetLang.Collect
