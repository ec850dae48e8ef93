import BetLang.Crib

/-! What one crib operation can do, and the slot invariant that every operation keeps. -/

namespace BetLang

/-- The validity rule that `betEvictSlot` and `betHollaCheck` share. -/
def TypedCrib.live (c : TypedCrib) (tag : Tag) : Bool :=
  match c.slots[tag.slot.toNat]? with
  | none => false
  | some m => m.occupied && decide (m.generation = tag.generation)

/-- The free list holds exactly the unoccupied slots, each once. -/
structure CribInv (c : TypedCrib) : Prop where
  length_lt : c.slots.length < 2 ^ 32
  free_nodup : c.free.Nodup
  mem_free : ∀ s : BitVec 32, s ∈ c.free ↔ ∃ m, c.slots[s.toNat]? = some m ∧ m.occupied = false

theorem live_iff {c : TypedCrib} {tag : Tag} :
    c.live tag = true ↔
      ∃ m, c.slots[tag.slot.toNat]? = some m ∧ m.occupied = true ∧ m.generation = tag.generation := by
  unfold TypedCrib.live
  cases hm : c.slots[tag.slot.toNat]? with
  | none => simp
  | some m => simp

theorem live_congr {c : TypedCrib} {t u : Tag} (h : t.SameHandle u) : c.live t = c.live u := by
  unfold TypedCrib.live
  rw [h.1, h.2]

theorem betHollaCheck_eq {c : TypedCrib} (hbase : c.base ≠ 0) (tag : Tag) :
    betHollaCheck c tag = if c.live tag then c.base + tag.slot.toNat * c.elemSize else 0 := by
  unfold betHollaCheck TypedCrib.live
  cases hm : c.slots[tag.slot.toNat]? with
  | none => simp
  | some m => simp [hbase]

theorem mem_slotRange {n : Nat} (hn : n < 2 ^ 32) (s : BitVec 32) :
    s ∈ (List.range n).map (BitVec.ofNat 32) ↔ s.toNat < n := by
  simp only [List.mem_map, List.mem_range]
  constructor
  · rintro ⟨i, hi, rfl⟩
    rw [BitVec.toNat_ofNat, Nat.mod_eq_of_lt (by omega)]
    exact hi
  · intro hs
    exact ⟨s.toNat, hs, by simp⟩

theorem slotRange_nodup {n : Nat} (hn : n < 2 ^ 32) :
    ((List.range n).map (BitVec.ofNat 32)).Nodup := by
  refine List.Nodup.map_on ?_ List.nodup_range
  intro i hi j hj hij
  simp only [List.mem_range] at hi hj
  have hh := congrArg BitVec.toNat hij
  simpa only [BitVec.toNat_ofNat, Nat.mod_eq_of_lt (show i < 2 ^ 32 by omega),
    Nat.mod_eq_of_lt (show j < 2 ^ 32 by omega)] using hh

/-- A `cop` finds the crib full, or takes the unoccupied slot on top of the free list. -/
theorem betCop_cases {c : TypedCrib} (h : CribInv c) :
    (c.free = [] ∧ betCop c = (c, Tag.null)) ∨
      ∃ rest s m, c.free = rest ++ [s] ∧ c.slots[s.toNat]? = some m ∧ m.occupied = false ∧
        betCop c =
          ({ c with free := rest, slots := c.slots.set s.toNat { m with occupied := true } },
            Tag.new s m.generation) := by
  rcases List.eq_nil_or_concat c.free with hf | ⟨rest, s, hf⟩
  · exact Or.inl ⟨hf, by simp [betCop, hf]⟩
  · obtain ⟨m, hm, ho⟩ := (h.mem_free s).mp (by simp [hf])
    exact Or.inr ⟨rest, s, m, by simpa using hf, hm, ho, by simp [betCop, hf, hm]⟩

/-- An `evict_slot` frees the slot of a live tag, and ignores every other tag. -/
theorem betEvictSlot_cases (c : TypedCrib) (tag : Tag) :
    (c.live tag = false ∧ betEvictSlot c tag = c) ∨
      ∃ m, c.live tag = true ∧ c.slots[tag.slot.toNat]? = some m ∧ m.occupied = true ∧
        m.generation = tag.generation ∧
        betEvictSlot c tag =
          { c with slots := c.slots.set tag.slot.toNat m.bump, free := c.free ++ [tag.slot] } := by
  by_cases hl : c.live tag = true
  · obtain ⟨m, hm, ho, hg⟩ := live_iff.mp hl
    exact Or.inr ⟨m, hl, hm, ho, hg, by simp [betEvictSlot, hm, ho, hg]⟩
  · refine Or.inl ⟨by simpa using hl, ?_⟩
    unfold betEvictSlot
    cases hm : c.slots[tag.slot.toNat]? with
    | none => rfl
    | some m =>
      have hn : ¬(m.occupied = true ∧ m.generation = tag.generation) :=
        fun hh => hl (live_iff.mpr ⟨m, hm, hh⟩)
      simp [hn]

theorem cribInv_cop {c : TypedCrib} (h : CribInv c) : CribInv (betCop c).1 := by
  rcases betCop_cases h with ⟨_, he⟩ | ⟨rest, s, m, hf, hm, ho, he⟩
  · rw [he]
    exact h
  · have hs : s.toNat < c.slots.length := (List.getElem?_eq_some_iff.mp hm).1
    have hnd := h.free_nodup
    rw [hf, List.nodup_append] at hnd
    rw [he]
    refine ⟨by simpa using h.length_lt, hnd.1, fun t => ?_⟩
    have hmem := h.mem_free t
    rw [hf] at hmem
    by_cases ht : t = s
    · subst ht
      have hr : t ∉ rest := fun hr => hnd.2.2 t hr t (by simp) rfl
      simp [hs, hr]
    · have hne : s.toNat ≠ t.toNat := fun hh => ht (BitVec.eq_of_toNat_eq hh.symm)
      simpa [ht, List.getElem?_set_ne hne] using hmem

theorem cribInv_evict {c : TypedCrib} (h : CribInv c) : CribInv (betEvict c) := by
  refine ⟨by simpa [betEvict] using h.length_lt, slotRange_nodup h.length_lt, fun s => ?_⟩
  rw [show (betEvict c).free = (List.range c.slots.length).map (BitVec.ofNat 32) from rfl,
    mem_slotRange h.length_lt]
  simp only [betEvict, List.getElem?_map, Option.map_eq_some_iff]
  constructor
  · intro hs
    exact ⟨(c.slots[s.toNat]).bump, ⟨_, List.getElem?_eq_getElem hs, rfl⟩, rfl⟩
  · rintro ⟨_, ⟨m, hm, _⟩, _⟩
    exact (List.getElem?_eq_some_iff.mp hm).1

theorem cribInv_evictSlot {c : TypedCrib} (h : CribInv c) (tag : Tag) :
    CribInv (betEvictSlot c tag) := by
  rcases betEvictSlot_cases c tag with ⟨_, he⟩ | ⟨m, _, hm, ho, _, he⟩
  · rw [he]
    exact h
  · have hs : tag.slot.toNat < c.slots.length := (List.getElem?_eq_some_iff.mp hm).1
    have hfree : tag.slot ∉ c.free := by
      intro hf
      obtain ⟨m', hm', ho'⟩ := (h.mem_free tag.slot).mp hf
      rw [hm] at hm'
      cases hm'
      simp [ho] at ho'
    rw [he]
    refine ⟨by simpa using h.length_lt, ?_, fun s => ?_⟩
    · refine List.nodup_append.mpr ⟨h.free_nodup, by simp, fun a ha b hb hab => ?_⟩
      simp only [List.mem_singleton] at hb
      exact hfree (hb ▸ hab ▸ ha)
    · by_cases hst : s = tag.slot
      · subst hst
        simp [hs, SlotMeta.bump]
      · have hne : tag.slot.toNat ≠ s.toNat := fun hh => hst (BitVec.eq_of_toNat_eq hh.symm)
        simpa [hst, List.getElem?_set_ne hne] using h.mem_free s

theorem cribInv_exec {c : TypedCrib} (h : CribInv c) (op : CribOp) : CribInv (op.exec c) := by
  cases op with
  | cop => exact cribInv_cop h
  | evict => exact cribInv_evict h
  | evictSlot tag => exact cribInv_evictSlot h tag
  | hollaCheck tag => exact h

theorem cribInv_new (alloc : Nat → Nat → Nat) (elemSize elemAlign : Nat) (capacity : BitVec 32) :
    CribInv (betCribNew alloc elemSize elemAlign capacity) := by
  have hc := capacity.isLt
  refine ⟨by simpa [betCribNew] using hc, slotRange_nodup hc, fun s => ?_⟩
  rw [show (betCribNew alloc elemSize elemAlign capacity).free =
    (List.range capacity.toNat).map (BitVec.ofNat 32) from rfl, mem_slotRange hc]
  simp only [betCribNew, List.getElem?_replicate]
  constructor
  · intro hs
    exact ⟨{ occupied := false, generation := 0 }, by simp [hs], rfl⟩
  · rintro ⟨m, hm, _⟩
    by_contra hs
    simp [hs] at hm

theorem run_nil (c : TypedCrib) : c.run [] = c := rfl

theorem run_cons (c : TypedCrib) (op : CribOp) (ops : List CribOp) :
    c.run (op :: ops) = (op.exec c).run ops := rfl

theorem run_append (c : TypedCrib) (pre post : List CribOp) :
    c.run (pre ++ post) = (c.run pre).run post := List.foldl_append

theorem cribInv_run {c : TypedCrib} (h : CribInv c) (ops : List CribOp) : CribInv (c.run ops) := by
  induction ops generalizing c with
  | nil => exact h
  | cons op ops ih => exact ih (cribInv_exec h op)

/-- Operations never move or resize the slab. -/
theorem exec_frame (c : TypedCrib) (op : CribOp) :
    (op.exec c).base = c.base ∧ (op.exec c).elemSize = c.elemSize ∧
      (op.exec c).slots.length = c.slots.length := by
  cases op with
  | cop =>
    simp only [CribOp.exec, betCop]
    split
    · exact ⟨rfl, rfl, rfl⟩
    · split
      · exact ⟨rfl, rfl, rfl⟩
      · exact ⟨rfl, rfl, by simp⟩
  | evict => exact ⟨rfl, rfl, by simp [CribOp.exec, betEvict]⟩
  | evictSlot tag =>
    rcases betEvictSlot_cases c tag with ⟨_, he⟩ | ⟨m, _, _, _, _, he⟩
    · simp [CribOp.exec, he]
    · simp [CribOp.exec, he]
  | hollaCheck tag => exact ⟨rfl, rfl, rfl⟩

theorem run_frame (c : TypedCrib) (ops : List CribOp) :
    (c.run ops).base = c.base ∧ (c.run ops).elemSize = c.elemSize ∧
      (c.run ops).slots.length = c.slots.length := by
  induction ops generalizing c with
  | nil => exact ⟨rfl, rfl, rfl⟩
  | cons op ops ih =>
    obtain ⟨hb, he, hl⟩ := ih (op.exec c)
    obtain ⟨hb', he', hl'⟩ := exec_frame c op
    exact ⟨hb.trans hb', he.trans he', hl.trans hl'⟩

theorem free_nil_iff_full {c : TypedCrib} (h : CribInv c) :
    c.free = [] ↔ ∀ m ∈ c.slots, m.occupied = true := by
  constructor
  · intro hf m hm
    obtain ⟨i, hi, rfl⟩ := List.mem_iff_getElem.mp hm
    have hlt := h.length_lt
    have hnat : (BitVec.ofNat 32 i).toNat = i := by
      rw [BitVec.toNat_ofNat, Nat.mod_eq_of_lt (by omega)]
    by_contra ho
    have hmem : BitVec.ofNat 32 i ∈ c.free :=
      (h.mem_free _).mpr ⟨c.slots[i], by rw [hnat, List.getElem?_eq_getElem hi], by simpa using ho⟩
    rw [hf] at hmem
    cases hmem
  · intro hfull
    rw [List.eq_nil_iff_forall_not_mem]
    intro s hs
    obtain ⟨m, hm, ho⟩ := (h.mem_free s).mp hs
    rw [hfull m (List.mem_of_getElem? hm)] at ho
    cases ho

end BetLang
