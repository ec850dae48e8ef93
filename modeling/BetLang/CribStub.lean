import BetLang.CribZero
import BetLang.Slab

/-! The stub runtime's typed crib, and what the two runtimes' cribs are as slabs. -/

namespace BetLang

namespace Stub

/-- There is no free list: a `cop` looks for a free slot. -/
structure TypedCrib where
  elemSize : Nat
  elemAlign : Nat
  base : Nat
  slotMeta : List SlotMeta

def betCribNew (alloc : Nat → Nat → Nat) (elemSize elemAlign : Nat) (capacity : BitVec 32) :
    TypedCrib :=
  let cap := capacity.toNat
  let total := saturatingMul elemSize cap
  { elemSize, elemAlign
    base := if total = 0 then 0 else alloc total (max elemAlign 1)
    slotMeta := List.replicate cap { occupied := false, generation := 0 } }

def betCop (t : TypedCrib) : TypedCrib × Tag :=
  match t.slotMeta.findIdx? (!·.occupied) with
  | none => (t, Tag.null)
  | some i =>
    match t.slotMeta[i]? with
    | none => (t, Tag.null)
    | some m =>
      ({ t with slotMeta := t.slotMeta.set i { m with occupied := true } },
        Tag.new (BitVec.ofNat 32 i) m.generation)

def betEvict (t : TypedCrib) : TypedCrib := { t with slotMeta := t.slotMeta.map SlotMeta.bump }

def betEvictSlot (t : TypedCrib) (tag : Tag) : TypedCrib :=
  match t.slotMeta[tag.slot.toNat]? with
  | none => t
  | some m =>
    if m.occupied ∧ m.generation = tag.generation then
      { t with slotMeta := t.slotMeta.set tag.slot.toNat m.bump }
    else t

def betHollaCheck (t : TypedCrib) (tag : Tag) : Nat :=
  match t.slotMeta[tag.slot.toNat]? with
  | none => 0
  | some m =>
    if m.occupied ∧ m.generation = tag.generation ∧ t.base ≠ 0 then
      t.base + tag.slot.toNat * t.elemSize
    else 0

end Stub

/-- The operations on a typed crib, with the slots and the storage that they work on. -/
structure Runtime (σ : Type) where
  slots : σ → List SlotMeta
  base : σ → Nat
  elemSize : σ → Nat
  cop : σ → σ × Tag
  evict : σ → σ
  evictSlot : σ → Tag → σ
  hollaCheck : σ → Tag → Nat

def Runtime.real : Runtime TypedCrib where
  slots := TypedCrib.slots
  base := TypedCrib.base
  elemSize := TypedCrib.elemSize
  cop := betCop
  evict := betEvict
  evictSlot := betEvictSlot
  hollaCheck := betHollaCheck

def Runtime.stub : Runtime Stub.TypedCrib where
  slots := Stub.TypedCrib.slotMeta
  base := Stub.TypedCrib.base
  elemSize := Stub.TypedCrib.elemSize
  cop := Stub.betCop
  evict := Stub.betEvict
  evictSlot := Stub.betEvictSlot
  hollaCheck := Stub.betHollaCheck

namespace Runtime

variable {σ : Type}

/-- The tag names an occupied slot at its generation. -/
def Live (R : Runtime σ) (c : σ) (tag : Tag) : Prop :=
  ∃ m, (R.slots c)[tag.slot.toNat]? = some m ∧ m.occupied = true ∧ m.generation = tag.generation

/-- `cop` takes some free slot, `evict_slot` frees the slot of a live tag; the rest is the same in all
runtimes. -/
structure Lawful (R : Runtime σ) (Inv : σ → Prop) : Prop where
  size : ∀ c, Inv c → (R.slots c).length < 2 ^ 32
  cop : ∀ c, Inv c → Inv (R.cop c).1 ∧ R.base (R.cop c).1 = R.base c ∧
    R.elemSize (R.cop c).1 = R.elemSize c ∧
    (((∀ m ∈ R.slots c, m.occupied = true) ∧ R.slots (R.cop c).1 = R.slots c ∧
        (R.cop c).2 = Tag.null) ∨
      ∃ i m, (R.slots c)[i]? = some m ∧ m.occupied = false ∧
        R.slots (R.cop c).1 = (R.slots c).set i { m with occupied := true } ∧
        (R.cop c).2 = Tag.new (BitVec.ofNat 32 i) m.generation)
  evict : ∀ c, Inv c → Inv (R.evict c) ∧ R.base (R.evict c) = R.base c ∧
    R.elemSize (R.evict c) = R.elemSize c ∧ R.slots (R.evict c) = (R.slots c).map SlotMeta.bump
  evictSlot : ∀ c tag, Inv c → Inv (R.evictSlot c tag) ∧ R.base (R.evictSlot c tag) = R.base c ∧
    R.elemSize (R.evictSlot c tag) = R.elemSize c ∧
    (¬ R.Live c tag → R.slots (R.evictSlot c tag) = R.slots c) ∧
    ∀ m, (R.slots c)[tag.slot.toNat]? = some m → R.Live c tag →
      R.slots (R.evictSlot c tag) = (R.slots c).set tag.slot.toNat m.bump
  live : ∀ c tag, R.base c ≠ 0 → R.Live c tag →
    R.hollaCheck c tag = R.base c + tag.slot.toNat * R.elemSize c
  dead : ∀ c tag, ¬ R.Live c tag → R.hollaCheck c tag = 0
  unbased : ∀ c tag, R.base c = 0 → R.hollaCheck c tag = 0

section Real

theorem live_real {c : TypedCrib} {tag : Tag} : Runtime.real.Live c tag ↔ c.live tag = true :=
  live_iff.symm

theorem lawful_real : Runtime.real.Lawful CribInv where
  size _ h := h.length_lt
  cop := by
    intro c h
    refine ⟨cribInv_cop h, ?_⟩
    rcases betCop_cases h with ⟨hf, he⟩ | ⟨rest, s, m, _, hm, ho, he⟩
    · rw [show Runtime.real.cop c = (c, Tag.null) from he]
      exact ⟨rfl, rfl, Or.inl ⟨(free_nil_iff_full h).mp hf, rfl, rfl⟩⟩
    · rw [show Runtime.real.cop c = _ from he]
      exact ⟨rfl, rfl, Or.inr ⟨s.toNat, m, hm, ho, rfl, by simp⟩⟩
  evict _ h := ⟨cribInv_evict h, rfl, rfl, rfl⟩
  evictSlot := by
    intro c tag h
    refine ⟨cribInv_evictSlot h tag, ?_⟩
    rw [live_real]
    rcases betEvictSlot_cases c tag with ⟨hl, he⟩ | ⟨m, hl, hm, _, _, he⟩
    · rw [show Runtime.real.evictSlot c tag = c from he, hl]
      exact ⟨rfl, rfl, fun _ => rfl, fun _ _ hh => by cases hh⟩
    · rw [show Runtime.real.evictSlot c tag = _ from he]
      refine ⟨rfl, rfl, fun hh => absurd hl hh, fun m' hm' _ => ?_⟩
      rw [show (Runtime.real.slots c)[tag.slot.toNat]? = some m from hm] at hm'
      cases hm'
      rfl
  live := by
    intro c tag hbase hl
    rw [show Runtime.real.hollaCheck c tag = _ from betHollaCheck_eq hbase tag, if_pos (live_real.mp hl)]
    rfl
  dead := by
    intro c tag hl
    rw [live_real, Bool.not_eq_true] at hl
    exact (dead_iff_not_live.mpr hl).1
  unbased := by
    intro c tag hbase
    dsimp only [Runtime.real, betHollaCheck]
    cases c.slots[tag.slot.toNat]? with
    | none => rfl
    | some m => exact if_neg fun hh => hh.2.2 hbase

end Real

section Stub

theorem findIdx?_free {slots : List SlotMeta} {i : Nat}
    (h : slots.findIdx? (!·.occupied) = some i) :
    ∃ m, slots[i]? = some m ∧ m.occupied = false := by
  obtain ⟨hlt, hfree, _⟩ := List.findIdx?_eq_some_iff_getElem.mp h
  exact ⟨slots[i], List.getElem?_eq_getElem hlt, by simpa using hfree⟩

theorem live_stub {c : Stub.TypedCrib} {tag : Tag} {m : SlotMeta}
    (hm : c.slotMeta[tag.slot.toNat]? = some m) :
    Runtime.stub.Live c tag ↔ m.occupied = true ∧ m.generation = tag.generation := by
  constructor
  · rintro ⟨m', hm', hlive⟩
    rw [show (Runtime.stub.slots c)[tag.slot.toNat]? = some m from hm] at hm'
    cases hm'
    exact hlive
  · intro hlive
    exact ⟨m, hm, hlive⟩

theorem lawful_stub : Runtime.stub.Lawful fun c => c.slotMeta.length < 2 ^ 32 where
  size _ h := h
  cop := by
    intro c h
    dsimp only [Runtime.stub, Stub.betCop]
    cases hi : c.slotMeta.findIdx? (!·.occupied) with
    | none =>
      have hfull : ∀ m ∈ c.slotMeta, m.occupied = true := by
        simpa using List.findIdx?_eq_none_iff.mp hi
      exact ⟨h, rfl, rfl, Or.inl ⟨hfull, rfl, rfl⟩⟩
    | some i =>
      obtain ⟨m, hm, ho⟩ := findIdx?_free hi
      dsimp only
      rw [hm]
      exact ⟨by simpa using h, rfl, rfl, Or.inr ⟨i, m, hm, ho, rfl, rfl⟩⟩
  evict c h := ⟨by simpa [Runtime.stub, Stub.betEvict] using h, rfl, rfl, rfl⟩
  evictSlot := by
    intro c tag h
    dsimp only [Runtime.stub, Stub.betEvictSlot]
    cases hm : c.slotMeta[tag.slot.toNat]? with
    | none =>
      refine ⟨h, rfl, rfl, fun _ => rfl, fun m hm' _ => ?_⟩
      cases hm'
    | some m =>
      have hlive := live_stub hm
      dsimp only
      by_cases hl : m.occupied = true ∧ m.generation = tag.generation
      · rw [if_pos hl]
        refine ⟨by simpa using h, rfl, rfl, fun hh => absurd (hlive.mpr hl) hh, fun m' hm' _ => ?_⟩
        cases hm'
        rfl
      · rw [if_neg hl]
        exact ⟨h, rfl, rfl, fun _ => rfl, fun _ _ hh => absurd (hlive.mp hh) hl⟩
  live := by
    intro c tag hbase hl
    obtain ⟨m, hm, ho, hg⟩ := hl
    have hm : c.slotMeta[tag.slot.toNat]? = some m := hm
    dsimp only [Runtime.stub, Stub.betHollaCheck]
    rw [hm]
    exact if_pos ⟨ho, hg, hbase⟩
  dead := by
    intro c tag hl
    dsimp only [Runtime.stub, Stub.betHollaCheck]
    cases hm : c.slotMeta[tag.slot.toNat]? with
    | none => rfl
    | some m => exact if_neg fun hh => hl ((live_stub hm).mpr ⟨hh.1, hh.2.1⟩)
  unbased := by
    intro c tag hbase
    dsimp only [Runtime.stub, Stub.betHollaCheck]
    cases c.slotMeta[tag.slot.toNat]? with
    | none => rfl
    | some m => exact if_neg fun hh => hh.2.2 hbase

end Stub

section Start

theorem slab_base_ne_zero {alloc : Nat → Nat → Nat} (halloc : ∀ size align, alloc size align ≠ 0)
    {elemSize : Nat} (hsize : elemSize ≠ 0) (align : Nat) {capacity : BitVec 32}
    (hne : List.replicate capacity.toNat ({ occupied := false, generation := 0 } : SlotMeta) ≠ []) :
    (if saturatingMul elemSize capacity.toNat = 0 then 0
      else alloc (saturatingMul elemSize capacity.toNat) align) ≠ 0 := by
  have hcap : capacity.toNat ≠ 0 := fun h => hne (by rw [h]; rfl)
  have hmul := Nat.mul_pos (Nat.pos_of_ne_zero hsize) (Nat.pos_of_ne_zero hcap)
  rw [if_neg (by rw [saturatingMul]; omega)]
  exact halloc _ _

theorem fresh_slots {capacity : BitVec 32} {m : SlotMeta}
    (hm : m ∈ List.replicate capacity.toNat ({ occupied := false, generation := 0 } : SlotMeta)) :
    m = { occupied := false, generation := 0 } := List.eq_of_mem_replicate hm

end Start

end Runtime

end BetLang
