import BetLang.CribSafety
import BetLang.Ir

/-! The tags that stand for a zero value: what a null constant and zeroed memory hold, and
when a crib resolves them. -/

namespace BetLang

/-- Where a program gets a tag that no `cop` returned. -/
inductive ZeroTag where
  | omittedField
  | ghostedLiteral
  | slabElement
  | soaSlabField
  deriving DecidableEq, Repr

/-- `zero_value` at a tag type. -/
def zeroTagConst : Ir.Const := .ghosted

/-- `lower_const`: `ghosted` is the null tag. -/
def lowerTagConst : Ir.Const → Option Tag
  | .ghosted => some Tag.null
  | _ => none

/-- `n` little-endian bytes at an offset. -/
def leBytes (bytes : Nat → BitVec 8) (off : Nat) : Nat → Nat
  | 0 => 0
  | n + 1 => (bytes off).toNat + 256 * leBytes bytes (off + 1) n

/-- The `{ i32, i32, i64 }` handle at an address. -/
def loadTag (bytes : Nat → BitVec 8) (addr : Nat) : Tag where
  slot := BitVec.ofNat 32 (leBytes bytes addr 4)
  pad := BitVec.ofNat 32 (leBytes bytes (addr + 4) 4)
  generation := BitVec.ofNat 64 (leBytes bytes (addr + 8) 8)

/-- The memory that `bet_alloc_zeroed` returns. -/
def zeroedMemory : Nat → BitVec 8 := fun _ => 0

/-- The tag that a zero value is in the compiled program; `addr` is where a slab keeps it. -/
def ZeroTag.value (addr : Nat) : ZeroTag → Tag
  | .omittedField => (lowerTagConst zeroTagConst).getD Tag.null
  | .ghostedLiteral => (lowerTagConst .ghosted).getD Tag.null
  | .slabElement | .soaSlabField => loadTag zeroedMemory addr

def ZeroTag.fromMemory : ZeroTag → Bool
  | .slabElement | .soaSlabField => true
  | .omittedField | .ghostedLiteral => false

/-- `holla` takes the ghosted arm and `evict` of the slot does nothing. -/
def TypedCrib.Dead (c : TypedCrib) (tag : Tag) : Prop :=
  betHollaCheck c tag = 0 ∧ betEvictSlot c tag = c

theorem leBytes_zeroed (addr n : Nat) : leBytes zeroedMemory addr n = 0 := by
  induction n generalizing addr with
  | zero => rfl
  | succ n ih =>
    rw [leBytes, ih]
    rfl

theorem loadTag_zeroed (addr : Nat) : loadTag zeroedMemory addr = Tag.new 0 0 := by
  simp only [loadTag, leBytes_zeroed]
  rfl

/-- A tag is dead exactly when its slot is not occupied at its generation. -/
theorem dead_iff_not_live {c : TypedCrib} {tag : Tag} : c.Dead tag ↔ c.live tag = false := by
  constructor
  · intro h
    rcases betEvictSlot_cases c tag with ⟨hl, _⟩ | ⟨m, _, hm, ho, _, he⟩
    · exact hl
    · have hs := (List.getElem?_eq_some_iff.mp hm).1
      have hbump : c.slots[tag.slot.toNat]? = some m.bump := by
        have heq := he.symm.trans h.2
        have hslots := congrArg TypedCrib.slots heq
        dsimp only at hslots
        rw [← hslots, List.getElem?_set_self hs]
      rw [hm] at hbump
      have hocc := congrArg SlotMeta.occupied (Option.some.inj hbump)
      rw [ho] at hocc
      cases hocc
  · intro hl
    refine ⟨?_, ?_⟩
    · unfold betHollaCheck
      unfold TypedCrib.live at hl
      cases hm : c.slots[tag.slot.toNat]? with
      | none => rfl
      | some m =>
        rw [hm] at hl
        have hnot : ¬ (m.occupied = true ∧ m.generation = tag.generation ∧ c.base ≠ 0) := by
          rintro ⟨ho, hg, _⟩
          simp [ho, hg] at hl
        exact if_neg hnot
    · rcases betEvictSlot_cases c tag with ⟨_, he⟩ | ⟨m, hl', _⟩
      · exact he
      · rw [hl] at hl'
        cases hl'

/-- The live tags are the recorded ones, up to the padding. -/
theorem live_iff_recorded {c : TypedCrib} {tags : List Tag} (hl : Ledger c tags) {tag : Tag} :
    c.live tag = true ↔ ∃ t ∈ tags, t.SameHandle tag := by
  constructor
  · intro h
    obtain ⟨m, hm, ho, hg⟩ := live_iff.mp h
    obtain ⟨t, ht, hts⟩ := List.mem_map.mp (hl.covers tag.slot m hm ho)
    obtain ⟨mt, hmt, _, hgt⟩ := live_iff.mp (hl.live t ht)
    rw [hts, hm] at hmt
    cases hmt
    exact ⟨t, ht, hts, hgt.symm.trans hg⟩
  · rintro ⟨t, ht, hh⟩
    rw [← live_congr hh]
    exact hl.live t ht

/-- In every state of every crib, a zero-valued tag is dead exactly when it is a null constant
or the first occupant of slot 0 is not there: not yet handed out, or evicted since. -/
theorem zero_tag_dead_iff (alloc : Nat → Nat → Nat) (elemSize elemAlign : Nat)
    (capacity : BitVec 32) (ops : List CribOp) (zero : ZeroTag) (addr : Nat) :
    let start := betCribNew alloc elemSize elemAlign capacity
    (start.run ops).Dead (zero.value addr) ↔
      (zero.fromMemory = false ∨
        ∀ t ∈ start.liveTags [] ops, ¬ (t.slot = 0 ∧ t.generation = 0)) := by
  intro start
  have h0 : CribInv start := cribInv_new alloc elemSize elemAlign capacity
  have hc : CribInv (start.run ops) := cribInv_run h0 ops
  have hl : Ledger (start.run ops) (start.liveTags [] ops) :=
    ledger_run h0 (ledger_new alloc elemSize elemAlign capacity) ops
  have hnull : (start.run ops).Dead Tag.null := dead_iff_not_live.mpr (live_null hc)
  have hzero : (start.run ops).Dead (Tag.new 0 0) ↔
      ∀ t ∈ start.liveTags [] ops, ¬ (t.slot = 0 ∧ t.generation = 0) := by
    rw [dead_iff_not_live, ← Bool.not_eq_true, live_iff_recorded hl]
    exact ⟨fun h t ht hh => h ⟨t, ht, hh⟩, fun h ⟨t, ht, hh⟩ => h t ht hh⟩
  cases zero with
  | omittedField => exact ⟨fun _ => Or.inl rfl, fun _ => hnull⟩
  | ghostedLiteral => exact ⟨fun _ => Or.inl rfl, fun _ => hnull⟩
  | slabElement =>
    simp only [ZeroTag.value, ZeroTag.fromMemory, loadTag_zeroed, hzero]
    simp
  | soaSlabField =>
    simp only [ZeroTag.value, ZeroTag.fromMemory, loadTag_zeroed, hzero]
    simp

/-- A crib of one slot, filled once: an element of fresh slab memory resolves to its storage. -/
theorem slab_tag_resolves :
    betHollaCheck ((betCribNew (fun _ _ => 4096) 8 8 1).run [.cop])
      (ZeroTag.slabElement.value 64) = 4096 := by
  rw [ZeroTag.value, loadTag_zeroed]
  decide

end BetLang
