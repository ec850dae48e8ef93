import Mathlib.Algebra.Group.Int.Defs
import Mathlib.Algebra.Group.Nat.Defs
import Mathlib.Data.List.Nodup
import Mathlib.Data.List.Perm.Basic
import Mathlib.Tactic.Common

/-! The runtime's typed crib: a slab of generational slots with a LIFO free list.
A pointer is its address, and `0` is the null pointer. -/

namespace BetLang

/-- The handle ABI: `pad` is the defined-but-ignored lane between the two counters. -/
structure Tag where
  slot : BitVec 32
  pad : BitVec 32
  generation : BitVec 64
  deriving DecidableEq, Repr

def Tag.new (slot : BitVec 32) (generation : BitVec 64) : Tag :=
  { slot := slot, pad := 0, generation := generation }

def Tag.null : Tag :=
  { slot := BitVec.allOnes 32, pad := 0, generation := 0 }

/-- Two tags that name one occupant: the padding lane is not compared. -/
def Tag.SameHandle (t u : Tag) : Prop :=
  t.slot = u.slot ∧ t.generation = u.generation

instance (t u : Tag) : Decidable (t.SameHandle u) :=
  inferInstanceAs (Decidable (_ ∧ _))

structure SlotMeta where
  occupied : Bool
  generation : BitVec 64
  deriving DecidableEq, Repr

/-- `free` is in the order of the source's vector, so the next slot is its last element. -/
structure TypedCrib where
  elemSize : Nat
  elemAlign : Nat
  base : Nat
  slots : List SlotMeta
  free : List (BitVec 32)
  deriving DecidableEq, Repr

/-- The `usize` product of the slab's layout, which saturates. -/
def saturatingMul (a b : Nat) : Nat := min (a * b) (2 ^ 64 - 1)

/-- `alloc size align` is the address the allocator returns: it aborts rather than return null. -/
def betCribNew (alloc : Nat → Nat → Nat) (elemSize elemAlign : Nat) (capacity : BitVec 32) :
    TypedCrib :=
  let cap := capacity.toNat
  let total := saturatingMul elemSize cap
  { elemSize := elemSize
    elemAlign := max elemAlign 1
    base := if total = 0 then 0 else alloc total (max elemAlign 1)
    slots := List.replicate cap { occupied := false, generation := 0 }
    free := (List.range cap).map (BitVec.ofNat 32) }

def betCop (c : TypedCrib) : TypedCrib × Tag :=
  match c.free.getLast? with
  | none => (c, Tag.null)
  | some slot =>
    match c.slots[slot.toNat]? with
    | none => (c, Tag.null)
    | some m =>
      ({ c with
          free := c.free.dropLast
          slots := c.slots.set slot.toNat { m with occupied := true } },
        Tag.new slot m.generation)

def SlotMeta.bump (m : SlotMeta) : SlotMeta :=
  { occupied := false, generation := m.generation + 1 }

def betEvict (c : TypedCrib) : TypedCrib :=
  { c with
    slots := c.slots.map SlotMeta.bump
    free := (List.range c.slots.length).map (BitVec.ofNat 32) }

def betEvictSlot (c : TypedCrib) (tag : Tag) : TypedCrib :=
  match c.slots[tag.slot.toNat]? with
  | none => c
  | some m =>
    if m.occupied ∧ m.generation = tag.generation then
      { c with
        slots := c.slots.set tag.slot.toNat m.bump
        free := c.free ++ [tag.slot] }
    else c

def betHollaCheck (c : TypedCrib) (tag : Tag) : Nat :=
  match c.slots[tag.slot.toNat]? with
  | none => 0
  | some m =>
    if m.occupied ∧ m.generation = tag.generation ∧ c.base ≠ 0 then
      c.base + tag.slot.toNat * c.elemSize
    else 0

inductive CribOp where
  | cop
  | evict
  | evictSlot (tag : Tag)
  | hollaCheck (tag : Tag)
  deriving DecidableEq, Repr

def CribOp.exec (c : TypedCrib) : CribOp → TypedCrib
  | .cop => (betCop c).1
  | .evict => betEvict c
  | .evictSlot tag => betEvictSlot c tag
  | .hollaCheck _ => c

/-- The crib after a whole sequence of operations. -/
def TypedCrib.run (c : TypedCrib) (ops : List CribOp) : TypedCrib :=
  ops.foldl CribOp.exec c

end BetLang
