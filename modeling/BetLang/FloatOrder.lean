import BetLang.Ieee754
import Mathlib.Algebra.Order.Ring.Nat
import Mathlib.Tactic.Common
import Mathlib.Tactic.Ring

/-! The order of IEEE 754 floats and the widening of one format to a larger one. -/

namespace Ieee754

variable {w : Nat}

/-- Where a float that is no NaN stands in the order: the two zeros share a place. -/
def rank (v : BitVec w) : Int :=
  if v.msb then -(magnitude v : Int) else magnitude v

def ieeeLt (fracBits : Nat) (a b : BitVec w) : Bool :=
  !isNaN fracBits a && !isNaN fracBits b && decide (rank a < rank b)

def ieeeLe (fracBits : Nat) (a b : BitVec w) : Bool :=
  !isNaN fracBits a && !isNaN fracBits b && decide (rank a ≤ rank b)

theorem toNat_eq_magnitude (v : BitVec w) :
    v.toNat = magnitude v + if v.msb then 2 ^ (w - 1) else 0 := by
  have hlt : v.toNat < 2 ^ (w - 1) * 2 := by
    cases w with
    | zero => exact Nat.lt_of_lt_of_le v.isLt (by decide)
    | succ n => rw [Nat.add_sub_cancel, ← Nat.pow_succ]; exact v.isLt
  rw [magnitude, BitVec.msb_eq_decide]
  by_cases h : 2 ^ (w - 1) ≤ v.toNat
  · have hmod : v.toNat % 2 ^ (w - 1) = v.toNat - 2 ^ (w - 1) := by
      rw [Nat.mod_eq_sub_mod h, Nat.mod_eq_of_lt (by omega)]
    simp only [h, decide_true, if_true]
    omega
  · rw [Nat.mod_eq_of_lt (by omega)]
    simp [h]

theorem eq_iff_magnitude (a b : BitVec w) : a = b ↔ a.msb = b.msb ∧ magnitude a = magnitude b := by
  constructor
  · rintro rfl
    exact ⟨rfl, rfl⟩
  · rintro ⟨hs, hm⟩
    apply BitVec.eq_of_toNat_eq
    rw [toNat_eq_magnitude a, toNat_eq_magnitude b, hs, hm]

theorem ieeeEq_iff (fracBits : Nat) (a b : BitVec w) :
    ieeeEq fracBits a b = true ↔
      (isNaN fracBits a = false ∧ isNaN fracBits b = false) ∧
        magnitude a = magnitude b ∧ (a.msb = b.msb ∨ magnitude a = 0) := by
  simp only [ieeeEq, Bool.and_eq_true, Bool.or_eq_true, Bool.not_eq_true', beq_iff_eq,
    eq_iff_magnitude a b]
  refine and_congr_right fun _ => ⟨?_, ?_⟩
  · rintro (⟨hs, hm⟩ | ⟨ha, hb⟩)
    · exact ⟨hm, .inl hs⟩
    · exact ⟨ha.trans hb.symm, .inr ha⟩
  · rintro ⟨hm, hs | ha⟩
    · exact .inl ⟨hs, hm⟩
    · exact .inr ⟨ha, hm ▸ ha⟩

/-- A finite magnitude counted in the smallest steps of its format. -/
def units (fracBits m : Nat) : Nat :=
  if m < 2 ^ fracBits then m
  else (2 ^ fracBits + m % 2 ^ fracBits) * 2 ^ (m / 2 ^ fracBits - 1)

theorem units_lt {fracBits m n : Nat} (h : m < n) : units fracBits m < units fracBits n := by
  have hp : 0 < 2 ^ fracBits := Nat.two_pow_pos fracBits
  have hm := Nat.div_add_mod m (2 ^ fracBits)
  have hn := Nat.div_add_mod n (2 ^ fracBits)
  have hlm := Nat.mod_lt m hp
  have hln := Nat.mod_lt n hp
  by_cases hns : n < 2 ^ fracBits
  · rw [units, units, if_pos hns, if_pos (h.trans hns)]
    exact h
  have hlarge : 2 ^ fracBits ≤ units fracBits n := by
    rw [units, if_neg hns]
    exact Nat.le_trans (Nat.le_add_right _ _) (Nat.le_mul_of_pos_right _ (Nat.two_pow_pos _))
  by_cases hms : m < 2 ^ fracBits
  · rw [units, if_pos hms]
    exact Nat.lt_of_lt_of_le hms hlarge
  rw [units, units, if_neg hns, if_neg hms]
  -- either the exponents agree and the fractions decide, or one more doubling outweighs any fraction
  rcases Nat.lt_or_ge (m / 2 ^ fracBits) (n / 2 ^ fracBits) with he | he
  · have hpos : 1 ≤ m / 2 ^ fracBits := (Nat.one_le_div_iff hp).mpr (Nat.le_of_not_lt hms)
    calc (2 ^ fracBits + m % 2 ^ fracBits) * 2 ^ (m / 2 ^ fracBits - 1)
        < (2 ^ fracBits + 2 ^ fracBits) * 2 ^ (m / 2 ^ fracBits - 1) :=
          Nat.mul_lt_mul_of_pos_right (by omega) (Nat.two_pow_pos _)
      _ = 2 ^ fracBits * 2 ^ (m / 2 ^ fracBits) := by
          rw [← Nat.two_mul, Nat.mul_comm 2, Nat.mul_assoc, ← Nat.pow_succ']
          congr 2
          omega
      _ ≤ 2 ^ fracBits * 2 ^ (n / 2 ^ fracBits - 1) :=
          Nat.mul_le_mul_left _ (Nat.pow_le_pow_right (by decide) (by omega))
      _ ≤ (2 ^ fracBits + n % 2 ^ fracBits) * 2 ^ (n / 2 ^ fracBits - 1) :=
          Nat.mul_le_mul_right _ (Nat.le_add_right _ _)
  · have heq : m / 2 ^ fracBits = n / 2 ^ fracBits :=
      Nat.le_antisymm (Nat.div_le_div_right (Nat.le_of_lt h)) he
    rw [heq] at hm ⊢
    exact Nat.mul_lt_mul_of_pos_right (by omega) (Nat.two_pow_pos _)

theorem units_inj {fracBits m n : Nat} (h : units fracBits m = units fracBits n) : m = n := by
  rcases Nat.lt_trichotomy m n with hlt | heq | hlt
  · exact absurd h (Nat.ne_of_lt (units_lt hlt))
  · exact heq
  · exact absurd h.symm (Nat.ne_of_lt (units_lt hlt))

def infinity (w fracBits : Nat) : Nat := 2 ^ (w - 1) - 2 ^ fracBits

/-- The smallest step of an `f32` is `2 ^ -149`, and `2 ^ -1074` that of an `f64`. -/
def stepGap : Nat := 1074 - 149

/-- `b` is the `f64` with the value of the `f32` `a`. -/
structure Widens (a : BitVec 32) (b : BitVec 64) : Prop where
  sign : b.msb = a.msb
  nan : isNaN 52 b = isNaN 23 a
  infinite : magnitude a = infinity 32 23 → magnitude b = infinity 64 52
  bounded : magnitude a < infinity 32 23 → magnitude b < infinity 64 52
  finite : magnitude a < infinity 32 23 →
    units 52 (magnitude b) = units 23 (magnitude a) * 2 ^ stepGap

theorem le_infinity {fracBits : Nat} {a : BitVec w} (h : isNaN fracBits a = false) :
    magnitude a ≤ infinity w fracBits := by
  simpa [isNaN, infinity] using h

theorem Widens.magnitude_inj {a a' : BitVec 32} {b b' : BitVec 64} (h : Widens a b)
    (h' : Widens a' b') (ha : isNaN 23 a = false) (ha' : isNaN 23 a' = false) :
    magnitude b = magnitude b' ↔ magnitude a = magnitude a' := by
  have hle := le_infinity ha
  have hle' := le_infinity ha'
  rcases Nat.lt_or_eq_of_le hle with hlt | heq <;> rcases Nat.lt_or_eq_of_le hle' with hlt' | heq'
  · have hu := h.finite hlt
    have hu' := h'.finite hlt'
    constructor
    · intro hb
      rw [hb, hu'] at hu
      exact units_inj (Nat.eq_of_mul_eq_mul_right (Nat.two_pow_pos _) hu.symm)
    · intro hm
      rw [hm, ← hu'] at hu
      exact units_inj hu
  · have hb := h.bounded hlt
    have hb' := h'.infinite heq'
    omega
  · have hb := h.infinite heq
    have hb' := h'.bounded hlt'
    omega
  · have hb := h.infinite heq
    have hb' := h'.infinite heq'
    omega

@[simp] theorem units_zero (fracBits : Nat) : units fracBits 0 = 0 := by
  simp [units]

theorem Widens.magnitude_eq_zero {a : BitVec 32} {b : BitVec 64} (h : Widens a b)
    (ha : isNaN 23 a = false) : magnitude b = 0 ↔ magnitude a = 0 := by
  rcases Nat.lt_or_eq_of_le (le_infinity ha) with hlt | heq
  · have hu := h.finite hlt
    constructor
    · intro hb
      rw [hb, units_zero, eq_comm, Nat.mul_eq_zero] at hu
      have hz : units 23 (magnitude a) = 0 := hu.resolve_right (Nat.ne_of_gt (Nat.two_pow_pos _))
      exact units_inj (hz.trans (units_zero 23).symm)
    · intro hm
      rw [hm, units_zero, Nat.zero_mul] at hu
      exact units_inj (hu.trans (units_zero 52).symm)
  · have hb := h.infinite heq
    rw [heq, hb]
    decide

/-- Widening keeps equality, of NaN too. -/
theorem Widens.f64Eq_eq {a a' : BitVec 32} {b b' : BitVec 64} (h : Widens a b)
    (h' : Widens a' b') : f64Eq b b' = f32Eq a a' := by
  rw [Bool.eq_iff_iff, f64Eq, f32Eq, ieeeEq_iff, ieeeEq_iff, h.nan, h'.nan, h.sign, h'.sign]
  refine and_congr_right fun ⟨ha, ha'⟩ => ?_
  rw [h.magnitude_inj h' ha ha', h.magnitude_eq_zero ha]

end Ieee754
