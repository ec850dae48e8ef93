import BetLang.Xoshiro
import BetLang.PackedPoly
import BetLang.FullPeriod
import BetLang.PrimeFactors

/-! From every state but the all-zero one the generator comes to every other: the transition is
linear over the field of two elements, and its powers are computed modulo its polynomial. -/

namespace BetLang.Random

open Function

instance : Zero RngState := ⟨allZero⟩

instance : Add RngState := ⟨fun s t => ⟨s.s0 ^^^ t.s0, s.s1 ^^^ t.s1, s.s2 ^^^ t.s2, s.s3 ^^^ t.s3⟩⟩

instance : Neg RngState := ⟨id⟩

theorem zero_def : (0 : RngState) = allZero := rfl

theorem add_def (s t : RngState) :
    s + t = ⟨s.s0 ^^^ t.s0, s.s1 ^^^ t.s1, s.s2 ^^^ t.s2, s.s3 ^^^ t.s3⟩ := rfl

theorem add_self (s : RngState) : s + s = 0 := by
  simp [add_def, zero_def, allZero]

/-- States under `^^^`. -/
instance : AddCommGroup RngState where
  add_assoc s t u := by simp only [add_def, BitVec.xor_assoc]
  zero_add s := by simp [add_def, zero_def, allZero]
  add_zero s := by simp [add_def, zero_def, allZero]
  neg_add_cancel s := add_self s
  add_comm s t := by simp only [add_def, BitVec.xor_comm]
  nsmul := nsmulRec
  zsmul := zsmulRec

theorem rotateLeft_xor (a b : BitVec 64) (n : Nat) :
    (a ^^^ b).rotateLeft n = a.rotateLeft n ^^^ b.rotateLeft n := by
  ext i hi
  simp only [BitVec.getElem_rotateLeft, BitVec.getElem_xor]
  split
  · rfl
  · rfl

theorem xor_xor_xor_comm (a b c d : BitVec 64) : a ^^^ b ^^^ (c ^^^ d) = a ^^^ c ^^^ (b ^^^ d) := by
  rw [BitVec.xor_assoc, BitVec.xor_assoc, ← BitVec.xor_assoc b, ← BitVec.xor_assoc c,
    BitVec.xor_comm b c]

theorem step_add (s t : RngState) : (s + t).step = s.step + t.step := by
  simp only [step_eq, add_def, BitVec.shiftLeft_xor_distrib, xor_xor_xor_comm, rotateLeft_xor]

/-- The transition as an additive map. -/
def transition : AddMonoid.End RngState where
  toFun := RngState.step
  map_zero' := step_allZero
  map_add' := step_add

theorem transition_pow (k : Nat) (s : RngState) : (transition ^ k) s = RngState.step^[k] s := by
  rw [AddMonoid.End.coe_pow]
  rfl

theorem two_eq_zero : (2 : AddMonoid.End RngState) = 0 := by
  rw [← one_add_one_eq_two]
  ext1 s
  exact add_self s

def unit : RngState := ⟨1, 0, 0, 0⟩

/-- The minimal polynomial of the transition. -/
def poly : Nat :=
  PackedPoly.spread 257 0x10003c03c3f3ecb1904b4edcf26259f850280002bcefd1a5e9d116f2bb0f0f001

/-- The quotient of the power 512 of the variable by `poly`. -/
def reciprocal : Nat :=
  PackedPoly.spread 257 0x10003c0396f32c298132b61f2778b69e1aa1297eadd5e76b793a906d956fbc489

/-- The state `e` steps after `unit`. -/
def jump (e : Nat) : Option RngState :=
  (PackedPoly.powMod 256 poly reciprocal 257 e).map (PackedPoly.apply transition unit 256)

theorem poly_unit : PackedPoly.apply transition unit 257 poly = 0 := by decide +kernel

theorem jump_eq {e : Nat} {s : RngState} (h : jump e = some s) : RngState.step^[e] unit = s := by
  obtain ⟨c, hpow, rfl⟩ := Option.map_eq_some_iff.mp h
  obtain ⟨r, hpacks⟩ := PackedPoly.exists_packs_spread (w := transition) 257
    0x10003c03c3f3ecb1904b4edcf26259f850280002bcefd1a5e9d116f2bb0f0f001
  have hpoly : r unit = 0 := by rw [← hpacks.apply_eq, ← poly, poly_unit]
  obtain ⟨u, hc, hu⟩ :=
    PackedPoly.powMod_apply two_eq_zero (by decide) (by decide) hpacks hpoly hpow
  rw [hc.apply_eq, hu, transition_pow]

theorem jump_round : jump (2 ^ 256 - 1) = some unit := by decide +kernel

theorem jump_part : ∀ f ∈ PrimeFactors.primes,
    (jump ((2 ^ 256 - 1) / f)).isSome ∧ jump ((2 ^ 256 - 1) / f) ≠ some unit := by
  decide +kernel

theorem card_states : Nat.card RngState = 2 ^ 256 - 1 + 1 := by
  have hword : Nat.card (BitVec 64) = 2 ^ 64 := by
    rw [Nat.card_congr BitVec.equivFin.toEquiv, Nat.card_fin]
  rw [Nat.card_congr words, Nat.card_prod, Nat.card_prod, Nat.card_prod, hword]
  rfl

theorem minimalPeriod_unit : minimalPeriod RngState.step unit = 2 ^ 256 - 1 := by
  refine FullPeriod.minimalPeriod_eq (jump_eq jump_round) fun q hq hdvd => ?_
  obtain ⟨hsome, hne⟩ := jump_part q (PrimeFactors.mem_primes hq hdvd)
  obtain ⟨s, hs⟩ := Option.isSome_iff_exists.mp hsome
  rw [jump_eq hs]
  intro hunit
  exact hne (hunit ▸ hs)

/-- The generator has the full period `2 ^ 256 - 1`. -/
theorem reaches {s t : RngState} (hs : s ≠ allZero) (ht : t ≠ allZero) :
    ∃ k, RngState.step^[k] s = t := by
  have hunit : unit ≠ allZero := by decide
  refine FullPeriod.reaches step_injective step_allZero hunit ?_ hs ht
  rw [minimalPeriod_unit, card_states]

end BetLang.Random
