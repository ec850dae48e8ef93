import Mathlib.Data.BitVec
import Mathlib.Data.Finite.Prod
import Mathlib.Dynamics.PeriodicPts.Lemmas

/-! The generator behind `math.cook`: xoshiro256** seeded by SplitMix64. -/

namespace BetLang.Random

open Function

@[ext]
structure RngState where
  s0 : BitVec 64
  s1 : BitVec 64
  s2 : BitVec 64
  s3 : BitVec 64
  deriving DecidableEq, Repr

/-- The state that xoshiro cannot escape. -/
def allZero : RngState := ⟨0, 0, 0, 0⟩

/-- The word that SplitMix64 makes of its counter. -/
def mix (z : BitVec 64) : BitVec 64 :=
  let x := (z ^^^ z >>> 30) * 0xBF58476D1CE4E5B9
  let x := (x ^^^ x >>> 27) * 0x94D049BB133111EB
  x ^^^ x >>> 31

def RngState.new (seed : BitVec 64) : RngState :=
  let z0 := seed + 0x9E3779B97F4A7C15
  let z1 := z0 + 0x9E3779B97F4A7C15
  let z2 := z1 + 0x9E3779B97F4A7C15
  let z3 := z2 + 0x9E3779B97F4A7C15
  let s : RngState := ⟨mix z0, mix z1, mix z2, mix z3⟩
  if s = allZero then { s with s0 := 1 } else s

/-- The draw and the state after it. -/
def RngState.nextU64 (s : RngState) : BitVec 64 × RngState :=
  let result := (s.s1 * 5).rotateLeft 7 * 9
  let t := s.s1 <<< 17
  let s := { s with s2 := s.s2 ^^^ s.s0 }
  let s := { s with s3 := s.s3 ^^^ s.s1 }
  let s := { s with s1 := s.s1 ^^^ s.s2 }
  let s := { s with s0 := s.s0 ^^^ s.s3 }
  let s := { s with s2 := s.s2 ^^^ t }
  let s := { s with s3 := s.s3.rotateLeft 45 }
  (result, s)

def RngState.step (s : RngState) : RngState := s.nextU64.2

theorem step_eq (s : RngState) : s.step =
    ⟨s.s0 ^^^ (s.s3 ^^^ s.s1), s.s1 ^^^ (s.s2 ^^^ s.s0), s.s2 ^^^ s.s0 ^^^ s.s1 <<< 17,
      (s.s3 ^^^ s.s1).rotateLeft 45⟩ := rfl

/-- Undoes `x ^^^ x <<< 17`. -/
def unshift (y : BitVec 64) : BitVec 64 := y ^^^ y <<< 17 ^^^ y <<< 34 ^^^ y <<< 51

theorem xor_xor_cancel (a b : BitVec 64) : a ^^^ (a ^^^ b) = b := by
  rw [← BitVec.xor_assoc, BitVec.xor_self, BitVec.zero_xor]

theorem xor_xor_self (a b : BitVec 64) : a ^^^ b ^^^ b = a := by
  rw [BitVec.xor_assoc, BitVec.xor_self, BitVec.xor_zero]

theorem unshift_shift (x : BitVec 64) : unshift (x ^^^ x <<< 17) = x := by
  have hout : x <<< 68 = 0#64 := BitVec.shiftLeft_eq_zero (by omega)
  simp only [unshift, BitVec.shiftLeft_xor_distrib, ← BitVec.shiftLeft_add, Nat.reduceAdd, hout]
  simp only [BitVec.xor_assoc, xor_xor_cancel, BitVec.xor_self,
    BitVec.xor_zero]

theorem rotateRight_rotateLeft (x : BitVec 64) : (x.rotateLeft 45).rotateRight 45 = x := by
  ext i hi
  by_cases h : i < 64 - 45
  · simp [BitVec.getElem_rotateRight, h]
  · have hlow : i - (64 - 45) < 45 := by omega
    have hi' : 64 - 45 + (i - (64 - 45)) = i := by omega
    simp [BitVec.getElem_rotateRight, h, hlow, hi']

/-- The state before. -/
def RngState.stepBack (s : RngState) : RngState :=
  let d := s.s3.rotateRight 45
  let s0 := s.s0 ^^^ d
  let s1 := unshift (s.s1 ^^^ s.s2)
  ⟨s0, s1, s.s1 ^^^ s1 ^^^ s0, d ^^^ s1⟩

theorem stepBack_step (s : RngState) : s.step.stepBack = s := by
  have hs1 : unshift (s.s1 ^^^ (s.s2 ^^^ s.s0) ^^^ (s.s2 ^^^ s.s0 ^^^ s.s1 <<< 17)) = s.s1 := by
    rw [BitVec.xor_assoc, xor_xor_cancel, unshift_shift]
  have hs2 : s.s1 ^^^ (s.s2 ^^^ s.s0) ^^^ s.s1 ^^^ s.s0 = s.s2 := by
    rw [BitVec.xor_comm s.s1, xor_xor_self, xor_xor_self]
  simp only [RngState.stepBack, step_eq, rotateRight_rotateLeft, xor_xor_self, hs1, hs2]

theorem step_injective : Injective RngState.step :=
  LeftInverse.injective stepBack_step

/-- The four words of a state. -/
def words : RngState ≃ BitVec 64 × BitVec 64 × BitVec 64 × BitVec 64 where
  toFun s := (s.s0, s.s1, s.s2, s.s3)
  invFun w := ⟨w.1, w.2.1, w.2.2.1, w.2.2.2⟩

instance finiteWord : Finite (BitVec 64) := .of_equiv _ BitVec.equivFin.symm.toEquiv

instance : Finite RngState := .of_equiv _ words.symm

theorem step_bijective : Bijective RngState.step :=
  Finite.injective_iff_bijective.mp step_injective

theorem step_allZero : allZero.step = allZero := rfl

theorem step_ne_allZero {s : RngState} (h : s ≠ allZero) : s.step ≠ allZero := by
  intro hz
  exact h (step_injective (hz.trans step_allZero.symm))

theorem iterate_ne_allZero {s : RngState} (h : s ≠ allZero) (k : Nat) :
    RngState.step^[k] s ≠ allZero := by
  induction k generalizing s with
  | zero => exact h
  | succ k ih => exact ih (step_ne_allZero h)

theorem new_ne_allZero (seed : BitVec 64) : RngState.new seed ≠ allZero := by
  simp only [RngState.new]
  split
  · intro h
    have hs0 : (1 : BitVec 64) = 0 := congrArg RngState.s0 h
    exact absurd hs0 (by decide)
  · assumption

theorem iterate_periodic (s : RngState) :
    ∃ p, 0 < p ∧ ∀ k, RngState.step^[k + p] s = RngState.step^[k] s := by
  obtain ⟨p, hp, h⟩ := step_injective.mem_periodicPts s
  refine ⟨p, hp, fun k => ?_⟩
  rw [iterate_add_apply, h]

/-- The transition of the generator is a bijection with the all-zero state as a fixed point, and
from every seed the run avoids that state and is purely periodic. -/
theorem state_never_degenerates :
    Bijective RngState.step ∧ allZero.step = allZero ∧
      ∀ seed, RngState.new seed ≠ allZero ∧
        (∀ k, RngState.step^[k] (RngState.new seed) ≠ allZero) ∧
        ∃ p, 0 < p ∧ ∀ k, RngState.step^[k + p] (RngState.new seed) =
          RngState.step^[k] (RngState.new seed) := by
  refine ⟨step_bijective, step_allZero, fun seed => ?_⟩
  have hseed := new_ne_allZero seed
  exact ⟨hseed, iterate_ne_allZero hseed, iterate_periodic _⟩

end BetLang.Random
