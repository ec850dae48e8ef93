import BetLang.InterpInt
import BetLang.CodegenInt
import Mathlib.Tactic.Positivity
import Mathlib.Tactic.Ring

/-! The interpreter's `i64` payloads of narrow integers: storing, wrapping and reading back
the `w` low bits. -/

namespace BetLang

open Ir Llvm Interp Codegen Lower

def intTyOf (w : IntWidth) (signed : Bool) : IntTy := { bits := w.bits, signed := signed }

/-- The payload that holds the `w`-bit integer `b`: its value at its own type. -/
def stored (w : IntWidth) (signed : Bool) (b : BitVec w.bits) : BitVec 64 :=
  if signed then b.signExtend 64 else b.setWidth 64

@[simp] theorem intTyOf_bits (w : IntWidth) (signed : Bool) : (intTyOf w signed).bits = w.bits := rfl

@[simp] theorem intTyOf_signed (w : IntWidth) (signed : Bool) :
    (intTyOf w signed).signed = signed := rfl

theorem bits_pos (w : IntWidth) : 0 < w.bits := by cases w <;> decide

theorem bits_le (w : IntWidth) : w.bits ≤ 64 := by cases w <;> decide

theorem bits_two_pow (w : IntWidth) : ∃ k, w.bits = 2 ^ k := by
  cases w
  · exact ⟨3, rfl⟩
  · exact ⟨4, rfl⟩
  · exact ⟨5, rfl⟩
  · exact ⟨6, rfl⟩

theorem toInt_stored_signed {w : IntWidth} (b : BitVec w.bits) :
    (stored w true b).toInt = b.toInt := by
  simp only [stored, if_true]
  exact BitVec.toInt_signExtend_of_le (bits_le w)

theorem toNat_stored_unsigned {w : IntWidth} (b : BitVec w.bits) :
    (stored w false b).toNat = b.toNat := by
  simp only [stored, Bool.false_eq_true, if_false]
  exact BitVec.toNat_setWidth_of_le (bits_le w)

theorem setWidth_ofInt {n m : Nat} (h : n ≤ m) (v : Int) :
    (BitVec.ofInt m v).setWidth n = BitVec.ofInt n v := by
  apply BitVec.eq_of_toNat_eq
  have hm : (0 : Int) < 2 ^ m := by positivity
  have hn : (0 : Int) < 2 ^ n := by positivity
  have hd : (2 ^ n : Int) ∣ 2 ^ m := pow_dvd_pow 2 h
  simp only [BitVec.toNat_setWidth, BitVec.toNat_ofInt]
  apply Int.ofNat_inj.mp
  push_cast
  rw [Int.toNat_of_nonneg (Int.emod_nonneg _ hm.ne'),
    Int.toNat_of_nonneg (Int.emod_nonneg _ hn.ne'), Int.emod_emod_of_dvd _ hd]

theorem setWidth_stored {w : IntWidth} (signed : Bool) (b : BitVec w.bits) :
    (stored w signed b).setWidth w.bits = b := by
  cases signed with
  | false =>
    simp only [stored, Bool.false_eq_true, if_false]
    rw [BitVec.setWidth_setWidth_of_le _ (bits_le w), BitVec.setWidth_eq]
  | true =>
    simp only [stored, if_true, BitVec.signExtend]
    rw [setWidth_ofInt (bits_le w), BitVec.ofInt_toInt]

theorem stored_inj {w : IntWidth} (signed : Bool) {a b : BitVec w.bits} :
    stored w signed a = stored w signed b ↔ a = b := by
  constructor
  · intro h
    have hh := congrArg (BitVec.setWidth w.bits) h
    rwa [setWidth_stored, setWidth_stored] at hh
  · rintro rfl
    rfl

theorem ofInt_toInt_eq_setWidth {n : Nat} (hn : n ≤ 64) (x : BitVec 64) :
    BitVec.ofInt n x.toInt = x.setWidth n := by
  rw [← setWidth_ofInt hn, BitVec.ofInt_toInt]

theorem stored_unsigned_ofInt {w : IntWidth} (v : Int) :
    stored w false (BitVec.ofInt w.bits v) = BitVec.ofInt 64 (v % 2 ^ w.bits) := by
  have hpos : (0 : Int) < 2 ^ w.bits := by positivity
  have hnn := Int.emod_nonneg v hpos.ne'
  simp only [stored, Bool.false_eq_true, if_false]
  rw [← BitVec.ofNat_toNat, BitVec.toNat_ofInt, ← BitVec.ofInt_natCast]
  push_cast
  rw [Int.toNat_of_nonneg hnn]

theorem wrapTo_signed {n : Nat} (hn : 0 < n) (hlt : n < 64) (v : Int) :
    wrapTo v { bits := n, signed := true } = BitVec.ofInt 64 (v.bmod (2 ^ n)) := by
  obtain ⟨k, rfl⟩ : ∃ k, n = k + 1 := ⟨n - 1, by omega⟩
  have hpow : (2 : Int) ^ (k + 1) = 2 * 2 ^ k := by ring
  simp only [wrapTo, show ¬(k + 1 ≥ 64) by omega, if_false, true_and, Int.bmod_def,
    Nat.add_sub_cancel]
  push_cast
  congr 1
  rw [hpow]
  split <;> split <;> omega

/-- Wrapping into a type is storing the low bits. -/
theorem wrapTo_eq (w : IntWidth) (signed : Bool) (v : Int) :
    wrapTo v (intTyOf w signed) = stored w signed (BitVec.ofInt w.bits v) := by
  have hle := bits_le w
  by_cases hw : w.bits = 64
  · have h64 : w = .w64 := by cases w <;> simp [IntWidth.bits] at hw ⊢
    subst h64
    cases signed <;> simp [wrapTo, intTyOf, stored, IntWidth.bits]
  · cases signed with
    | false =>
      rw [stored_unsigned_ofInt]
      simp [wrapTo, intTyOf, show ¬(64 ≤ w.bits) by omega]
    | true =>
      rw [intTyOf, wrapTo_signed (bits_pos w) (by omega)]
      simp only [stored, if_true, BitVec.signExtend, BitVec.toInt_ofInt]

theorem wrapTo_toInt (w : IntWidth) (signed : Bool) (x : BitVec 64) :
    wrapTo x.toInt (intTyOf w signed) = stored w signed (x.setWidth w.bits) := by
  rw [wrapTo_eq, ofInt_toInt_eq_setWidth (bits_le w)]

/-- The stored payloads are exactly the in-range ones. -/
theorem wrapTo_eq_self_iff (w : IntWidth) (signed : Bool) (x : BitVec 64) :
    wrapTo x.toInt (intTyOf w signed) = x ↔ ∃ b, x = stored w signed b := by
  constructor
  · intro h
    exact ⟨x.setWidth w.bits, by rw [← wrapTo_toInt, h]⟩
  · rintro ⟨b, rfl⟩
    rw [wrapTo_toInt, setWidth_stored]

theorem operandU64_stored {w : IntWidth} {signed : Bool} (b : BitVec w.bits) :
    operandU64 (stored w signed b) (intTyOf w signed) = b.toNat := by
  have hh := congrArg BitVec.toNat (setWidth_stored signed b)
  rw [BitVec.toNat_setWidth] at hh
  have hle := bits_le w
  unfold operandU64
  split
  · rename_i hw
    change w.bits ≥ 64 at hw
    rw [← hh, show w.bits = 64 by omega, Nat.mod_eq_of_lt (BitVec.isLt _)]
  · exact hh

theorem storeUnsigned_eq (w : IntWidth) (n : Nat) :
    storeUnsigned n (intTyOf w false) =
      .int (stored w false (BitVec.ofNat w.bits n)) (intTyOf w false) := by
  have hle := bits_le w
  unfold storeUnsigned
  congr 1
  apply BitVec.eq_of_toNat_eq
  rw [toNat_stored_unsigned, BitVec.toNat_ofNat]
  split
  · rename_i hw
    change w.bits ≥ 64 at hw
    rw [BitVec.toNat_ofNat, show w.bits = 64 by omega]
  · rw [BitVec.toNat_ofNat]
    exact Nat.mod_eq_of_lt (lt_of_lt_of_le (Nat.mod_lt _ (by positivity))
      (Nat.pow_le_pow_right (by decide) hle))

end BetLang
