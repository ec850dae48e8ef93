import BetLang.IntBinary

/-! Scalar integer agreement: complements, negation, casts and unchecked arithmetic, and the
one operand on which the two implementations part. -/

namespace BetLang

open Ir Llvm Interp Codegen Lower

theorem ofInt_toInt_stored {w : IntWidth} {signed : Bool} (v : BitVec w.bits) :
    BitVec.ofInt w.bits (stored w signed v).toInt = v := by
  rw [ofInt_toInt_eq_setWidth (bits_le w), setWidth_stored]

theorem bitNot_agrees (w : IntWidth) (signed : Bool) (v : BitVec w.bits) :
    Agrees w signed (unaryOpInt .bitNot (stored w signed v) (intTyOf w signed))
      (.ok (.int (lowerUnop .bitNot v))) := by
  have hnot : BitVec.ofInt w.bits (-(stored w signed v).toInt - 1) = ~~~v := by
    rw [sub_eq_add_neg, BitVec.ofInt_add, BitVec.ofInt_neg, BitVec.ofInt_neg, ofInt_toInt_stored,
      BitVec.not_eq_neg_add, BitVec.sub_eq_add_neg]
    simp
  simp only [unaryOpInt, lowerUnop]
  rw [wrapTo_eq, hnot]
  exact .int _

theorem neg_in_range_iff {w : IntWidth} (v : BitVec w.bits) :
    (-(2 ^ (w.bits - 1)) ≤ -v.toInt ∧ -v.toInt < 2 ^ (w.bits - 1)) ↔ v ≠ BitVec.intMin w.bits := by
  have hlo := BitVec.le_toInt v
  have hhi := BitVec.toInt_lt (x := v)
  rw [Ne, eq_intMin_iff]
  omega

/-- Negation agrees everywhere but at the signed minimum, where only the interpreter traps. -/
theorem neg_agrees_iff (w : IntWidth) (signed : Bool) (v : BitVec w.bits) :
    Agrees w signed (unaryOpInt .neg (stored w signed v) (intTyOf w signed))
        (.ok (.int (lowerUnop .neg v))) ↔
      ¬(signed = true ∧ v = BitVec.intMin w.bits) := by
  have hneg : lowerUnop .neg v = -v := by simp [lowerUnop]
  rw [hneg]
  cases signed with
  | false =>
    refine ⟨fun _ => by simp, fun _ => ?_⟩
    simp only [unaryOpInt, negInt, intTyOf_signed, Bool.false_eq_true, if_false]
    refine store_agrees ?_
    rw [operandU64_stored, ofNat_wrappingSub (bits_le w) v.isLt]
    simp
  | true =>
    have hrange := neg_in_range_iff v
    have hself := toInt_ofInt_iff (bits_pos w) (-v.toInt)
    rw [BitVec.ofInt_neg, BitVec.ofInt_toInt, hrange] at hself
    simp only [unaryOpInt, negInt, intTyOf_signed, if_true, toInt_stored_signed, trapping,
      wrapTo_eq, BitVec.ofInt_neg, BitVec.ofInt_toInt, true_and]
    constructor
    · intro h hv
      rw [if_pos (fun hh => hself.mp hh hv)] at h
      cases h
    · intro hv
      rw [if_neg (not_not.mpr (hself.mpr hv))]
      exact .int _

theorem setWidth_stored_cast (w dw : IntWidth) (signed : Bool) (v : BitVec w.bits) :
    Outcome.ok ((stored w signed v).setWidth dw.bits) =
      lowerCastInt v dw.bits (castKindInt w signed dw) := by
  have hd := bits_le dw
  unfold castKindInt
  split
  · rename_i hlt
    cases signed with
    | false =>
      simp only [Bool.false_eq_true, if_false, lowerCastInt, hlt, if_true, stored]
      rw [BitVec.setWidth_setWidth_of_le _ hd]
    | true =>
      simp only [if_true, lowerCastInt, hlt, stored, BitVec.signExtend]
      rw [setWidth_ofInt hd]
  · have hle : dw.bits ≤ w.bits := by omega
    have hlow : (stored w signed v).setWidth dw.bits = v.setWidth dw.bits := by
      conv_rhs => rw [← setWidth_stored signed v]
      rw [BitVec.setWidth_setWidth_of_le _ hle]
    rw [hlow]
    split
    · rename_i hlt
      simp only [lowerCastInt, hlt, if_true]
    · have he : w.bits = dw.bits := by omega
      simp only [lowerCastInt, he, dite_true]
      congr 1
      apply BitVec.eq_of_toNat_eq
      rw [BitVec.toNat_setWidth, BitVec.toNat_cast]
      exact Nat.mod_eq_of_lt (lt_of_lt_of_eq v.isLt (by rw [he]))

/-- The integer type names the interpreter knows, as lowering maps them. -/
theorem intTy_eq_some {name : String} {ty : IntTy} (h : intTy name = some ty) :
    ∃ dw ds, namedIntType name = some (dw, ds) ∧ ty = intTyOf dw ds := by
  unfold intTy at h
  split at h <;> simp only [Option.some.injEq, reduceCtorEq] at h <;> subst h <;>
    exact ⟨_, _, rfl, rfl⟩

theorem cast_agrees (trunc : BitVec 64 → Int) (w dw : IntWidth) (signed ds : Bool) {name : String}
    (hname : intTy name = some (intTyOf dw ds)) (v : BitVec w.bits) :
    Agrees dw ds (castInt trunc (.int (stored w signed v) (intTyOf w signed)) name)
      (do
        let b ← lowerCastInt v dw.bits (castKindInt w signed dw)
        return .int b) := by
  rw [← setWidth_stored_cast]
  simp only [castInt, hname, Value.sized, Outcome.ok_bind]
  exact wrap_agrees rfl

/-- The operand's value at its own type. -/
def valueOf (signed : Bool) {n : Nat} (b : BitVec n) : Int :=
  if signed then b.toInt else b.toNat

theorem ofInt_valueOf (signed : Bool) {n : Nat} (b : BitVec n) :
    BitVec.ofInt n (valueOf signed b) = b := by
  cases signed <;> simp [valueOf]

theorem unchecked_exact (w : IntWidth) (signed : Bool) (l r : BitVec w.bits) :
    lowerIntBinop false .add l r signed (arithMode signed .add) =
        .ok (.int (BitVec.ofInt w.bits (valueOf signed l + valueOf signed r))) ∧
      lowerIntBinop false .sub l r signed (arithMode signed .sub) =
        .ok (.int (BitVec.ofInt w.bits (valueOf signed l - valueOf signed r))) ∧
      lowerIntBinop false .mul l r signed (arithMode signed .mul) =
        .ok (.int (BitVec.ofInt w.bits (valueOf signed l * valueOf signed r))) := by
  rw [sub_eq_add_neg, BitVec.ofInt_add, BitVec.ofInt_add, BitVec.ofInt_mul, BitVec.ofInt_neg,
    ofInt_valueOf, ofInt_valueOf, ← BitVec.sub_eq_add_neg]
  simp [lowerIntBinop]

end BetLang
