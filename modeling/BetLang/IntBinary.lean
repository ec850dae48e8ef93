import BetLang.IntStorage

/-! The interpreter's binary integer operators agree with the emitted instructions. -/

namespace BetLang

open Ir Llvm Interp Codegen Lower

theorem toInt_ofInt_iff {n : Nat} (hn : 0 < n) (v : Int) :
    (BitVec.ofInt n v).toInt = v ↔ -(2 ^ (n - 1)) ≤ v ∧ v < 2 ^ (n - 1) := by
  constructor
  · intro h
    rw [← h]
    exact ⟨BitVec.le_toInt _, BitVec.toInt_lt⟩
  · rintro ⟨hl, hu⟩
    exact BitVec.toInt_ofInt_eq_self hn hl hu

/-- Both sides yield the same value of the type, or both trap, for the same cause. -/
inductive Agrees (w : IntWidth) (signed : Bool) :
    Except RunError Value → Outcome (Scalar w.bits) → Prop
  | int (b : BitVec w.bits) :
    Agrees w signed (.ok (.int (stored w signed b) (intTyOf w signed))) (.ok (.int b))
  | bool (b : Bool) : Agrees w signed (.ok (.bool b)) (.ok (.bool b))
  | overflow (what msg : String) (hmsg : msg ≠ "divide by zero") :
    Agrees w signed (.error (.overflow what)) (.trap msg)
  | divByZero : Agrees w signed (.error .divByZero) (.trap "divide by zero")

theorem combineIntTy_self (ty : IntTy) : combineIntTy ty ty = ty := by simp [combineIntTy]

theorem trapping_agrees {w : IntWidth} (v : Int) (what : String) {b : BitVec w.bits} {bit : Bool}
    (hb : b = BitVec.ofInt w.bits v)
    (hbit : bit = true ↔ ¬(-(2 ^ (w.bits - 1)) ≤ v ∧ v < 2 ^ (w.bits - 1))) :
    Agrees w true (trapping v what (intTyOf w true)) (checkedArith (b, bit)) := by
  have hw : (wrapTo v (intTyOf w true)).toInt = b.toInt := by
    rw [wrapTo_eq, toInt_stored_signed, hb]
  have hself := toInt_ofInt_iff (bits_pos w) v
  rw [← hb] at hself
  unfold trapping checkedArith
  by_cases h : b.toInt = v
  · have hfalse : bit = false := by
      rw [Bool.eq_false_iff]
      exact fun hh => hbit.mp hh (hself.mp h)
    rw [if_neg (by rw [hw]; exact not_not.mpr h), hfalse, wrapTo_eq, ← hb]
    exact .int b
  · have htrue : bit = true := hbit.mpr fun hh => h (hself.mpr hh)
    rw [if_pos (by rw [hw]; exact h), htrue]
    exact .overflow what _ (by decide)

theorem store_agrees {w : IntWidth} {n : Nat} {b : BitVec w.bits} (hb : b = BitVec.ofNat w.bits n) :
    Agrees w false (.ok (storeUnsigned n (intTyOf w false))) (.ok (.int b)) := by
  rw [storeUnsigned_eq, hb]
  exact .int _

theorem wrap_agrees {w : IntWidth} {signed : Bool} {x : BitVec 64} {b : BitVec w.bits}
    (hb : b = x.setWidth w.bits) :
    Agrees w signed (.ok (.int (wrapTo x.toInt (intTyOf w signed)) (intTyOf w signed)))
      (.ok (.int b)) := by
  rw [wrapTo_toInt, hb]
  exact .int _

theorem ofNat_mod_u128 {n : Nat} (hn : n ≤ 64) (v : Nat) :
    BitVec.ofNat n (v % 2 ^ 128) = BitVec.ofNat n v := by
  apply BitVec.eq_of_toNat_eq
  rw [BitVec.toNat_ofNat, BitVec.toNat_ofNat]
  exact Nat.mod_mod_of_dvd _ (pow_dvd_pow 2 (by omega))

/-- The three checked operators: exact when signed, modular when unsigned. -/
theorem checked_agrees {w : IntWidth} {signed : Bool} {v : Int} {n : Nat} {what : String}
    {b : BitVec w.bits} {bit : Bool} (hv : signed = true → b = BitVec.ofInt w.bits v)
    (hbit : signed = true → (bit = true ↔ ¬(-(2 ^ (w.bits - 1)) ≤ v ∧ v < 2 ^ (w.bits - 1))))
    (hn : signed = false → b = BitVec.ofNat w.bits n) :
    Agrees w signed
      (if (intTyOf w signed).signed then trapping v what (intTyOf w signed)
        else .ok (storeUnsigned n (intTyOf w signed)))
      (if signed then checkedArith (b, bit) else .ok (.int b)) := by
  cases signed with
  | true => exact trapping_agrees v what (hv rfl) (hbit rfl)
  | false => exact store_agrees (hn rfl)

theorem ofNat_wrappingSub {n : Nat} (hn : n ≤ 64) {x y : Nat} (hy : y < 2 ^ n) :
    BitVec.ofNat n (wrappingSubU128 x y) = BitVec.ofNat n x - BitVec.ofNat n y := by
  obtain ⟨k, hk⟩ : 2 ^ n ∣ 2 ^ 128 := pow_dvd_pow 2 (by omega)
  have hkpos : 0 < k := Nat.pos_of_ne_zero fun h => by simp [h] at hk
  have hsum : x + 2 ^ 128 - y = (2 ^ n - y + x) + 2 ^ n * (k - 1) := by
    rw [hk, Nat.mul_sub_one]
    have hle : 2 ^ n ≤ 2 ^ n * k := Nat.le_mul_of_pos_right _ hkpos
    omega
  rw [wrappingSubU128, ofNat_mod_u128 hn, BitVec.ofNat_sub_ofNat, Nat.mod_eq_of_lt hy, hsum]
  apply BitVec.eq_of_toNat_eq
  rw [BitVec.toNat_ofNat, BitVec.toNat_ofNat, Nat.add_mul_mod_self_left]

theorem add_agrees (w : IntWidth) (signed : Bool) (l r : BitVec w.bits) :
    Agrees w signed
      (binaryOpInt .add (stored w signed l) (intTyOf w signed) (stored w signed r) (intTyOf w signed))
      (lowerIntBinop true .add l r signed (arithMode signed .add)) := by
  have hl : lowerIntBinop true .add l r signed (arithMode signed .add) =
      if signed then checkedArith (l + r, l.saddOverflow r) else .ok (.int (l + r)) := by
    cases signed <;> rfl
  simp only [binaryOpInt, intBinary, combineIntTy_self, hl]
  refine checked_agrees ?_ ?_ ?_
  · rintro rfl
    simp [toInt_stored_signed, BitVec.ofInt_add]
  · rintro rfl
    simp only [toInt_stored_signed, BitVec.saddOverflow, Bool.or_eq_true, decide_eq_true_eq]
    omega
  · intro _
    rw [operandU64_stored, operandU64_stored, wrappingAddU128, ofNat_mod_u128 (bits_le w)]
    simp [BitVec.ofNat_add]

theorem sub_agrees (w : IntWidth) (signed : Bool) (l r : BitVec w.bits) :
    Agrees w signed
      (binaryOpInt .sub (stored w signed l) (intTyOf w signed) (stored w signed r) (intTyOf w signed))
      (lowerIntBinop true .sub l r signed (arithMode signed .sub)) := by
  have hl : lowerIntBinop true .sub l r signed (arithMode signed .sub) =
      if signed then checkedArith (l - r, l.ssubOverflow r) else .ok (.int (l - r)) := by
    cases signed <;> rfl
  simp only [binaryOpInt, intBinary, combineIntTy_self, hl]
  refine checked_agrees ?_ ?_ ?_
  · rintro rfl
    rw [toInt_stored_signed, toInt_stored_signed, Int.sub_eq_add_neg, BitVec.ofInt_add,
      BitVec.ofInt_neg, BitVec.ofInt_toInt, BitVec.ofInt_toInt, BitVec.sub_eq_add_neg]
  · rintro rfl
    simp only [toInt_stored_signed, BitVec.ssubOverflow, Bool.or_eq_true, decide_eq_true_eq]
    omega
  · intro _
    rw [operandU64_stored, operandU64_stored, ofNat_wrappingSub (bits_le w) r.isLt]
    simp

theorem mul_agrees (w : IntWidth) (signed : Bool) (l r : BitVec w.bits) :
    Agrees w signed
      (binaryOpInt .mul (stored w signed l) (intTyOf w signed) (stored w signed r) (intTyOf w signed))
      (lowerIntBinop true .mul l r signed (arithMode signed .mul)) := by
  have hl : lowerIntBinop true .mul l r signed (arithMode signed .mul) =
      if signed then checkedArith (l * r, l.smulOverflow r) else .ok (.int (l * r)) := by
    cases signed <;> rfl
  simp only [binaryOpInt, intBinary, combineIntTy_self, hl]
  refine checked_agrees ?_ ?_ ?_
  · rintro rfl
    simp [toInt_stored_signed, BitVec.ofInt_mul]
  · rintro rfl
    simp only [toInt_stored_signed, BitVec.smulOverflow, Bool.or_eq_true, decide_eq_true_eq]
    omega
  · intro _
    rw [operandU64_stored, operandU64_stored, wrappingMulU128, ofNat_mod_u128 (bits_le w),
      BitVec.ofNat_mul]
    simp

/-- Both guards of a division. -/
theorem guardDiv_eq {w : IntWidth} {signed : Bool} (l r : BitVec w.bits) :
    guardDiv l r signed =
      if r = 0 then .trap "divide by zero"
      else if signed = true ∧ l = BitVec.intMin w.bits ∧ r = BitVec.allOnes w.bits then
        .trap "divide overflow"
      else .ok () := by
  have hmin : BitVec.ofNat w.bits (2 ^ (w.bits - 1)) = BitVec.intMin w.bits := by
    cases w <;> rfl
  unfold guardDiv
  rw [hmin]
  by_cases hr : r = 0
  · simp [hr, icmp]
  · have hz : icmp .eq r 0 = false := by simpa [icmp] using hr
    rw [hz, if_neg hr, Outcome.guard_false, Outcome.ok_bind]
    cases signed with
    | false => simp
    | true =>
      simp only [if_true, true_and, icmp]
      by_cases hb : l = BitVec.intMin w.bits ∧ r = BitVec.allOnes w.bits
      · rw [if_pos hb, hb.1, hb.2]
        simp
      · rw [if_neg hb, show (l == BitVec.intMin w.bits && r == BitVec.allOnes w.bits) = false by
          simpa using hb]
        rfl

theorem stored_eq_zero {w : IntWidth} {signed : Bool} {b : BitVec w.bits} :
    stored w signed b = 0 ↔ b = 0 := by
  rw [← stored_inj signed, show stored w signed 0 = 0 by
    cases w <;> cases signed <;> rfl]

theorem eq_intMin_iff {w : IntWidth} {b : BitVec w.bits} :
    b = BitVec.intMin w.bits ↔ b.toInt = -(2 ^ (w.bits - 1)) := by
  rw [← BitVec.toInt_inj, BitVec.toInt_intMin_of_pos (bits_pos w)]

theorem eq_allOnes_iff {w : IntWidth} {b : BitVec w.bits} :
    b = BitVec.allOnes w.bits ↔ b.toInt = -1 := by
  rw [← BitVec.toInt_inj, show (BitVec.allOnes w.bits).toInt = -1 by cases w <;> rfl]

/-- Division and remainder: a guarded instruction against the checked interpreter. -/
theorem guarded_agrees {w : IntWidth} {signed : Bool} (l r : BitVec w.bits) {what : String}
    {sres : Int} {ures : Nat} {sinstr uinstr : Outcome (BitVec w.bits)}
    (hs : signed = true → ¬(r = 0 ∨ l = BitVec.intMin w.bits ∧ r = BitVec.allOnes w.bits) →
      sinstr = .ok (BitVec.ofInt w.bits sres))
    (hu : signed = false → r ≠ 0 → uinstr = .ok (BitVec.ofNat w.bits ures)) :
    Agrees w signed
      (if stored w signed r = 0 then .error .divByZero
        else if (intTyOf w signed).signed then
          if (stored w signed l).toInt = -(2 ^ ((intTyOf w signed).bits - 1)) ∧
              (stored w signed r).toInt = -1 then .error (.overflow what)
          else .ok (.int (wrapTo sres (intTyOf w signed)) (intTyOf w signed))
        else .ok (storeUnsigned ures (intTyOf w signed)))
      (do
        guardDiv l r signed
        let v ← (if signed then sinstr else uinstr)
        return .int v) := by
  rw [guardDiv_eq]
  by_cases hr : r = 0
  · rw [if_pos (stored_eq_zero.mpr hr), if_pos hr]
    exact .divByZero
  · rw [if_neg (fun h => hr (stored_eq_zero.mp h)), if_neg hr]
    cases signed with
    | false =>
      simp only [intTyOf_signed, Bool.false_eq_true, false_and, if_false, hu rfl hr]
      exact store_agrees rfl
    | true =>
      simp only [intTyOf_signed, intTyOf_bits, if_true, true_and, toInt_stored_signed,
        ← eq_intMin_iff, ← eq_allOnes_iff]
      by_cases hb : l = BitVec.intMin w.bits ∧ r = BitVec.allOnes w.bits
      · rw [if_pos hb, if_pos hb]
        exact .overflow what _ (by decide)
      · rw [if_neg hb, if_neg hb, wrapTo_eq, hs rfl (not_or.mpr ⟨hr, hb⟩)]
        exact .int _

theorem div_agrees (w : IntWidth) (signed : Bool) (l r : BitVec w.bits) :
    Agrees w signed
      (binaryOpInt .div (stored w signed l) (intTyOf w signed) (stored w signed r) (intTyOf w signed))
      (lowerIntBinop true .div l r signed (arithMode signed .div)) := by
  simp only [binaryOpInt, intBinary, combineIntTy_self]
  refine guarded_agrees l r ?_ ?_
  · rintro rfl hd
    rw [toInt_stored_signed, toInt_stored_signed, sdiv, if_neg hd]
    congr 1
    apply BitVec.eq_of_toInt_eq
    rw [BitVec.toInt_sdiv, BitVec.toInt_ofInt]
  · rintro _ hd
    rw [operandU64_stored, operandU64_stored, udiv, if_neg hd]
    congr 1
    apply BitVec.eq_of_toNat_eq
    rw [BitVec.toNat_ofNat, BitVec.udiv_eq, BitVec.toNat_udiv,
      Nat.mod_eq_of_lt (lt_of_le_of_lt (Nat.div_le_self _ _) l.isLt)]

theorem rem_agrees (w : IntWidth) (signed : Bool) (l r : BitVec w.bits) :
    Agrees w signed
      (binaryOpInt .rem (stored w signed l) (intTyOf w signed) (stored w signed r) (intTyOf w signed))
      (lowerIntBinop true .rem l r signed (arithMode signed .rem)) := by
  simp only [binaryOpInt, intBinary, combineIntTy_self]
  refine guarded_agrees l r ?_ ?_
  · rintro rfl hd
    rw [toInt_stored_signed, toInt_stored_signed, srem, if_neg hd, ← BitVec.toInt_srem,
      BitVec.ofInt_toInt]
  · rintro _ hd
    rw [operandU64_stored, operandU64_stored, urem, if_neg hd]
    congr 1
    apply BitVec.eq_of_toNat_eq
    rw [BitVec.toNat_ofNat, BitVec.umod_eq, BitVec.toNat_umod,
      Nat.mod_eq_of_lt (lt_of_le_of_lt (Nat.mod_le _ _) l.isLt)]

theorem bitwise_agrees (w : IntWidth) (signed : Bool) (l r : BitVec w.bits) :
    Agrees w signed
      (.ok (.int (wrapTo (stored w signed l &&& stored w signed r).toInt (intTyOf w signed))
        (intTyOf w signed))) (.ok (.int (l &&& r))) ∧
    Agrees w signed
      (.ok (.int (wrapTo (stored w signed l ||| stored w signed r).toInt (intTyOf w signed))
        (intTyOf w signed))) (.ok (.int (l ||| r))) ∧
    Agrees w signed
      (.ok (.int (wrapTo (stored w signed l ^^^ stored w signed r).toInt (intTyOf w signed))
        (intTyOf w signed))) (.ok (.int (l ^^^ r))) := by
  refine ⟨wrap_agrees ?_, wrap_agrees ?_, wrap_agrees ?_⟩
  · rw [BitVec.setWidth_and, setWidth_stored, setWidth_stored]
  · rw [BitVec.setWidth_or, setWidth_stored, setWidth_stored]
  · rw [BitVec.setWidth_xor, setWidth_stored, setWidth_stored]

theorem shiftAmount_stored {w : IntWidth} {signed : Bool} (r : BitVec w.bits) :
    shiftAmount (stored w signed r) (intTyOf w signed) = r.toNat % w.bits := by
  obtain ⟨k, hk⟩ := bits_two_pow w
  have hle : k ≤ 6 := by
    by_contra h
    have hh := Nat.pow_le_pow_right (show 0 < 2 by decide) (show 7 ≤ k by omega)
    have hb := bits_le w
    omega
  have hlow := congrArg BitVec.toNat (setWidth_stored signed r)
  rw [BitVec.toNat_setWidth] at hlow
  rw [shiftAmount, intTyOf_bits, show w.bits - 1 = 2 ^ k - 1 by rw [hk],
    Nat.and_two_pow_sub_one_eq_mod, Nat.mod_mod_of_dvd _ (pow_dvd_pow 2 (by omega)), ← hlow,
    ← hk, Nat.mod_mod_of_dvd]
  nth_rewrite 1 [hk]
  exact pow_dvd_pow 2 (by rw [hk]; exact Nat.lt_two_pow_self.le)

theorem toNat_maskShiftAmount {w : IntWidth} (r : BitVec w.bits) :
    (maskShiftAmount r).toNat = r.toNat % w.bits := by
  obtain ⟨k, hk⟩ := bits_two_pow w
  exact toNat_and_mask_lt hk r

theorem shl_agrees (w : IntWidth) (signed : Bool) (l r : BitVec w.bits) :
    Agrees w signed
      (binaryOpInt .shl (stored w signed l) (intTyOf w signed) (stored w signed r) (intTyOf w signed))
      (lowerIntBinop true .shl l r signed (arithMode signed .shl)) := by
  have hlt := Nat.mod_lt r.toNat (bits_pos w)
  simp only [binaryOpInt, intBinary, combineIntTy_self, lowerIntBinop, Llvm.shl,
    toNat_maskShiftAmount, shiftAmount_stored, if_neg (show ¬r.toNat % w.bits ≥ w.bits by omega)]
  refine wrap_agrees ?_
  rw [BitVec.setWidth_shiftLeft_of_le (bits_le w), setWidth_stored]

theorem shr_agrees (w : IntWidth) (signed : Bool) (l r : BitVec w.bits) :
    Agrees w signed
      (binaryOpInt .shr (stored w signed l) (intTyOf w signed) (stored w signed r) (intTyOf w signed))
      (lowerIntBinop true .shr l r signed (arithMode signed .shr)) := by
  have hlt := Nat.mod_lt r.toNat (bits_pos w)
  simp only [binaryOpInt, intBinary, combineIntTy_self, lowerIntBinop, ashr, lshr,
    toNat_maskShiftAmount, shiftAmount_stored, if_neg (show ¬r.toNat % w.bits ≥ w.bits by omega),
    intTyOf_signed]
  cases signed with
  | true =>
    simp only [if_true]
    refine wrap_agrees ?_
    rw [← ofInt_toInt_eq_setWidth (bits_le w), BitVec.toInt_sshiftRight, toInt_stored_signed,
      ← BitVec.toInt_sshiftRight, BitVec.ofInt_toInt]
  | false =>
    simp only [Bool.false_eq_true, if_false]
    refine wrap_agrees ?_
    rw [operandU64_stored, BitVec.setWidth_ofNat_of_le (bits_le w), ← BitVec.toNat_ushiftRight,
      BitVec.ofNat_toNat, BitVec.setWidth_eq]

theorem compareInt_stored {w : IntWidth} {signed : Bool} (l r : BitVec w.bits) :
    compareInt (stored w signed l) (stored w signed r) (intTyOf w signed) =
      if signed then compare l.toInt r.toInt else compare l.toNat r.toNat := by
  unfold compareInt
  rw [operandU64_stored, operandU64_stored]
  cases signed with
  | true => rw [toInt_stored_signed, toInt_stored_signed]; rfl
  | false => rfl

theorem compare_decide {α : Type} [LinearOrder α] (x y : α) :
    (compare x y == .lt) = decide (x < y) ∧ (compare x y != .gt) = decide (x ≤ y) ∧
      (compare x y == .gt) = decide (y < x) ∧ (compare x y != .lt) = decide (y ≤ x) := by
  rcases lt_trichotomy x y with h | rfl | h
  · simp [compare_lt_iff_lt.mpr h, h, h.le, h.not_gt, h.not_ge]
  · simp
  · simp [compare_gt_iff_gt.mpr h, h, h.le, h.not_gt, h.not_ge]

theorem comparison_agrees (w : IntWidth) (signed : Bool) (l r : BitVec w.bits) {op : Ast.BinOp}
    {irop : Ir.BinOp} (hop : op ∈ [.lt, .le, .gt, .ge]) (hmap : Ast.mapBinop op = some irop) :
    Agrees w signed
      (binaryOpInt op (stored w signed l) (intTyOf w signed) (stored w signed r) (intTyOf w signed))
      (lowerIntBinop true irop l r signed (arithMode signed irop)) := by
  have hi := compare_decide l.toInt r.toInt
  have hn := compare_decide l.toNat r.toNat
  simp only [List.mem_cons, List.not_mem_nil, or_false] at hop
  rcases hop with rfl | rfl | rfl | rfl <;>
    · simp only [Ast.mapBinop, Option.some.injEq] at hmap
      subst hmap
      simp only [binaryOpInt, intBinary, combineIntTy_self, compareInt_stored, lowerIntBinop,
        intPredicate]
      cases signed <;>
        simp only [Bool.false_eq_true, if_true, if_false, icmp, hi, hn, BitVec.slt_eq_decide,
          BitVec.sle_eq_decide, BitVec.ult, BitVec.ule] <;>
        exact .bool _

theorem equality_agrees (w : IntWidth) (signed : Bool) (l r : BitVec w.bits) :
    (stored w signed l == stored w signed r) = (l == r) := by
  rw [Bool.eq_iff_iff, beq_iff_eq, beq_iff_eq, stored_inj]

/-- Every binary operator, on every pair of in-range operands. -/
theorem binary_agrees (w : IntWidth) (signed : Bool) (l r : BitVec w.bits) {op : Ast.BinOp}
    {irop : Ir.BinOp} (hmap : Ast.mapBinop op = some irop) :
    Agrees w signed
      (binaryOpInt op (stored w signed l) (intTyOf w signed) (stored w signed r) (intTyOf w signed))
      (lowerIntBinop true irop l r signed (arithMode signed irop)) := by
  have hbit := bitwise_agrees w signed l r
  cases op with
  | and => simp [Ast.mapBinop] at hmap
  | or => simp [Ast.mapBinop] at hmap
  | lt => exact comparison_agrees w signed l r (by simp) hmap
  | le => exact comparison_agrees w signed l r (by simp) hmap
  | gt => exact comparison_agrees w signed l r (by simp) hmap
  | ge => exact comparison_agrees w signed l r (by simp) hmap
  | eq =>
    cases hmap
    simp only [binaryOpInt, lowerIntBinop, intPredicate, icmp, equality_agrees]
    exact .bool _
  | ne =>
    cases hmap
    simp only [binaryOpInt, lowerIntBinop, intPredicate, icmp, bne, equality_agrees]
    exact .bool _
  | add => cases hmap; exact add_agrees w signed l r
  | sub => cases hmap; exact sub_agrees w signed l r
  | mul => cases hmap; exact mul_agrees w signed l r
  | div => cases hmap; exact div_agrees w signed l r
  | rem => cases hmap; exact rem_agrees w signed l r
  | shl => cases hmap; exact shl_agrees w signed l r
  | shr => cases hmap; exact shr_agrees w signed l r
  | bitAnd =>
    cases hmap
    simpa only [binaryOpInt, intBinary, combineIntTy_self, lowerIntBinop] using hbit.1
  | bitOr =>
    cases hmap
    simpa only [binaryOpInt, intBinary, combineIntTy_self, lowerIntBinop] using hbit.2.1
  | bitXor =>
    cases hmap
    simpa only [binaryOpInt, intBinary, combineIntTy_self, lowerIntBinop] using hbit.2.2

end BetLang
