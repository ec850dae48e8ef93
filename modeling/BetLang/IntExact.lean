import BetLang.IntBinary

/-! The interpreter's integer operators against exact integer arithmetic. -/

namespace BetLang

open Ir Llvm Interp Codegen Lower

/-- `int_binary` on the host: `none` is a panic, of an unsigned division by a payload that narrows to
zero, or of an operator that is not its own. The accumulators are wide enough for all others. -/
def intBinaryHost (op : Ast.BinOp) (a : BitVec 64) (ta : IntTy) (b : BitVec 64) (tb : IntTy) :
    Option (Except RunError Value) :=
  let ty := combineIntTy ta tb
  match op with
  | .div | .rem =>
    if b ≠ 0 ∧ ty.signed = false ∧ operandU64 b ty = 0 then none
    else some (intBinary op a ta b tb)
  | .eq | .ne | .and | .or => none
  | _ => some (intBinary op a ta b tb)

/-- The number that a payload holds. -/
def number (v : BitVec 64) (ty : IntTy) : Int := if ty.signed then v.toInt else v.toNat

def Fits (ty : IntTy) (r : Int) : Prop :=
  if ty.signed then -(2 ^ (ty.bits - 1)) ≤ r ∧ r < 2 ^ (ty.bits - 1)
  else 0 ≤ r ∧ r < 2 ^ ty.bits

instance (ty : IntTy) (r : Int) : Decidable (Fits ty r) :=
  inferInstanceAs (Decidable (if ty.signed then _ else _))

/-- Equal types, or one that takes the default word along. -/
def Meets (ta tb : IntTy) : Prop := ta = tb ∨ tb = IntTy.word ∨ ta = IntTy.word

/-- The payload in range that is congruent to the exact result. -/
def Wrapped (ty : IntTy) (r : Int) (out : Except RunError Value) : Prop :=
  ∃ v, out = .ok (.int v ty) ∧ Fits ty (number v ty) ∧
    number v ty % 2 ^ ty.bits = r % 2 ^ ty.bits

/-- An overflow error exactly where a signed type does not hold `q`, and else the wrapped `r`. -/
def Guarded (ty : IntTy) (q r : Int) (out : Except RunError Value) : Prop :=
  (ty.signed = true ∧ ¬Fits ty q ∧ ∃ what, out = .error (.overflow what)) ∨
    ((ty.signed = true → Fits ty q) ∧ Wrapped ty r out)

def Checked (ty : IntTy) (r : Int) (out : Except RunError Value) : Prop := Guarded ty r r out

/-- Two's complement at the width of the type. -/
def bitwise (f : (n : Nat) → BitVec n → BitVec n → BitVec n) (ty : IntTy) (x y : Int) : Int :=
  (f ty.bits (BitVec.ofInt ty.bits x) (BitVec.ofInt ty.bits y)).toInt

/-- What an operator yields on two numbers, at the type of the result. -/
def Exact (op : Ast.BinOp) (ty : IntTy) (x y : Int) (out : Except RunError Value) : Prop :=
  match op with
  | .add => Checked ty (x + y) out
  | .sub => Checked ty (x - y) out
  | .mul => Checked ty (x * y) out
  | .div => if y = 0 then out = .error .divByZero else Checked ty (x.tdiv y) out
  | .rem =>
    -- the remainder traps where the quotient does
    if y = 0 then out = .error .divByZero else Guarded ty (x.tdiv y) (x.tmod y) out
  | .bitAnd => Wrapped ty (bitwise (fun _ => (· &&& ·)) ty x y) out
  | .bitOr => Wrapped ty (bitwise (fun _ => (· ||| ·)) ty x y) out
  | .bitXor => Wrapped ty (bitwise (fun _ => (· ^^^ ·)) ty x y) out
  | .shl => Wrapped ty (x * 2 ^ (y % ty.bits).toNat) out
  | .shr => Wrapped ty (x / 2 ^ (y % ty.bits).toNat) out
  | .lt => out = .ok (.bool (decide (x < y)))
  | .le => out = .ok (.bool (decide (x ≤ y)))
  | .gt => out = .ok (.bool (decide (y < x)))
  | .ge => out = .ok (.bool (decide (y ≤ x)))
  | .eq | .ne | .and | .or => False

/-- The operators that `int_binary` is called with. -/
def isIntBinary : Ast.BinOp → Bool
  | .eq | .ne | .and | .or => false
  | _ => true

/-- The operators whose result depends on more than the low bits of the operands. -/
def needsFit : Ast.BinOp → Bool
  | .div | .rem | .shr | .lt | .le | .gt | .ge => true
  | _ => false

section Numbers

variable {w : IntWidth} {signed : Bool}

theorem number_stored (b : BitVec w.bits) :
    number (stored w signed b) (intTyOf w signed) = if signed then b.toInt else b.toNat := by
  unfold number
  cases signed with
  | true => exact toInt_stored_signed b
  | false => exact congrArg Nat.cast (toNat_stored_unsigned b)

theorem fits_stored (b : BitVec w.bits) :
    Fits (intTyOf w signed) (number (stored w signed b) (intTyOf w signed)) := by
  rw [number_stored]
  cases signed with
  | true => exact ⟨BitVec.le_toInt b, BitVec.toInt_lt⟩
  | false =>
    have hlt : (b.toNat : Int) < 2 ^ w.bits := by exact_mod_cast b.isLt
    exact ⟨Int.natCast_nonneg _, hlt⟩

/-- The low bits of a payload are those of its number. -/
theorem setWidth_number {n : Nat} (hn : n ≤ 64) (v : BitVec 64) (ty : IntTy) :
    v.setWidth n = BitVec.ofInt n (number v ty) := by
  unfold number
  split
  · exact (ofInt_toInt_eq_setWidth hn v).symm
  · rw [BitVec.ofInt_natCast]
    exact (BitVec.ofNat_toNat n v).symm

theorem ofInt_number_stored (b : BitVec w.bits) :
    BitVec.ofInt w.bits (number (stored w signed b) (intTyOf w signed)) = b := by
  rw [← setWidth_number (bits_le w), setWidth_stored]

theorem emod_eq_of_ofInt_eq {n : Nat} {x y : Int} (h : BitVec.ofInt n x = BitVec.ofInt n y) :
    x % 2 ^ n = y % 2 ^ n := by
  have hnat := congrArg (fun b => (b.toNat : Int)) h
  have hpos : (0 : Int) < 2 ^ n := by positivity
  simp only [BitVec.toNat_ofInt] at hnat
  push_cast at hnat
  rwa [Int.toNat_of_nonneg (Int.emod_nonneg x hpos.ne'),
    Int.toNat_of_nonneg (Int.emod_nonneg y hpos.ne')] at hnat

/-- A stored payload with the low bits of the exact result. -/
theorem wrapped_stored {r : Int} {b : BitVec w.bits} (hb : b = BitVec.ofInt w.bits r) :
    Wrapped (intTyOf w signed) r (.ok (.int (stored w signed b) (intTyOf w signed))) := by
  refine ⟨_, rfl, fits_stored b, emod_eq_of_ofInt_eq ?_⟩
  rw [intTyOf_bits, ofInt_number_stored, hb]

theorem ofInt_fits_signed {x : Int} (h : Fits (intTyOf w true) x) :
    (BitVec.ofInt w.bits x).toInt = x := (toInt_ofInt_iff (bits_pos w) x).mpr h

theorem ofInt_fits_unsigned {x : Int} (h : Fits (intTyOf w false) x) :
    ((BitVec.ofInt w.bits x).toNat : Int) = x := by
  obtain ⟨hlo, hhi⟩ : 0 ≤ x ∧ x < 2 ^ w.bits := h
  rw [BitVec.toNat_ofInt]
  push_cast
  rw [Int.toNat_of_nonneg (Int.emod_nonneg x (by positivity)), Int.emod_eq_of_lt hlo hhi]

theorem toInt_of_fits {a : BitVec 64} {x : Int} (hx : 0 ≤ x) (h : a.toInt = x) :
    (a.toNat : Int) = x := by
  have hlt := a.isLt
  rw [BitVec.toInt_eq_toNat_cond] at h
  split at h
  · exact h
  · omega

/-- An operand in the range of the result's type is a stored payload of it. -/
theorem stored_of_fits {a : BitVec 64} {ta : IntTy} (h : Fits (intTyOf w signed) (number a ta))
    (hs : signed = true → ta.signed = true) :
    ∃ l : BitVec w.bits, a = stored w signed l ∧
      number a ta = if signed then l.toInt else l.toNat := by
  refine ⟨BitVec.ofInt w.bits (number a ta), ?_, ?_⟩
  · cases signed with
    | true =>
      have hn : number a ta = a.toInt := by rw [number, if_pos (hs rfl)]
      apply BitVec.eq_of_toInt_eq
      rw [toInt_stored_signed, ofInt_fits_signed h, hn]
    | false =>
      have hnat : (a.toNat : Int) = number a ta := by
        by_cases hta : ta.signed = true
        · have hn : number a ta = a.toInt := by rw [number, if_pos hta]
          exact toInt_of_fits h.1 hn.symm
        · rw [number, if_neg hta]
      apply BitVec.eq_of_toNat_eq
      have hlow := ofInt_fits_unsigned h
      rw [toNat_stored_unsigned]
      omega
  · cases signed with
    | true => exact (ofInt_fits_signed h).symm
    | false => exact (ofInt_fits_unsigned h).symm

theorem operandU64_eq (a : BitVec 64) :
    operandU64 a (intTyOf w signed) = (a.setWidth w.bits).toNat := by
  have hle := bits_le w
  rw [BitVec.toNat_setWidth]
  unfold operandU64
  split
  · rename_i hw
    change w.bits ≥ 64 at hw
    rw [show w.bits = 64 by omega, Nat.mod_eq_of_lt a.isLt]
  · rfl

theorem meets_result {ta tb : IntTy} (h : Meets ta tb) (ha : ∃ w s, ta = intTyOf w s)
    (hb : ∃ w s, tb = intTyOf w s) :
    ∃ w s, combineIntTy ta tb = intTyOf w s ∧
      (s = true → ta.signed = true ∧ tb.signed = true) := by
  rcases h with rfl | rfl | rfl
  · obtain ⟨w, s, rfl⟩ := ha
    exact ⟨w, s, combineIntTy_self _, fun hs => ⟨hs, hs⟩⟩
  · obtain ⟨w, s, rfl⟩ := ha
    refine ⟨w, s, ?_, fun hs => ⟨hs, rfl⟩⟩
    by_cases h : intTyOf w s = IntTy.word
    · rw [h, combineIntTy_self]
    · rw [combineIntTy, if_neg h, if_pos ⟨h, rfl⟩]
  · obtain ⟨w, s, rfl⟩ := hb
    refine ⟨w, s, ?_, fun hs => ⟨rfl, hs⟩⟩
    by_cases h : intTyOf w s = IntTy.word
    · rw [h, combineIntTy_self]
    · rw [combineIntTy, if_neg (Ne.symm h), if_neg fun h' => h'.1 rfl, if_pos ⟨rfl, h⟩]

end Numbers

section Operators

variable {w : IntWidth} {s : Bool} {a b : BitVec 64} {ta tb : IntTy}

theorem number_signed {v : BitVec 64} {ty : IntTy} (h : ty.signed = true) :
    number v ty = v.toInt := if_pos h

theorem trapping_guarded (r : Int) (what : String) :
    Guarded (intTyOf w true) r r (trapping r what (intTyOf w true)) := by
  have hw : (wrapTo r (intTyOf w true)).toInt = (BitVec.ofInt w.bits r).toInt := by
    rw [wrapTo_eq, toInt_stored_signed]
  unfold trapping
  rw [hw]
  by_cases h : (BitVec.ofInt w.bits r).toInt = r
  · rw [if_neg (not_not.mpr h), wrapTo_eq]
    exact .inr ⟨fun _ => (toInt_ofInt_iff (bits_pos w) r).mp h, wrapped_stored rfl⟩
  · rw [if_pos h]
    exact .inl ⟨rfl, fun hfits => h (ofInt_fits_signed hfits), what, rfl⟩

theorem store_wrapped {r : Int} {n : Nat} (h : BitVec.ofNat w.bits n = BitVec.ofInt w.bits r) :
    Wrapped (intTyOf w false) r (.ok (storeUnsigned n (intTyOf w false))) := by
  rw [storeUnsigned_eq]
  exact wrapped_stored h

theorem guarded_unsigned {q r : Int} {out : Except RunError Value}
    (h : Wrapped (intTyOf w false) r out) : Guarded (intTyOf w false) q r out :=
  .inr ⟨fun hs => Bool.noConfusion hs, h⟩

theorem wrap_wrapped {r : Int} {v : BitVec 64} (h : v.setWidth w.bits = BitVec.ofInt w.bits r) :
    Wrapped (intTyOf w s) r (.ok (.int (wrapTo v.toInt (intTyOf w s)) (intTyOf w s))) := by
  rw [wrapTo_toInt]
  exact wrapped_stored h

variable (hty : combineIntTy ta tb = intTyOf w s)
  (hs : s = true → ta.signed = true ∧ tb.signed = true)

include hty hs

theorem add_exact : Exact .add (intTyOf w s) (number a ta) (number b tb)
    (intBinary .add a ta b tb) := by
  show Guarded _ _ _ _
  simp only [intBinary, hty, intTyOf_signed]
  cases s with
  | true =>
    obtain ⟨ha, hb⟩ := hs rfl
    rw [if_pos rfl, number_signed ha, number_signed hb]
    exact trapping_guarded _ _
  | false =>
    rw [if_neg Bool.false_ne_true]
    refine guarded_unsigned (store_wrapped ?_)
    rw [wrappingAddU128, ofNat_mod_u128 (bits_le w), BitVec.ofNat_add, operandU64_eq, operandU64_eq,
      BitVec.ofNat_toNat, BitVec.ofNat_toNat, BitVec.setWidth_eq, BitVec.setWidth_eq,
      setWidth_number (bits_le w) a ta, setWidth_number (bits_le w) b tb, BitVec.ofInt_add]

theorem sub_exact : Exact .sub (intTyOf w s) (number a ta) (number b tb)
    (intBinary .sub a ta b tb) := by
  show Guarded _ _ _ _
  simp only [intBinary, hty, intTyOf_signed]
  cases s with
  | true =>
    obtain ⟨ha, hb⟩ := hs rfl
    rw [if_pos rfl, number_signed ha, number_signed hb]
    exact trapping_guarded _ _
  | false =>
    rw [if_neg Bool.false_ne_true]
    refine guarded_unsigned (store_wrapped ?_)
    rw [operandU64_eq, operandU64_eq, ofNat_wrappingSub (bits_le w) (b.setWidth w.bits).isLt,
      BitVec.ofNat_toNat, BitVec.ofNat_toNat, BitVec.setWidth_eq, BitVec.setWidth_eq,
      setWidth_number (bits_le w) a ta, setWidth_number (bits_le w) b tb, Int.sub_eq_add_neg,
      BitVec.ofInt_add, BitVec.ofInt_neg, BitVec.sub_eq_add_neg]

theorem mul_exact : Exact .mul (intTyOf w s) (number a ta) (number b tb)
    (intBinary .mul a ta b tb) := by
  show Guarded _ _ _ _
  simp only [intBinary, hty, intTyOf_signed]
  cases s with
  | true =>
    obtain ⟨ha, hb⟩ := hs rfl
    rw [if_pos rfl, number_signed ha, number_signed hb]
    exact trapping_guarded _ _
  | false =>
    rw [if_neg Bool.false_ne_true]
    refine guarded_unsigned (store_wrapped ?_)
    rw [wrappingMulU128, ofNat_mod_u128 (bits_le w), BitVec.ofNat_mul, operandU64_eq, operandU64_eq,
      BitVec.ofNat_toNat, BitVec.ofNat_toNat, BitVec.setWidth_eq, BitVec.setWidth_eq,
      setWidth_number (bits_le w) a ta, setWidth_number (bits_le w) b tb, BitVec.ofInt_mul]

omit hs in
theorem bitwise_exact :
    Exact .bitAnd (intTyOf w s) (number a ta) (number b tb) (intBinary .bitAnd a ta b tb) ∧
      Exact .bitOr (intTyOf w s) (number a ta) (number b tb) (intBinary .bitOr a ta b tb) ∧
      Exact .bitXor (intTyOf w s) (number a ta) (number b tb) (intBinary .bitXor a ta b tb) := by
  have ha := setWidth_number (bits_le w) a ta
  have hb := setWidth_number (bits_le w) b tb
  simp only [intBinary, hty]
  refine ⟨wrap_wrapped ?_, wrap_wrapped ?_, wrap_wrapped ?_⟩
  · rw [BitVec.setWidth_and, ha, hb, bitwise, intTyOf_bits, BitVec.ofInt_toInt]
  · rw [BitVec.setWidth_or, ha, hb, bitwise, intTyOf_bits, BitVec.ofInt_toInt]
  · rw [BitVec.setWidth_xor, ha, hb, bitwise, intTyOf_bits, BitVec.ofInt_toInt]

end Operators

section Fitting

variable {w : IntWidth} {s : Bool} {a b : BitVec 64} {ta tb : IntTy}

/-- The only quotient of numbers in range that leaves it. -/
theorem tdiv_fits_iff {n : Nat} {x y : Int} (hx : -(2 ^ n) ≤ x ∧ x < 2 ^ n) (hy : y ≠ 0) :
    (-(2 ^ n) ≤ x.tdiv y ∧ x.tdiv y < 2 ^ n) ↔ ¬(x = -(2 ^ n) ∧ y = -1) := by
  have hpos : (0 : Int) < 2 ^ n := by positivity
  by_cases hneg : y = -1
  · rw [hneg, Int.tdiv_neg, Int.tdiv_one]
    constructor
    · intro h hmin
      omega
    · intro h
      have hne : x ≠ -(2 ^ n) := fun hmin => h ⟨hmin, rfl⟩
      omega
  · have hno : ¬(x = -(2 ^ n) ∧ y = -1) := fun h => hneg h.2
    refine ⟨fun _ => hno, fun _ => ?_⟩
    by_cases hone : y = 1
    · rw [hone, Int.tdiv_one]
      exact hx
    · have habs : (x.tdiv y).natAbs = x.natAbs / y.natAbs := Int.natAbs_tdiv x y
      have htwo : 2 ≤ y.natAbs := by omega
      have hhalf : x.natAbs / y.natAbs ≤ x.natAbs / 2 := Nat.div_le_div_left htwo (by decide)
      omega

theorem shiftAmount_number (b : BitVec 64) (tb : IntTy) :
    shiftAmount b (intTyOf w s) = (number b tb % w.bits).toNat := by
  obtain ⟨k, hk⟩ := bits_two_pow w
  have hle : k ≤ 6 := by
    by_contra h
    have hh := Nat.pow_le_pow_right (show 0 < 2 by decide) (show 7 ≤ k by omega)
    have hb := bits_le w
    omega
  have hnat : b.toNat % 2 ^ 32 &&& (w.bits - 1) = b.toNat % w.bits := by
    rw [hk, Nat.and_two_pow_sub_one_eq_mod, Nat.mod_mod_of_dvd _ (pow_dvd_pow 2 (by omega))]
  obtain ⟨c, hc⟩ : (w.bits : Int) ∣ 2 ^ 64 := by cases w <;> decide
  have hmod : number b tb % w.bits = (b.toNat : Int) % w.bits := by
    unfold number
    split
    · rw [BitVec.toInt_eq_toNat_cond]
      split
      · rfl
      · rw [show ((2 ^ 64 : Nat) : Int) = w.bits * c from hc, Int.sub_mul_emod_self_left]
    · rfl
  rw [shiftAmount, intTyOf_bits, hnat, hmod]
  exact_mod_cast (Int.toNat_natCast _).symm

/-- A guarded division: `x.tdiv y` decides about the trap, `res` is the result. -/
theorem guarded_exact {l r : BitVec w.bits} (hr : r ≠ 0) {x y res sres : Int} {ures : Nat}
    (what : String) (hx : x = if s then l.toInt else l.toNat)
    (hy : y = if s then r.toInt else r.toNat) (hres : s = true → sres = res)
    (hu : s = false → res = ures) :
    Guarded (intTyOf w s) (x.tdiv y) res
      (if s = true then
        if l.toInt = -(2 ^ (w.bits - 1)) ∧ r.toInt = -1 then .error (.overflow what)
        else .ok (.int (wrapTo sres (intTyOf w s)) (intTyOf w s))
      else .ok (storeUnsigned ures (intTyOf w s))) := by
  cases s with
  | true =>
    have h0 : (0 : BitVec w.bits).toInt = 0 := BitVec.toInt_zero
    have hlx : l.toInt = x := by rw [hx, if_pos rfl]
    have hry : r.toInt = y := by rw [hy, if_pos rfl]
    have hy0 : y ≠ 0 := by
      rw [← hry, ← h0]
      exact fun h => hr (BitVec.eq_of_toInt_eq h)
    have hrange : -(2 ^ (w.bits - 1)) ≤ x ∧ x < 2 ^ (w.bits - 1) := by
      rw [← hlx]
      exact ⟨BitVec.le_toInt l, BitVec.toInt_lt⟩
    have hfits := tdiv_fits_iff hrange hy0
    rw [if_pos rfl, hlx, hry, hres rfl]
    by_cases hmin : x = -(2 ^ (w.bits - 1)) ∧ y = -1
    · rw [if_pos hmin]
      exact .inl ⟨rfl, fun h => hfits.mp h hmin, what, rfl⟩
    · rw [if_neg hmin, wrapTo_eq]
      exact .inr ⟨fun _ => hfits.mpr hmin, wrapped_stored rfl⟩
  | false =>
    rw [if_neg Bool.false_ne_true, hu rfl]
    exact guarded_unsigned (store_wrapped (BitVec.ofInt_natCast _ _).symm)

theorem number_eq_zero_iff {r : BitVec w.bits} {y : Int}
    (hy : y = if s then r.toInt else r.toNat) : y = 0 ↔ r = 0 := by
  rw [hy]
  cases s with
  | true =>
    have h0 : (0 : BitVec w.bits).toInt = 0 := BitVec.toInt_zero
    rw [if_pos rfl, ← BitVec.toInt_inj, h0]
  | false =>
    rw [if_neg Bool.false_ne_true, Int.natCast_eq_zero, ← BitVec.toNat_inj]
    rfl

variable (hty : combineIntTy ta tb = intTyOf w s)
  (hs : s = true → ta.signed = true ∧ tb.signed = true)

include hty

theorem shl_exact : Exact .shl (intTyOf w s) (number a ta) (number b tb)
    (intBinary .shl a ta b tb) := by
  simp only [intBinary, hty]
  refine wrap_wrapped ?_
  have hpow : BitVec.twoPow w.bits (number b tb % w.bits).toNat =
      BitVec.ofInt w.bits (2 ^ (number b tb % w.bits).toNat) := by
    apply BitVec.eq_of_toNat_eq
    rw [BitVec.toNat_twoPow, BitVec.toNat_ofInt]
    exact_mod_cast (Int.toNat_natCast _).symm
  rw [BitVec.setWidth_shiftLeft_of_le (bits_le w), shiftAmount_number b tb,
    setWidth_number (bits_le w) a ta, BitVec.shiftLeft_eq_mul_twoPow, hpow, ← BitVec.ofInt_mul]
  rfl

include hs

theorem shr_exact (ha : Fits (intTyOf w s) (number a ta)) :
    Exact .shr (intTyOf w s) (number a ta) (number b tb) (intBinary .shr a ta b tb) := by
  obtain ⟨l, rfl, hl⟩ := stored_of_fits ha fun h => (hs h).1
  simp only [intBinary, hty, intTyOf_signed, shiftAmount_number b tb]
  refine wrap_wrapped ?_
  rw [intTyOf_bits, hl]
  generalize (number b tb % w.bits).toNat = k
  cases s with
  | true =>
    rw [if_pos rfl, if_pos rfl, ← ofInt_toInt_eq_setWidth (bits_le w), BitVec.toInt_sshiftRight,
      toInt_stored_signed, Int.shiftRight_eq_div_pow]
    rfl
  | false =>
    rw [if_neg Bool.false_ne_true, if_neg Bool.false_ne_true, operandU64_stored,
      BitVec.setWidth_ofNat_of_le (bits_le w), Nat.shiftRight_eq_div_pow]
    rw [← BitVec.ofInt_natCast]
    push_cast
    rfl

omit hs in
theorem div_stored {l r : BitVec w.bits} (hne : stored w s r ≠ 0) :
    intBinary .div (stored w s l) ta (stored w s r) tb =
      if s = true then
        if l.toInt = -(2 ^ (w.bits - 1)) ∧ r.toInt = -1 then .error (.overflow "division")
        else .ok (.int (wrapTo (l.toInt.tdiv r.toInt) (intTyOf w s)) (intTyOf w s))
      else .ok (storeUnsigned (l.toNat / r.toNat) (intTyOf w s)) := by
  simp only [intBinary, hty, if_neg hne, intTyOf_signed, intTyOf_bits, operandU64_stored]
  cases s with
  | true => rw [toInt_stored_signed, toInt_stored_signed]
  | false => rfl

omit hs in
theorem rem_stored {l r : BitVec w.bits} (hne : stored w s r ≠ 0) :
    intBinary .rem (stored w s l) ta (stored w s r) tb =
      if s = true then
        if l.toInt = -(2 ^ (w.bits - 1)) ∧ r.toInt = -1 then .error (.overflow "remainder")
        else .ok (.int (wrapTo (l.toInt.tmod r.toInt) (intTyOf w s)) (intTyOf w s))
      else .ok (storeUnsigned (l.toNat % r.toNat) (intTyOf w s)) := by
  simp only [intBinary, hty, if_neg hne, intTyOf_signed, intTyOf_bits, operandU64_stored]
  cases s with
  | true => rw [toInt_stored_signed, toInt_stored_signed]
  | false => rfl

omit hs in
theorem host_division {op : Ast.BinOp} {l r : BitVec w.bits} (hop : op = .div ∨ op = .rem) :
    intBinaryHost op (stored w s l) ta (stored w s r) tb =
      some (intBinary op (stored w s l) ta (stored w s r) tb) := by
  have hhost : ¬(stored w s r ≠ 0 ∧ s = false ∧ operandU64 (stored w s r) (intTyOf w s) = 0) := by
    rintro ⟨hne, _, hzero⟩
    rw [operandU64_stored] at hzero
    exact hne (stored_eq_zero.mpr (BitVec.eq_of_toNat_eq hzero))
  rcases hop with rfl | rfl
  · simp only [intBinaryHost, hty, intTyOf_signed, if_neg hhost]
  · simp only [intBinaryHost, hty, intTyOf_signed, if_neg hhost]

theorem div_exact (ha : Fits (intTyOf w s) (number a ta)) (hb : Fits (intTyOf w s) (number b tb)) :
    ∃ out, intBinaryHost .div a ta b tb = some out ∧
      Exact .div (intTyOf w s) (number a ta) (number b tb) out := by
  obtain ⟨l, rfl, hl⟩ := stored_of_fits ha fun h => (hs h).1
  obtain ⟨r, rfl, hr⟩ := stored_of_fits hb fun h => (hs h).2
  refine ⟨_, host_division hty (.inl rfl), ?_⟩
  by_cases hr0 : r = 0
  · have hzero : intBinary .div (stored w s l) ta (stored w s r) tb = .error .divByZero := by
      simp only [intBinary, if_pos (stored_eq_zero.mpr hr0)]
    exact (if_pos ((number_eq_zero_iff hr).mpr hr0)).mpr hzero
  · refine (if_neg fun h => hr0 ((number_eq_zero_iff hr).mp h)).mpr ?_
    rw [div_stored hty fun h => hr0 (stored_eq_zero.mp h)]
    refine guarded_exact hr0 "division" hl hr ?_ ?_
    · rintro rfl
      rw [hl, hr, if_pos rfl, if_pos rfl]
    · rintro rfl
      rw [hl, hr, if_neg Bool.false_ne_true, if_neg Bool.false_ne_true, Int.ofNat_tdiv]

theorem rem_exact (ha : Fits (intTyOf w s) (number a ta)) (hb : Fits (intTyOf w s) (number b tb)) :
    ∃ out, intBinaryHost .rem a ta b tb = some out ∧
      Exact .rem (intTyOf w s) (number a ta) (number b tb) out := by
  obtain ⟨l, rfl, hl⟩ := stored_of_fits ha fun h => (hs h).1
  obtain ⟨r, rfl, hr⟩ := stored_of_fits hb fun h => (hs h).2
  refine ⟨_, host_division hty (.inr rfl), ?_⟩
  by_cases hr0 : r = 0
  · have hzero : intBinary .rem (stored w s l) ta (stored w s r) tb = .error .divByZero := by
      simp only [intBinary, if_pos (stored_eq_zero.mpr hr0)]
    exact (if_pos ((number_eq_zero_iff hr).mpr hr0)).mpr hzero
  · refine (if_neg fun h => hr0 ((number_eq_zero_iff hr).mp h)).mpr ?_
    rw [rem_stored hty fun h => hr0 (stored_eq_zero.mp h)]
    refine guarded_exact hr0 "remainder" hl hr ?_ ?_
    · rintro rfl
      rw [hl, hr, if_pos rfl, if_pos rfl]
    · rintro rfl
      rw [hl, hr, if_neg Bool.false_ne_true, if_neg Bool.false_ne_true, Int.ofNat_tmod]

theorem comparison_exact (ha : Fits (intTyOf w s) (number a ta))
    (hb : Fits (intTyOf w s) (number b tb)) {op : Ast.BinOp} (hop : op ∈ [.lt, .le, .gt, .ge]) :
    Exact op (intTyOf w s) (number a ta) (number b tb) (intBinary op a ta b tb) := by
  obtain ⟨l, rfl, hl⟩ := stored_of_fits ha fun h => (hs h).1
  obtain ⟨r, rfl, hr⟩ := stored_of_fits hb fun h => (hs h).2
  have hi := compare_decide l.toInt r.toInt
  have hn := compare_decide l.toNat r.toNat
  simp only [List.mem_cons, List.not_mem_nil, or_false] at hop
  rcases hop with rfl | rfl | rfl | rfl
  all_goals
    simp only [Exact, intBinary, hty, compareInt_stored, hl, hr]
    cases s with
    | true => simp only [if_true, hi]
    | false => simp only [Bool.false_eq_true, if_false, hn, Int.ofNat_lt, Int.ofNat_le]

end Fitting


end BetLang
