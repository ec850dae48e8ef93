import BetLang.Simd
import BetLang.IntBinary

/-! One lane: where the untyped `i64` of the interpreter and the instruction of codegen give the
scalar operation at the lane's width. -/

namespace BetLang.Simd

open Ir Llvm Interp Codegen

variable {w : IntWidth} {signed : Bool}

section Numbers

def InRange (w : IntWidth) (signed : Bool) (v : Int) : Prop :=
  if signed then -(2 ^ (w.bits - 1)) ≤ v ∧ v < 2 ^ (w.bits - 1) else 0 ≤ v ∧ v < 2 ^ w.bits

/-- The `i64` after the operation is the lane after it. -/
def Keeps (w : IntWidth) (signed : Bool) (v : Int) : Prop := w = .w64 ∨ InRange w signed v

/-- The number is one of an `i64`: not an upper half of the `u64`. -/
def Small {n : Nat} (signed : Bool) (x : BitVec n) : Prop := number signed x < 2 ^ 63

theorem inRange_signed (v : Int) :
    InRange w true v ↔ -(2 ^ (w.bits - 1)) ≤ v ∧ v < 2 ^ (w.bits - 1) := Iff.rfl

theorem inRange_unsigned (v : Int) : InRange w false v ↔ 0 ≤ v ∧ v < 2 ^ w.bits := Iff.rfl

theorem number_inRange (x : BitVec w.bits) : InRange w signed (number signed x) := by
  cases signed with
  | true => exact ⟨BitVec.le_toInt x, BitVec.toInt_lt⟩
  | false =>
    have hlt : (x.toNat : Int) < 2 ^ w.bits := by exact_mod_cast x.isLt
    exact ⟨Int.natCast_nonneg _, hlt⟩

theorem ofInt_number {n : Nat} (x : BitVec n) : BitVec.ofInt n (number signed x) = x := by
  cases signed with
  | true => exact BitVec.ofInt_toInt
  | false =>
    have hcast : BitVec.ofInt n (x.toNat : Int) = BitVec.ofNat n x.toNat := BitVec.ofInt_natCast _ _
    exact hcast.trans (by rw [BitVec.ofNat_toNat, BitVec.setWidth_eq])

theorem number_ofInt {v : Int} (h : InRange w signed v) :
    number signed (BitVec.ofInt w.bits v) = v := by
  cases signed with
  | true => exact BitVec.toInt_ofInt_eq_self (bits_pos w) h.1 h.2
  | false =>
    have hpos : (0 : Int) < 2 ^ w.bits := by positivity
    have hnat : ((BitVec.ofInt w.bits v).toNat : Int) = v % 2 ^ w.bits := by
      rw [BitVec.toNat_ofInt]
      push_cast
      exact Int.toNat_of_nonneg (Int.emod_nonneg _ hpos.ne')
    exact hnat.trans (Int.emod_eq_of_lt h.1 h.2)

/-- The payload of a lane is its number. -/
theorem stored_eq (x : BitVec w.bits) :
    stored w signed x = BitVec.ofInt 64 (number signed x) := by
  cases signed with
  | true => rfl
  | false =>
    have hset : stored w false x = BitVec.ofNat 64 x.toNat := (BitVec.ofNat_toNat _ _).symm
    exact hset.trans (BitVec.ofInt_natCast _ _).symm

theorem stored_ofInt {v : Int} (h : Keeps w signed v) :
    stored w signed (BitVec.ofInt w.bits v) = BitVec.ofInt 64 v := by
  rcases h with rfl | h
  · cases signed with
    | true => exact BitVec.signExtend_eq _
    | false => exact BitVec.setWidth_eq _
  · rw [stored_eq, number_ofInt h]

/-- A lane's number below `2 ^ 63` is that of an `i64`. -/
theorem toInt_inRange {v : Int} (h : InRange w signed v) (hlt : v < 2 ^ 63) :
    (BitVec.ofInt 64 v).toInt = v := by
  refine BitVec.toInt_ofInt_eq_self (by decide) ?_ hlt
  cases signed with
  | true =>
    have hle := bits_le w
    have hpow : (2 : Int) ^ (w.bits - 1) ≤ 2 ^ 63 := pow_le_pow_right₀ (by decide) (by omega)
    have hlow := h.1
    omega
  | false =>
    have hlow := h.1
    omega

theorem toInt_stored {x : BitVec w.bits} (h : Small signed x) :
    (stored w signed x).toInt = number signed x := by
  rw [stored_eq]
  exact toInt_inRange (number_inRange x) h

end Numbers

section Interpreter

/-- What an operation leaves of a lane fits in the `i64` of the interpreter. -/
def LaneFits (w : IntWidth) (signed : Bool) (op : Ast.BinOp) (x y : BitVec w.bits) : Prop :=
  match op with
  | .add => Keeps w signed (number signed x + number signed y)
  | .sub => Keeps w signed (number signed x - number signed y)
  | .mul => Keeps w signed (number signed x * number signed y)
  | .div => y = 0 ∨ Small signed x ∧ Small signed y ∧
      Keeps w signed ((number signed x).tdiv (number signed y))
  | .rem => y = 0 ∨ Small signed x ∧ Small signed y
  | .shl => (w = .w64 ∨ y.toNat < w.bits) ∧
      Keeps w signed (number signed x * 2 ^ (y.toNat % w.bits))
  | .shr => (w = .w64 ∨ y.toNat < w.bits) ∧ Small signed x
  | _ => True

/-- The lane that the scalar operation yields, as the interpreter would hold it. -/
def heldExact (w : IntWidth) (signed : Bool) (op : Ast.BinOp) (x y : BitVec w.bits) :
    Except RunError (BitVec 64) :=
  (exact signed op x y).map fun v => stored w signed (BitVec.ofInt w.bits v)

theorem sdiv_eq_ofInt {n : Nat} (x y : BitVec n) :
    x.sdiv y = BitVec.ofInt n (x.toInt.tdiv y.toInt) := by
  apply BitVec.eq_of_toInt_eq
  rw [BitVec.toInt_sdiv, BitVec.toInt_ofInt]

theorem srem_eq_ofInt {n : Nat} (x y : BitVec n) :
    x.srem y = BitVec.ofInt n (x.toInt.tmod y.toInt) := by
  rw [← BitVec.toInt_srem, BitVec.ofInt_toInt]

theorem inRange_between {x v : Int} (h : InRange w signed x) (hv : 0 ≤ v) (hle : v ≤ x) :
    InRange w signed v := by
  have hpow : (0 : Int) < 2 ^ (w.bits - 1) := by positivity
  cases signed with
  | true =>
    rw [inRange_signed] at h ⊢
    omega
  | false =>
    rw [inRange_unsigned] at h ⊢
    omega

theorem inRange_between' {x v : Int} (h : InRange w signed x) (hv : v ≤ 0) (hle : x ≤ v) :
    InRange w signed v := by
  have hpow : (0 : Int) < 2 ^ (w.bits - 1) := by positivity
  cases signed with
  | true =>
    rw [inRange_signed] at h ⊢
    omega
  | false =>
    rw [inRange_unsigned] at h ⊢
    omega

theorem tmod_inRange {x : Int} (y : Int) (h : InRange w signed x) :
    InRange w signed (x.tmod y) := by
  have habs : (x.tmod y).natAbs ≤ x.natAbs := by
    rw [Int.natAbs_tmod]
    exact Nat.mod_le _ _
  rcases Int.le_total 0 x with hx | hx
  · have hnn := Int.tmod_nonneg y hx
    exact inRange_between h hnn (by omega)
  · have hnp : x.tmod y ≤ 0 := by
      have hneg := Int.tmod_nonneg y (Int.neg_nonneg_of_nonpos hx)
      rw [Int.neg_tmod] at hneg
      omega
    exact inRange_between' h hnp (by omega)

theorem shiftRight_between (x : Int) (k : Nat) :
    0 ≤ x >>> k ∧ x >>> k ≤ x ∨ x ≤ x >>> k ∧ x >>> k ≤ 0 := by
  have hpow : (0 : Int) < 2 ^ k := by positivity
  rw [Int.shiftRight_eq_div_pow]
  push_cast
  rcases Int.le_total 0 x with hx | hx
  · exact .inl ⟨by positivity, Int.ediv_le_self _ hx⟩
  · refine .inr ⟨Int.le_ediv_of_mul_le hpow ?_, Int.ediv_nonpos_of_nonpos_of_neg hx hpow⟩
    have hle : x * 2 ^ k ≤ x * 1 := mul_le_mul_of_nonpos_left (by omega) hx
    omega

theorem shiftRight_inRange {x : Int} (k : Nat) (h : InRange w signed x) :
    InRange w signed (x >>> k) := by
  rcases shiftRight_between x k with ⟨hnn, hle⟩ | ⟨hge, hnp⟩
  · exact inRange_between h hnn hle
  · exact inRange_between' h hnp hge

/-- The mask of an `i64` shift is that of the lane, as long as the count is below the width. -/
theorem shiftCount {y : BitVec w.bits} (h : w = .w64 ∨ y.toNat < w.bits) :
    (stored w signed y).toNat % 2 ^ 32 % 64 = y.toNat % w.bits := by
  rcases h with rfl | h
  · have hstored : stored .w64 signed y = y := by
      cases signed with
      | true => exact BitVec.signExtend_eq _
      | false => exact BitVec.setWidth_eq _
    rw [hstored]
    exact Nat.mod_mod_of_dvd _ (by decide)
  · have hle := bits_le w
    have hdouble : 2 * w.bits ≤ 2 ^ w.bits := by cases w <;> decide
    have hnumber : number signed y = (y.toNat : Int) := by
      cases signed with
      | true => exact BitVec.toInt_eq_toNat_of_lt (by omega)
      | false => rfl
    rw [stored_eq, hnumber, BitVec.ofInt_natCast, BitVec.toNat_ofNat]
    rw [Nat.mod_eq_of_lt (by omega), Nat.mod_eq_of_lt (by omega), Nat.mod_eq_of_lt (by omega),
      Nat.mod_eq_of_lt h]

theorem shiftLeft_eq_ofInt {n : Nat} (v : Int) (k : Nat) :
    BitVec.ofInt n v <<< k = BitVec.ofInt n (v * 2 ^ k) := by
  have hpow : BitVec.ofInt n (2 ^ k) = BitVec.twoPow n k := by
    apply BitVec.eq_of_toNat_eq
    rw [BitVec.toNat_twoPow, ← BitVec.toNat_ofNat, ← BitVec.ofInt_natCast]
    push_cast
    rfl
  rw [BitVec.shiftLeft_eq_mul_twoPow, BitVec.ofInt_mul, hpow]

theorem bitwise_held (x y : BitVec w.bits) :
    stored w signed x &&& stored w signed y = stored w signed (x &&& y) ∧
      stored w signed x ||| stored w signed y = stored w signed (x ||| y) ∧
      stored w signed x ^^^ stored w signed y = stored w signed (x ^^^ y) := by
  cases signed with
  | true =>
    exact ⟨BitVec.signExtend_and.symm, BitVec.signExtend_or.symm, BitVec.signExtend_xor.symm⟩
  | false => exact ⟨BitVec.setWidth_and.symm, BitVec.setWidth_or.symm, BitVec.setWidth_xor.symm⟩

theorem intLane_eq {op : Ast.BinOp} {x y : BitVec w.bits} (h : LaneFits w signed op x y) :
    intLane op (stored w signed x) (stored w signed y) = heldExact w signed op x y := by
  cases op with
  | add =>
    refine congrArg Except.ok (?_ : _ = stored w signed (BitVec.ofInt w.bits _))
    rw [stored_ofInt h, stored_eq, stored_eq, BitVec.ofInt_add]
  | sub =>
    refine congrArg Except.ok (?_ : _ = stored w signed (BitVec.ofInt w.bits _))
    rw [stored_ofInt h, stored_eq, stored_eq, Int.sub_eq_add_neg, BitVec.ofInt_add, BitVec.ofInt_neg,
      BitVec.sub_eq_add_neg]
  | mul =>
    refine congrArg Except.ok (?_ : _ = stored w signed (BitVec.ofInt w.bits _))
    rw [stored_ofInt h, stored_eq, stored_eq, BitVec.ofInt_mul]
  | div =>
    rw [intLane, heldExact, exact]
    by_cases hy : y = 0
    · rw [if_pos hy, if_pos (stored_eq_zero.mpr hy)]
      rfl
    · obtain ⟨hx, hys, hk⟩ := h.resolve_left hy
      rw [if_neg hy, if_neg fun hz => hy (stored_eq_zero.mp hz), sdiv_eq_ofInt, toInt_stored hx,
        toInt_stored hys, ← stored_ofInt hk]
      rfl
  | rem =>
    rw [intLane, heldExact, exact]
    by_cases hy : y = 0
    · rw [if_pos hy, if_pos (stored_eq_zero.mpr hy)]
      rfl
    · obtain ⟨hx, hys⟩ := h.resolve_left hy
      have hk : Keeps w signed ((number signed x).tmod (number signed y)) :=
        .inr (tmod_inRange _ (number_inRange x))
      rw [if_neg hy, if_neg fun hz => hy (stored_eq_zero.mp hz), srem_eq_ofInt, toInt_stored hx,
        toInt_stored hys, ← stored_ofInt hk]
      rfl
  | bitAnd =>
    refine congrArg Except.ok (?_ : _ = stored w signed (BitVec.ofInt w.bits _))
    rw [ofInt_number]
    exact (bitwise_held x y).1
  | bitOr =>
    refine congrArg Except.ok (?_ : _ = stored w signed (BitVec.ofInt w.bits _))
    rw [ofInt_number]
    exact (bitwise_held x y).2.1
  | bitXor =>
    refine congrArg Except.ok (?_ : _ = stored w signed (BitVec.ofInt w.bits _))
    rw [ofInt_number]
    exact (bitwise_held x y).2.2
  | shl =>
    obtain ⟨hcount, hk⟩ := h
    refine congrArg Except.ok (?_ : _ = stored w signed (BitVec.ofInt w.bits _))
    rw [shiftCount hcount, stored_ofInt hk]
    rw [stored_eq]
    exact shiftLeft_eq_ofInt _ _
  | shr =>
    obtain ⟨hcount, hx⟩ := h
    refine congrArg Except.ok (?_ : _ = stored w signed (BitVec.ofInt w.bits _))
    have hk : Keeps w signed (number signed x >>> (y.toNat % w.bits)) :=
      .inr (shiftRight_inRange _ (number_inRange x))
    rw [shiftCount hcount, stored_ofInt hk, ← toInt_stored hx, ← BitVec.toInt_sshiftRight,
      BitVec.ofInt_toInt]
  | or => rfl
  | and => rfl
  | eq => rfl
  | ne => rfl
  | lt => rfl
  | le => rfl
  | gt => rfl
  | ge => rfl

end Interpreter

section Codegen

/-- The instruction has a defined result: it has no guard and no mask of its own. -/
def LaneDefined (signed : Bool) (op : Ast.BinOp) {n : Nat} (x y : BitVec n) : Prop :=
  match op with
  | .div | .rem => y ≠ 0 ∧ ¬(signed = true ∧ x = BitVec.intMin n ∧ y = BitVec.allOnes n)
  | .shl | .shr => y.toNat < n
  | _ => True

/-- The instruction gives the wrapped result of the scalar operation. -/
def Wraps (signed : Bool) (op : Ast.BinOp) {n : Nat} (x y : BitVec n)
    (instr : BitVec n → BitVec n → Outcome (BitVec n)) : Prop :=
  ∃ v, exact signed op x y = .ok v ∧ instr x y = .ok (BitVec.ofInt n v)

variable {n : Nat} {x y : BitVec n}

theorem udiv_eq_ofInt (x y : BitVec n) :
    x.udiv y = BitVec.ofInt n ((x.toNat : Int).tdiv y.toNat) := by
  have hdiv : (x.toNat : Int).tdiv y.toNat = ((x.toNat / y.toNat : Nat) : Int) := rfl
  rw [hdiv, BitVec.ofInt_natCast, ← BitVec.toNat_udiv, BitVec.ofNat_toNat, BitVec.setWidth_eq]
  rfl

theorem urem_eq_ofInt (x y : BitVec n) :
    x.umod y = BitVec.ofInt n ((x.toNat : Int).tmod y.toNat) := by
  have hmod : (x.toNat : Int).tmod y.toNat = ((x.toNat % y.toNat : Nat) : Int) := rfl
  rw [hmod, BitVec.ofInt_natCast, ← BitVec.toNat_umod, BitVec.ofNat_toNat, BitVec.setWidth_eq]
  rfl

theorem div_wraps (h : LaneDefined signed .div x y) :
    Wraps signed .div x y (if signed then sdiv else udiv) := by
  obtain ⟨hy, hmin⟩ := h
  refine ⟨_, if_neg hy, ?_⟩
  cases signed with
  | true =>
    have hdef : ¬(y = 0 ∨ x = BitVec.intMin n ∧ y = BitVec.allOnes n) :=
      fun hh => hh.elim hy fun hh => hmin ⟨rfl, hh⟩
    exact (if_neg hdef).trans (congrArg Outcome.ok (sdiv_eq_ofInt x y))
  | false => exact (if_neg hy).trans (congrArg Outcome.ok (udiv_eq_ofInt x y))

theorem rem_wraps (h : LaneDefined signed .rem x y) :
    Wraps signed .rem x y (if signed then srem else urem) := by
  obtain ⟨hy, hmin⟩ := h
  refine ⟨_, if_neg hy, ?_⟩
  cases signed with
  | true =>
    have hdef : ¬(y = 0 ∨ x = BitVec.intMin n ∧ y = BitVec.allOnes n) :=
      fun hh => hh.elim hy fun hh => hmin ⟨rfl, hh⟩
    exact (if_neg hdef).trans (congrArg Outcome.ok (srem_eq_ofInt x y))
  | false => exact (if_neg hy).trans (congrArg Outcome.ok (urem_eq_ofInt x y))

theorem shl_wraps (h : LaneDefined signed .shl x y) : Wraps signed .shl x y shl := by
  refine ⟨_, rfl, ?_⟩
  rw [Nat.mod_eq_of_lt h, ← shiftLeft_eq_ofInt, ofInt_number]
  exact if_neg (Nat.not_le.mpr h)

theorem shr_wraps (h : LaneDefined signed .shr x y) :
    Wraps signed .shr x y (if signed then ashr else lshr) := by
  have hlt : ¬y.toNat ≥ n := Nat.not_le.mpr h
  refine ⟨_, rfl, ?_⟩
  rw [Nat.mod_eq_of_lt h]
  cases signed with
  | true =>
    refine (if_neg hlt).trans (congrArg Outcome.ok ?_)
    rw [number, if_pos rfl, ← BitVec.toInt_sshiftRight, BitVec.ofInt_toInt]
  | false =>
    refine (if_neg hlt).trans (congrArg Outcome.ok ?_)
    have hshift : number false x >>> y.toNat = ((x.toNat >>> y.toNat : Nat) : Int) := rfl
    rw [hshift, BitVec.ofInt_natCast, ← BitVec.toNat_ushiftRight, BitVec.ofNat_toNat,
      BitVec.setWidth_eq]

/-- Every element-wise operator has its instruction. -/
theorem vecInstr_wraps {op : Ast.BinOp} (hop : elementwise op = true) :
    ∃ irop instr, Ast.mapBinop op = some irop ∧ vecInstr irop signed = some instr ∧
      ∀ x y : BitVec n, LaneDefined signed op x y → Wraps signed op x y instr := by
  cases op with
  | add =>
    refine ⟨_, _, rfl, rfl, fun x y _ => ⟨_, rfl, ?_⟩⟩
    rw [BitVec.ofInt_add, ofInt_number, ofInt_number]
  | sub =>
    refine ⟨_, _, rfl, rfl, fun x y _ => ⟨_, rfl, ?_⟩⟩
    rw [Int.sub_eq_add_neg, BitVec.ofInt_add, BitVec.ofInt_neg, ofInt_number, ofInt_number,
      ← BitVec.sub_eq_add_neg]
  | mul =>
    refine ⟨_, _, rfl, rfl, fun x y _ => ⟨_, rfl, ?_⟩⟩
    rw [BitVec.ofInt_mul, ofInt_number, ofInt_number]
  | div => exact ⟨_, _, rfl, rfl, fun x y => div_wraps⟩
  | rem => exact ⟨_, _, rfl, rfl, fun x y => rem_wraps⟩
  | bitAnd => exact ⟨_, _, rfl, rfl, fun x y _ => ⟨_, rfl, by rw [ofInt_number]⟩⟩
  | bitOr => exact ⟨_, _, rfl, rfl, fun x y _ => ⟨_, rfl, by rw [ofInt_number]⟩⟩
  | bitXor => exact ⟨_, _, rfl, rfl, fun x y _ => ⟨_, rfl, by rw [ofInt_number]⟩⟩
  | shl => exact ⟨_, _, rfl, rfl, fun x y => shl_wraps⟩
  | shr => exact ⟨_, _, rfl, rfl, fun x y => shr_wraps⟩
  | or => cases hop
  | and => cases hop
  | eq => cases hop
  | ne => cases hop
  | lt => cases hop
  | le => cases hop
  | gt => cases hop
  | ge => cases hop

end Codegen

end BetLang.Simd
