import BetLang.Ast
import BetLang.Llvm

/-! The integer instructions codegen emits, as what running them does. -/

namespace BetLang.Codegen

open Llvm Ir

/-- An integer value of width `w`, or the `i1` of a comparison. -/
inductive Scalar (w : Nat) where
  | int (v : BitVec w)
  | bool (b : Bool)
  deriving DecidableEq, Repr

variable {w : Nat}

def maskShiftAmount (amt : BitVec w) : BitVec w := amt &&& BitVec.ofNat w (w - 1)

/-- Trap on the overflow bit, else yield the result. -/
def checkedArith (agg : BitVec w × Bool) : Outcome (Scalar w) := do
  Outcome.guard agg.2 "arithmetic overflow"
  return .int agg.1

def guardDiv (l r : BitVec w) (signed : Bool) : Outcome Unit := do
  Outcome.guard (icmp .eq r 0) "divide by zero"
  if signed then
    let intMin := BitVec.ofNat w (2 ^ (w - 1))
    let negOne := BitVec.allOnes w
    Outcome.guard (icmp .eq l intMin && icmp .eq r negOne) "divide overflow"

def intPredicate (op : BinOp) (signed : Bool) : IntPredicate :=
  match op with
  | .eq => .eq
  | .ne => .ne
  | .lt => if signed then .slt else .ult
  | .le => if signed then .sle else .ule
  | .gt => if signed then .sgt else .ugt
  | _ => if signed then .sge else .uge

def lowerIntBinop (overflowChecks : Bool) (op : BinOp) (l r : BitVec w) (signed : Bool)
    (mode : ArithMode) : Outcome (Scalar w) :=
  let trap : Bool := mode = .trap ∧ overflowChecks
  match op with
  | .add =>
    if trap then checkedArith (if signed then saddWithOverflow l r else uaddWithOverflow l r)
    else .ok (.int (l + r))
  | .sub =>
    if trap then checkedArith (if signed then ssubWithOverflow l r else usubWithOverflow l r)
    else .ok (.int (l - r))
  | .mul =>
    if trap then checkedArith (if signed then smulWithOverflow l r else umulWithOverflow l r)
    else .ok (.int (l * r))
  | .div => do
    guardDiv l r signed
    let v ← (if signed then sdiv l r else udiv l r)
    return .int v
  | .rem => do
    guardDiv l r signed
    let v ← (if signed then srem l r else urem l r)
    return .int v
  | .bitAnd => .ok (.int (l &&& r))
  | .bitOr => .ok (.int (l ||| r))
  | .bitXor => .ok (.int (l ^^^ r))
  | .shl => do
    let v ← shl l (maskShiftAmount r)
    return .int v
  | .shr => do
    let v ← (if signed then ashr l (maskShiftAmount r) else lshr l (maskShiftAmount r))
    return .int v
  | .eq | .ne | .lt | .le | .gt | .ge => .ok (.bool (icmp (intPredicate op signed) l r))

/-- `lower_unop` on an integer: `sub 0, v` for negation, `xor v, -1` for both complements. -/
def lowerUnop (op : UnOp) (v : BitVec w) : BitVec w :=
  match op with
  | .neg => 0 - v
  | .not | .bitNot => ~~~v

/-- The integer cases of `lower_cast`; LLVM rejects an extension or truncation the wrong way. -/
def lowerCastInt {w : Nat} (v : BitVec w) (target : Nat) (kind : CastKind) :
    Outcome (BitVec target) :=
  match kind with
  | .intZext => if w < target then .ok (v.zeroExtend target) else .undef
  | .intSext => if w < target then .ok (v.signExtend target) else .undef
  | .intTrunc => if target < w then .ok (v.truncate target) else .undef
  | .bitcast => if h : w = target then .ok (v.cast h) else .undef
  | .intToFloat | .floatToInt | .floatResize => .undef

end BetLang.Codegen

namespace BetLang.Lower

open Ir

/-- `arith_mode` at an integer type. -/
def arithMode (signed : Bool) (op : BinOp) : ArithMode :=
  match op with
  | .add | .sub | .mul | .div | .rem => if signed then .trap else .wrap
  | _ => .na

/-- The integer case of `cast_kind`. -/
def castKindInt (sw : IntWidth) (ss : Bool) (dw : IntWidth) : CastKind :=
  if dw.bits > sw.bits then if ss then .intSext else .intZext
  else if dw.bits < sw.bits then .intTrunc
  else .bitcast

/-- The integer names of `named_type`. -/
def namedIntType : String → Option (IntWidth × Bool)
  | "int" => some (.w64, true)
  | "uint" => some (.w64, false)
  | "i8" => some (.w8, true)
  | "i16" => some (.w16, true)
  | "i32" => some (.w32, true)
  | "i64" => some (.w64, true)
  | "u8" => some (.w8, false)
  | "u16" => some (.w16, false)
  | "u32" => some (.w32, false)
  | "u64" => some (.w64, false)
  | _ => none

end BetLang.Lower
