import BetLang.Ast
import BetLang.Value

/-! The interpreter's integer operators: `i128` and `u128` accumulators are exact integers,
re-wrapped into the width of the operands. -/

namespace BetLang.Interp

def IntTy.wider (a b : IntTy) : IntTy := if a.bits ≥ b.bits then a else b

def combineIntTy (a b : IntTy) : IntTy :=
  if a = b then a
  else if a ≠ IntTy.word ∧ b = IntTy.word then a
  else if a = IntTy.word ∧ b ≠ IntTy.word then b
  else a.wider b

/-- The payload reinterpreted as the unsigned value at the width of `ty`. -/
def operandU64 (a : BitVec 64) (ty : IntTy) : Nat :=
  if ty.bits ≥ 64 then a.toNat else a.toNat % 2 ^ ty.bits

def storeUnsigned (res : Nat) (ty : IntTy) : Value :=
  .int (if ty.bits ≥ 64 then BitVec.ofNat 64 res else BitVec.ofNat 64 (res % 2 ^ ty.bits)) ty

/-- `u128` subtraction. -/
def wrappingSubU128 (x y : Nat) : Nat := (x + 2 ^ 128 - y) % 2 ^ 128

def wrappingMulU128 (x y : Nat) : Nat := x * y % 2 ^ 128

def wrappingAddU128 (x y : Nat) : Nat := (x + y) % 2 ^ 128

/-- The signed accumulator: trap when re-wrapping loses part of the result. -/
def trapping (res : Int) (what : String) (ty : IntTy) : Except RunError Value :=
  if (wrapTo res ty).toInt ≠ res then .error (.overflow what) else .ok (.int (wrapTo res ty) ty)

def negInt (a : BitVec 64) (ty : IntTy) : Except RunError Value :=
  if ty.signed then trapping (-a.toInt) "negation" ty
  else .ok (storeUnsigned (wrappingSubU128 0 (operandU64 a ty)) ty)

/-- The shift amount `b as u32`, masked to the width. -/
def shiftAmount (b : BitVec 64) (ty : IntTy) : Nat := b.toNat % 2 ^ 32 &&& (ty.bits - 1)

/-- The comparison at the signedness of `ty`. -/
def compareInt (a b : BitVec 64) (ty : IntTy) : Ordering :=
  if ty.signed then compare a.toInt b.toInt else compare (operandU64 a ty) (operandU64 b ty)

/-- The arithmetic, bitwise and ordering operators; the four others are handled by `binaryOp`. -/
def intBinary (op : Ast.BinOp) (a : BitVec 64) (ta : IntTy) (b : BitVec 64) (tb : IntTy) :
    Except RunError Value :=
  let ty := combineIntTy ta tb
  match op with
  | .add =>
    if ty.signed then trapping (a.toInt + b.toInt) "addition" ty
    else .ok (storeUnsigned (wrappingAddU128 (operandU64 a ty) (operandU64 b ty)) ty)
  | .sub =>
    if ty.signed then trapping (a.toInt - b.toInt) "subtraction" ty
    else .ok (storeUnsigned (wrappingSubU128 (operandU64 a ty) (operandU64 b ty)) ty)
  | .mul =>
    if ty.signed then trapping (a.toInt * b.toInt) "multiplication" ty
    else .ok (storeUnsigned (wrappingMulU128 (operandU64 a ty) (operandU64 b ty)) ty)
  | .div =>
    if b = 0 then .error .divByZero
    else if ty.signed then
      if a.toInt = -(2 ^ (ty.bits - 1)) ∧ b.toInt = -1 then .error (.overflow "division")
      else .ok (.int (wrapTo (a.toInt.tdiv b.toInt) ty) ty)
    else .ok (storeUnsigned (operandU64 a ty / operandU64 b ty) ty)
  | .rem =>
    if b = 0 then .error .divByZero
    else if ty.signed then
      if a.toInt = -(2 ^ (ty.bits - 1)) ∧ b.toInt = -1 then .error (.overflow "remainder")
      else .ok (.int (wrapTo (a.toInt.tmod b.toInt) ty) ty)
    else .ok (storeUnsigned (operandU64 a ty % operandU64 b ty) ty)
  | .bitAnd => .ok (.int (wrapTo (a &&& b).toInt ty) ty)
  | .bitOr => .ok (.int (wrapTo (a ||| b).toInt ty) ty)
  | .bitXor => .ok (.int (wrapTo (a ^^^ b).toInt ty) ty)
  | .shl => .ok (.int (wrapTo (a <<< shiftAmount b ty).toInt ty) ty)
  | .shr =>
    let v := if ty.signed then a.sshiftRight (shiftAmount b ty)
      else BitVec.ofNat 64 (operandU64 a ty >>> shiftAmount b ty)
    .ok (.int (wrapTo v.toInt ty) ty)
  | .lt => .ok (.bool (compareInt a b ty == .lt))
  | .le => .ok (.bool (compareInt a b ty != .gt))
  | .gt => .ok (.bool (compareInt a b ty == .gt))
  | .ge => .ok (.bool (compareInt a b ty != .lt))
  | .eq | .ne | .and | .or => .error (.type "handled by binary_op")

/-- `binary_op` on two integers: equality ignores the declared types. -/
def binaryOpInt (op : Ast.BinOp) (a : BitVec 64) (ta : IntTy) (b : BitVec 64) (tb : IntTy) :
    Except RunError Value :=
  match op with
  | .eq => .ok (.bool (a == b))
  | .ne => .ok (.bool (a != b))
  | _ => intBinary op a ta b tb

/-- `unary_op` on an integer. -/
def unaryOpInt (op : Ast.UnOp) (a : BitVec 64) (ty : IntTy) : Except RunError Value :=
  match op with
  | .neg => negInt a ty
  | .bitNot => .ok (.int (wrapTo (-a.toInt - 1) ty) ty)
  | .not => .error (.type "cannot apply `Not` to int")

def intTy : String → Option IntTy
  | "i8" => some { bits := 8, signed := true }
  | "i16" => some { bits := 16, signed := true }
  | "i32" => some { bits := 32, signed := true }
  | "i64" => some IntTy.word
  | "int" => some IntTy.word
  | "u8" => some { bits := 8, signed := false }
  | "u16" => some { bits := 16, signed := false }
  | "u32" => some { bits := 32, signed := false }
  | "u64" => some { bits := 64, signed := false }
  | _ => none

/-- `cast` to an integer type; `trunc` is the saturating `f64 as i128` of a float operand. -/
def castInt (trunc : BitVec 64 → Int) (v : Value) (name : String) : Except RunError Value :=
  match intTy name with
  | none => .error (.unsupported s!"cast to {name}")
  | some ty =>
    match v with
    | .int v _ => .ok (Value.sized v.toInt ty)
    | .byte b => .ok (Value.sized b.toNat ty)
    | .float f => .ok (Value.sized (trunc f) ty)
    | .bool b => .ok (Value.sized b.toNat ty)
    | other => .error (.type s!"cannot cast {other.typeName} to {name}")

end BetLang.Interp
