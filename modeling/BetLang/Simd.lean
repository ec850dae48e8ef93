import BetLang.IntStorage

/-! Vectors of integers: the interpreter's `i64` lanes, the vector instructions that codegen emits,
and the operation of one lane at its own width and signedness. -/

namespace BetLang.Interp

/-- The integer case of `SimdVal`. The type of the lanes is not kept. -/
abbrev SimdVal := List (BitVec 64)

def intLane (op : Ast.BinOp) (x y : BitVec 64) : Except RunError (BitVec 64) :=
  match op with
  | .add => .ok (x + y)
  | .sub => .ok (x - y)
  | .mul => .ok (x * y)
  | .div => if y = 0 then .error .divByZero else .ok (x.sdiv y)
  | .rem => if y = 0 then .error .divByZero else .ok (x.srem y)
  | .bitAnd => .ok (x &&& y)
  | .bitOr => .ok (x ||| y)
  | .bitXor => .ok (x ^^^ y)
  | .shl => .ok (x <<< (y.toNat % 2 ^ 32 % 64))
  | .shr => .ok (x.sshiftRight (y.toNat % 2 ^ 32 % 64))
  | .or | .and | .eq | .ne | .lt | .le | .gt | .ge =>
    .error (.type "not an element-wise SIMD op")

def simdBinary (op : Ast.BinOp) (l r : SimdVal) : Except RunError SimdVal :=
  (l.zip r).mapM fun p => intLane op p.1 p.2

def valueToI64 : Value → Except RunError (BitVec 64)
  | .int v _ => .ok v
  | .byte b => .ok (b.setWidth 64)
  | .bool b => .ok (if b then 1 else 0)
  | other => .error (.type s!"cannot use {other.typeName} as a SIMD integer lane")

/-- `i32x4(a, b, c, d)`, or `i32x4(a)` for one value in every lane. -/
def buildSimd (lanes : Nat) (vals : List Value) : Except RunError SimdVal :=
  if vals.length = lanes then vals.mapM valueToI64
  else
    match vals with
    | [v] => (List.replicate lanes v).mapM valueToI64
    | vals => .error (.type
      s!"a {lanes}-lane vector takes {lanes} values or 1 to splat, got {vals.length}")

/-- The scalar operand of a binary operator, in every lane. -/
def splatLike (target : SimdVal) (s : Value) : Except RunError SimdVal := do
  return List.replicate target.length (← valueToI64 s)

def simdLane (sv : SimdVal) (i : Nat) : Except RunError Value :=
  match sv[i]? with
  | some x => .ok (.word x)
  | none => .error (.type s!"lane {i} out of range for a {sv.length}-lane vector")

def pick (isMin : Bool) (x y : BitVec 64) : BitVec 64 :=
  if isMin then if x.slt y then x else y
  else if y.slt x then x else y

def simdMinmax (isMin : Bool) (a b : SimdVal) : SimdVal := a.zipWith (pick isMin) b

def simdAbs (sv : SimdVal) : SimdVal := sv.map fun x => if x.slt 0 then -x else x

/-- `none`: there is no lane 0. -/
def simdReduceAdd : SimdVal → Option Value
  | [] => none
  | x :: xs => some (.word (xs.foldl (· + ·) x))

/-- `none`: a lane of `a` has none of `b` with it. -/
def simdDot : SimdVal → SimdVal → Option Value
  | x :: xs, y :: ys =>
    if xs.length ≤ ys.length then
      some (.word ((xs.zip ys).foldl (fun s p => s + p.1 * p.2) (x * y)))
    else none
  | _, _ => none

end BetLang.Interp

namespace BetLang.Codegen

open Llvm Ir

variable {w : Nat}

/-- What the instruction of `lower_vec_binop` does to a lane; other operators are not supported. -/
def vecInstr (op : BinOp) (signed : Bool) : Option (BitVec w → BitVec w → Outcome (BitVec w)) :=
  match op with
  | .add => some fun l r => .ok (l + r)
  | .sub => some fun l r => .ok (l - r)
  | .mul => some fun l r => .ok (l * r)
  | .div => some (if signed then sdiv else udiv)
  | .rem => some (if signed then srem else urem)
  | .bitAnd => some fun l r => .ok (l &&& r)
  | .bitOr => some fun l r => .ok (l ||| r)
  | .bitXor => some fun l r => .ok (l ^^^ r)
  | .shl => some shl
  | .shr => some (if signed then ashr else lshr)
  | .eq | .ne | .lt | .le | .gt | .ge => none

def lowerVecBinop (op : BinOp) (l r : List (BitVec w)) (signed : Bool) :
    Option (Outcome (List (BitVec w))) :=
  (vecInstr op signed).map fun instr => (l.zip r).mapM fun p => instr p.1 p.2

/-- `insertelement` and `shufflevector`. -/
def buildSplat (scalar : BitVec w) (n : Nat) : List (BitVec w) := List.replicate n scalar

/-- `extractelement`. -/
def lowerLane (v : List (BitVec w)) (i : Nat) : Outcome (BitVec w) :=
  match v[i]? with
  | some x => .ok x
  | none => .undef

def minmaxPredicate (wantMin signed : Bool) : IntPredicate :=
  match wantMin, signed with
  | true, true => .slt
  | true, false => .ult
  | false, true => .sgt
  | false, false => .ugt

def lowerMinmax (wantMin : Bool) (a b : List (BitVec w)) (signed : Bool) : List (BitVec w) :=
  a.zipWith (fun x y => if icmp (minmaxPredicate wantMin signed) x y then x else y) b

/-- The comparison is signed whatever the lanes are. -/
def lowerAbs (v : List (BitVec w)) : List (BitVec w) :=
  v.map fun x => if icmp .slt x 0 then 0 - x else x

def reduceAdd : List (BitVec w) → Outcome (BitVec w)
  | [] => .undef
  | x :: xs => .ok (xs.foldl (· + ·) x)

def lowerDot (a b : List (BitVec w)) : Outcome (BitVec w) := reduceAdd (a.zipWith (· * ·) b)

end BetLang.Codegen

namespace BetLang.Simd

open Ir Llvm

/-- A vector type with integer lanes. -/
structure SimdTy where
  width : IntWidth
  signed : Bool
  lanes : Nat
  bounds : 2 ≤ lanes ∧ lanes ≤ 4

abbrev Lane (t : SimdTy) := BitVec t.width.bits

structure Vec (t : SimdTy) where
  lanes : List (Lane t)
  size : lanes.length = t.lanes

def number {w : Nat} (signed : Bool) (x : BitVec w) : Int := if signed then x.toInt else x.toNat

def elementwise : Ast.BinOp → Bool
  | .add | .sub | .mul | .div | .rem | .bitAnd | .bitOr | .bitXor | .shl | .shr => true
  | .or | .and | .eq | .ne | .lt | .le | .gt | .ge => false

/-- The scalar operation of one lane before it wraps: shift counts are masked to the width. -/
def exact {w : Nat} (signed : Bool) (op : Ast.BinOp) (x y : BitVec w) : Except Interp.RunError Int :=
  match op with
  | .add => .ok (number signed x + number signed y)
  | .sub => .ok (number signed x - number signed y)
  | .mul => .ok (number signed x * number signed y)
  | .div => if y = 0 then .error .divByZero else .ok ((number signed x).tdiv (number signed y))
  | .rem => if y = 0 then .error .divByZero else .ok ((number signed x).tmod (number signed y))
  | .bitAnd => .ok (number signed (x &&& y))
  | .bitOr => .ok (number signed (x ||| y))
  | .bitXor => .ok (number signed (x ^^^ y))
  | .shl => .ok (number signed x * 2 ^ (y.toNat % w))
  | .shr => .ok (number signed x >>> (y.toNat % w))
  | .or | .and | .eq | .ne | .lt | .le | .gt | .ge =>
    .error (.type "not an element-wise SIMD op")

def magnitude (v : Int) : Int := if v < 0 then -v else v

/-- A value that the program has for the lane: an integer, or a byte literal. -/
inductive Holds (t : SimdTy) (x : Lane t) : Interp.Value → Prop
  | int (ty : Interp.IntTy) : Holds t x (.int (stored t.width t.signed x) ty)
  | byte (b : BitVec 8) (h : stored t.width t.signed x = b.setWidth 64) : Holds t x (.byte b)

theorem Vec.lane_lt {t : SimdTy} (v : Vec t) {i : Nat} (h : i < t.lanes) : i < v.lanes.length :=
  Nat.lt_of_lt_of_eq h v.size.symm

/-- A use of a vector. -/
inductive Call (t : SimdTy) where
  | build (vals : List Interp.Value) (v : Vec t) (holds : List.Forall₂ (Holds t) v.lanes vals)
  | splat (val : Interp.Value) (x : Lane t) (holds : Holds t x val)
  | binary (op : Ast.BinOp) (h : elementwise op = true) (a b : Vec t)
  | minmax (isMin : Bool) (a b : Vec t)
  | abs (v : Vec t)
  | sum (v : Vec t)
  | dot (a b : Vec t)
  | lane (v : Vec t) (i : Nat) (h : i < t.lanes)

inductive Out (α β : Type) where
  | vec (lanes : List α)
  | scalar (x : β)
  deriving DecidableEq

def total {t : SimdTy} (v : Vec t) : Int := v.lanes.foldr (fun x s => number t.signed x + s) 0

def dotTotal {t : SimdTy} (a b : Vec t) : Int :=
  (a.lanes.zip b.lanes).foldr (fun p s => number t.signed p.1 * number t.signed p.2 + s) 0

/-- Each lane by the scalar operation at its width and signedness, wrapped. -/
def spec {t : SimdTy} : Call t → Except Interp.RunError (Out (Lane t) (Lane t))
  | .build _ v _ => .ok (.vec v.lanes)
  | .splat _ x _ => .ok (.vec (List.replicate t.lanes x))
  | .binary op _ a b => do
    let lanes ← (a.lanes.zip b.lanes).mapM fun p => exact t.signed op p.1 p.2
    return .vec (lanes.map (BitVec.ofInt t.width.bits))
  | .minmax isMin a b =>
    .ok (.vec (a.lanes.zipWith (fun x y =>
      if isMin then if number t.signed x < number t.signed y then x else y
      else if number t.signed x > number t.signed y then x else y) b.lanes))
  | .abs v => .ok (.vec (v.lanes.map fun x => .ofInt _ (magnitude (number t.signed x))))
  | .sum v => .ok (.scalar (.ofInt _ (total v)))
  | .dot a b => .ok (.scalar (.ofInt _ (dotTotal a b)))
  | .lane v i h => .ok (.scalar (v.lanes.get ⟨i, v.lane_lt h⟩))

/-- The lanes as the interpreter holds them. -/
def Vec.held {t : SimdTy} (v : Vec t) : Interp.SimdVal := v.lanes.map (stored t.width t.signed)

/-- `none`: the interpreter panics. -/
def interp {t : SimdTy} : Call t → Option (Except Interp.RunError (Out (BitVec 64) Interp.Value))
  | .build vals _ _ => some do return .vec (← Interp.buildSimd t.lanes vals)
  | .splat val _ _ => some do return .vec (← Interp.buildSimd t.lanes [val])
  | .binary op _ a b => some do return .vec (← Interp.simdBinary op a.held b.held)
  | .minmax isMin a b => some (.ok (.vec (Interp.simdMinmax isMin a.held b.held)))
  | .abs v => some (.ok (.vec (Interp.simdAbs v.held)))
  | .sum v => (Interp.simdReduceAdd v.held).map fun x => .ok (.scalar x)
  | .dot a b => (Interp.simdDot a.held b.held).map fun x => .ok (.scalar x)
  | .lane v i _ => some do return .scalar (← Interp.simdLane v.held i)

/-- `none`: codegen does not support the operator. -/
def codegen {t : SimdTy} : Call t → Option (Outcome (Out (Lane t) (Lane t)))
  | .build _ v _ => some (.ok (.vec v.lanes))
  | .splat _ x _ => some (.ok (.vec (Codegen.buildSplat x t.lanes)))
  | .binary op _ a b => do
    let op ← Ast.mapBinop op
    let lanes ← Codegen.lowerVecBinop op a.lanes b.lanes t.signed
    return do return .vec (← lanes)
  | .minmax isMin a b => some (.ok (.vec (Codegen.lowerMinmax isMin a.lanes b.lanes t.signed)))
  | .abs v => some (.ok (.vec (Codegen.lowerAbs v.lanes)))
  | .sum v => some do return .scalar (← Codegen.reduceAdd v.lanes)
  | .dot a b => some do return .scalar (← Codegen.lowerDot a.lanes b.lanes)
  | .lane v i _ => some do return .scalar (← Codegen.lowerLane v.lanes i)

/-- The interpreter's result is the one of the specification. A scalar is read as an `int`. -/
inductive Shows (t : SimdTy) : Out (Lane t) (Lane t) → Out (BitVec 64) Interp.Value → Prop
  | vec (lanes : List (Lane t)) : Shows t (.vec lanes) (.vec (lanes.map (stored t.width t.signed)))
  | scalar (x : Lane t) (v : BitVec 64) (h : v.toInt = number t.signed x) :
    Shows t (.scalar x) (.scalar (.word v))

end BetLang.Simd
