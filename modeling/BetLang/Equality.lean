import BetLang.CodegenInt
import BetLang.LlvmValue
import BetLang.Value
import Mathlib.Data.List.Basic

/-! The two implementations of `==` and `!=`: the comparisons codegen emits and the
interpreter's comparison of values. -/

namespace BetLang

namespace Codegen

open Ir Llvm

def floatPredicate (op : BinOp) : FloatPredicate :=
  match op with
  | .eq => .oeq
  | .ne => .one
  | .lt => .olt
  | .le => .ole
  | .gt => .ogt
  | _ => .oge

def comparisonName (op : BinOp) : String :=
  match op with
  | .eq => "Eq"
  | .ne => "Ne"
  | .lt => "Lt"
  | .le => "Le"
  | .gt => "Gt"
  | _ => "Ge"

/-- The comparison of one field; a field that is no integer and no float has none. -/
def lowerFieldEq (l r : Val) : Except String Bool :=
  match l, r with
  | .int w x, .int w' y =>
    if h : w' = w then .ok (icmp .eq x (y.cast h)) else .error "operands of different types"
  | .float x, .float y => .ok (fcmp 23 .oeq x y)
  | .double x, .double y => .ok (fcmp 52 .oeq x y)
  | _, _ => .error "equality on an aggregate with a non-scalar field"

/-- The fields are compared in order and the results are combined with `and`. -/
def lowerFieldsEq : Option Bool → List Val → List Val → Except String (Option Bool)
  | allEq, l :: ls, r :: rs => do
    let feq ← lowerFieldEq l r
    lowerFieldsEq (some (match allEq with
      | none => feq
      | some prev => prev && feq)) ls rs
  | allEq, _, _ => .ok allEq

def lowerAggEq (op : BinOp) (l r : List Val) : Except String Bool := do
  let wantEq ← match op with
    | .eq => .ok true
    | .ne => .ok false
    | _ => .error "only == / != are defined on aggregate (tag) operands"
  if sameTys (tys l) (tys r) then
    let allEq ← lowerFieldsEq none l r
    let allEq := allEq.getD true
    return if wantEq then allEq else !allEq
  else .error "equality on mismatched aggregate operands"

/-- `lower_binop` on a comparison: what the emitted code computes, or why there is none.
LLVM rejects two operands of different types. -/
def lowerCompare (op : BinOp) (signed : Bool) (l r : Val) : Except String Bool :=
  match l, r with
  | .int w x, .int w' y =>
    if h : w' = w then .ok (icmp (intPredicate op signed) x (y.cast h))
    else .error "operands of different types"
  | .float x, .float y => .ok (fcmp 23 (floatPredicate op) x y)
  | .double x, .double y => .ok (fcmp 52 (floatPredicate op) x y)
  | .vector elem _, .vector _ _ =>
    match elem with
    | .float | .double => .error s!"unsupported SIMD float operator {comparisonName op}"
    | _ => .error s!"unsupported SIMD int operator {comparisonName op}"
  | .struct ls, .struct rs => lowerAggEq op ls rs
  | _, _ => .error "binary op on non-scalar or mismatched operands"

end Codegen

namespace Interp

section

-- Whether two shared containers hold equal contents: their comparison goes through the heap.
variable (shared : Value → Value → Bool)

mutual

/-- The derived equality of values: an integer's type does not count. -/
def Value.same : Value → Value → Bool
  | .int a _, .int b _ => a == b
  | .float a, .float b => Ieee754.f64Eq a b
  | .byte a, .byte b => a == b
  | .bool a, .bool b => a == b
  | .str a, .str b => a == b
  | .ghosted, .ghosted => true
  | .array as, .array bs => sameValues as bs
  | .struct ty fs, .struct ty' gs => ty == ty' && sameFields fs gs
  | .variant mo n ps, .variant mo' n' qs => mo == mo' && n == n' && sameValues ps qs
  | .fn a, .fn b => a == b
  | .yikes a, .yikes b => a == b
  | .tag a s g, .tag a' s' g' => a == a' && s == s' && g == g'
  | .crib a, .crib b => a == b
  | .stash a, .stash b => shared (.stash a) (.stash b)
  | .vec a, .vec b => shared (.vec a) (.vec b)
  | .rng a, .rng b => shared (.rng a) (.rng b)
  | _, _ => false

def sameValues : List Value → List Value → Bool
  | [], [] => true
  | a :: as, b :: bs => a.same b && sameValues as bs
  | _, _ => false

/-- The fields of a map, in the order of their names. -/
def sameFields : List (String × Value) → List (String × Value) → Bool
  | [], [] => true
  | (k, a) :: fs, (k', b) :: gs => k == k' && a.same b && sameFields fs gs
  | _, _ => false

end

section

variable {shared}

@[simp] theorem same_int (a b : BitVec 64) (ty ty' : IntTy) :
    (Value.int a ty).same shared (.int b ty') = (a == b) := rfl

@[simp] theorem same_int_byte (a : BitVec 64) (ty : IntTy) (b : BitVec 8) :
    (Value.int a ty).same shared (.byte b) = false := rfl

@[simp] theorem same_byte_int (a : BitVec 8) (b : BitVec 64) (ty : IntTy) :
    (Value.byte a).same shared (.int b ty) = false := rfl

@[simp] theorem same_byte (a b : BitVec 8) :
    (Value.byte a).same shared (.byte b) = (a == b) := rfl

@[simp] theorem same_float (a b : BitVec 64) :
    (Value.float a).same shared (.float b) = Ieee754.f64Eq a b := rfl

@[simp] theorem same_bool (a b : Bool) :
    (Value.bool a).same shared (.bool b) = (a == b) := rfl

@[simp] theorem same_ghosted : Value.ghosted.same shared .ghosted = true := rfl

@[simp] theorem same_tag (a s a' s' : Nat) (g g' : BitVec 64) :
    (Value.tag a s g).same shared (.tag a' s' g') = (a == a' && s == s' && g == g') := rfl

@[simp] theorem same_tag_ghosted (a s : Nat) (g : BitVec 64) :
    (Value.tag a s g).same shared .ghosted = false := rfl

@[simp] theorem same_ghosted_tag (a s : Nat) (g : BitVec 64) :
    Value.ghosted.same shared (.tag a s g) = false := rfl

theorem same_struct (ty ty' : String) (fs gs : List (String × Value)) :
    (Value.struct ty fs).same shared (.struct ty' gs) = (ty == ty' && sameFields shared fs gs) := rfl

theorem same_variant (mo mo' n n' : String) (ps qs : List Value) :
    (Value.variant mo n ps).same shared (.variant mo' n' qs) =
      (mo == mo' && n == n' && sameValues shared ps qs) := rfl

end

/-- `ofInt` is the conversion of an integer to the nearest float. -/
def valuesEqual (ofInt : Int → BitVec 64) (l r : Value) : Bool :=
  match l, r with
  | .int a _, .float b => Ieee754.f64Eq (ofInt a.toInt) b
  | .float a, .int b _ => Ieee754.f64Eq a (ofInt b.toInt)
  | l, r => l.same shared r

end

end Interp

end BetLang
