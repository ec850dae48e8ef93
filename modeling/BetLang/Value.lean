import Mathlib.Algebra.Group.Int.Defs
import Mathlib.Algebra.Group.Nat.Defs
import Mathlib.Tactic.Common

/-! The interpreter's values and errors. An integer is an `i64` payload with its declared
width and signedness; the shared containers are addresses into the interpreter's heap. -/

namespace BetLang.Interp

structure IntTy where
  bits : Nat
  signed : Bool
  deriving DecidableEq, Repr

def IntTy.word : IntTy := { bits := 64, signed := true }

/-- Two's complement at the width of `ty`, held in the `i64` payload. -/
def wrapTo (v : Int) (ty : IntTy) : BitVec 64 :=
  if ty.bits ≥ 64 then BitVec.ofInt 64 v
  else
    let modulus : Int := 2 ^ ty.bits
    let m := v % modulus
    let m := if ty.signed ∧ m ≥ 2 ^ (ty.bits - 1) then m - modulus else m
    BitVec.ofInt 64 m

inductive Value where
  | int (v : BitVec 64) (ty : IntTy)
  | float (bits : BitVec 64)
  | byte (b : BitVec 8)
  | bool (b : Bool)
  | str (s : String)
  | ghosted
  | array (elems : List Value)
  | struct (ty : String) (fields : List (String × Value))
  | variant (moods name : String) (payload : List Value)
  | fn (name : String)
  | yikes (msg : String)
  | tag (arena slot : Nat) (generation : BitVec 64)
  | crib (id : Nat)
  | stash (addr : Nat)
  | vec (addr : Nat)
  | rng (addr : Nat)

inductive RunError where
  | noMain
  | undefined (name : String)
  | notCallable (name : String)
  | arity (what : String) (expected got : Nat)
  | destructure (expected got : Nat)
  | type (msg : String)
  | divByZero
  | overflow (msg : String)
  | unknownField (ty field : String)
  | nonExhaustive (msg : String)
  | yeet (v : Value)
  | unsupported (msg : String)
  | recursionLimit (depth : Nat)

/-- A default `int`: a literal, an intrinsic result, an index. -/
def Value.word (v : BitVec 64) : Value := .int v IntTy.word

def Value.sized (v : Int) (ty : IntTy) : Value := .int (wrapTo v ty) ty

def Value.typeName : Value → String
  | .int _ _ => "int"
  | .float _ => "float"
  | .byte _ => "byte"
  | .bool _ => "bool"
  | .str _ => "str"
  | .ghosted => "ghosted"
  | .array _ => "array"
  | .struct _ _ => "drip"
  | .variant _ _ _ => "moods"
  | .fn _ => "finna"
  | .yikes _ => "yikes"
  | .tag _ _ _ => "tag"
  | .crib _ => "crib"
  | .stash _ => "stash"
  | .vec _ => "vec"
  | .rng _ => "rng"

end BetLang.Interp
