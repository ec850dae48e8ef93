import BetLang.FloatOrder
import BetLang.Llvm

/-! LLVM's first-class values, and its comparison of floats. -/

namespace Llvm

mutual

def Ty.same : Ty → Ty → Bool
  | .int n, .int n' => n == n'
  | .float, .float => true
  | .double, .double => true
  | .ptr, .ptr => true
  | .struct fs, .struct fs' => sameTys fs fs'
  | .array e n, .array e' n' => e.same e' && n == n'
  | .vector e n, .vector e' n' => e.same e' && n == n'
  | _, _ => false

def sameTys : List Ty → List Ty → Bool
  | [], [] => true
  | t :: ts, t' :: ts' => t.same t' && sameTys ts ts'
  | _, _ => false

end

mutual

theorem Ty.same_self : ∀ t : Ty, t.same t = true
  | .int _ => by simp [Ty.same]
  | .float => rfl
  | .double => rfl
  | .ptr => rfl
  | .struct fs => by rw [Ty.same]; exact sameTys_self fs
  | .array e _ => by simp [Ty.same, Ty.same_self e]
  | .vector e _ => by simp [Ty.same, Ty.same_self e]

theorem sameTys_self : ∀ ts : List Ty, sameTys ts ts = true
  | [] => rfl
  | t :: ts => by simp [sameTys, Ty.same_self t, sameTys_self ts]

end

inductive Val where
  | int (bits : Nat) (v : BitVec bits)
  | float (v : BitVec 32)
  | double (v : BitVec 64)
  | ptr (address : BitVec 64)
  | struct (fields : List Val)
  | array (elem : Ty) (elems : List Val)
  | vector (elem : Ty) (lanes : List Val)

mutual

def Val.ty : Val → Ty
  | .int bits _ => .int bits
  | .float _ => .float
  | .double _ => .double
  | .ptr _ => .ptr
  | .struct fields => .struct (tys fields)
  | .array elem elems => .array elem elems.length
  | .vector elem lanes => .vector elem lanes.length

def tys : List Val → List Ty
  | [] => []
  | v :: vs => v.ty :: tys vs

end

theorem tys_eq_map (vs : List Val) : tys vs = vs.map Val.ty := by
  induction vs with
  | nil => rfl
  | cons v vs ih => rw [tys, ih, List.map_cons]

/-- The ordered predicates: false where an operand is NaN. -/
inductive FloatPredicate where
  | oeq | one | olt | ole | ogt | oge
  deriving DecidableEq, Repr

open Ieee754 in
def fcmp {w : Nat} (fracBits : Nat) (pred : FloatPredicate) (x y : BitVec w) : Bool :=
  match pred with
  | .oeq => ieeeEq fracBits x y
  | .one => !isNaN fracBits x && !isNaN fracBits y && !ieeeEq fracBits x y
  | .olt => ieeeLt fracBits x y
  | .ole => ieeeLe fracBits x y
  | .ogt => ieeeLt fracBits y x
  | .oge => ieeeLe fracBits y x

/-- Where no operand is NaN the two predicates are opposite. -/
theorem fcmp_one_eq_iff {w : Nat} (fracBits : Nat) (x y : BitVec w) :
    fcmp fracBits .one x y = !fcmp fracBits .oeq x y ↔
      Ieee754.isNaN fracBits x = false ∧ Ieee754.isNaN fracBits y = false := by
  cases hx : Ieee754.isNaN fracBits x <;> cases hy : Ieee754.isNaN fracBits y <;>
    simp [fcmp, Ieee754.ieeeEq, hx, hy]

end Llvm
