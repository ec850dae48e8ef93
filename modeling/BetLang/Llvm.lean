import Mathlib.Algebra.Group.Int.Defs
import Mathlib.Algebra.Group.Nat.Defs
import Mathlib.Tactic.Common

/-! LLVM integer instructions over fixed-width vectors. A guarded program point can trap,
and an instruction outside its domain is undefined behaviour or poison, kept apart as `undef`. -/

namespace Llvm

inductive Outcome (α : Type) where
  | ok (a : α)
  | trap (msg : String)
  | undef
  deriving DecidableEq, Repr

namespace Outcome

variable {α β : Type}

def bind : Outcome α → (α → Outcome β) → Outcome β
  | ok a, f => f a
  | trap msg, _ => trap msg
  | undef, _ => undef

instance : Monad Outcome where
  pure := ok
  bind := bind

@[simp] theorem pure_eq (a : α) : (pure a : Outcome α) = ok a := rfl

@[simp] theorem ok_bind (a : α) (f : α → Outcome β) : (ok a >>= f) = f a := rfl

@[simp] theorem trap_bind (msg : String) (f : α → Outcome β) :
    ((trap msg : Outcome α) >>= f) = trap msg := rfl

@[simp] theorem undef_bind (f : α → Outcome β) : ((undef : Outcome α) >>= f) = undef := rfl

instance : LawfulMonad Outcome := LawfulMonad.mk' Outcome
  (fun x => by cases x <;> rfl) (fun _ _ => rfl) (fun x _ _ => by cases x <;> rfl)

/-- A conditional branch to a trap block. -/
def guard (cond : Bool) (msg : String) : Outcome Unit :=
  if cond then trap msg else ok ()

@[simp] theorem guard_false (msg : String) : guard false msg = ok () := rfl

@[simp] theorem guard_true (msg : String) : guard true msg = trap msg := rfl

end Outcome

variable {w : Nat}

def sdiv (x y : BitVec w) : Outcome (BitVec w) :=
  if y = 0 ∨ x = BitVec.intMin w ∧ y = BitVec.allOnes w then .undef else .ok (x.sdiv y)

def srem (x y : BitVec w) : Outcome (BitVec w) :=
  if y = 0 ∨ x = BitVec.intMin w ∧ y = BitVec.allOnes w then .undef else .ok (x.srem y)

def udiv (x y : BitVec w) : Outcome (BitVec w) :=
  if y = 0 then .undef else .ok (x.udiv y)

def urem (x y : BitVec w) : Outcome (BitVec w) :=
  if y = 0 then .undef else .ok (x.umod y)

def shl (x amt : BitVec w) : Outcome (BitVec w) :=
  if amt.toNat ≥ w then .undef else .ok (x <<< amt.toNat)

def lshr (x amt : BitVec w) : Outcome (BitVec w) :=
  if amt.toNat ≥ w then .undef else .ok (x >>> amt.toNat)

def ashr (x amt : BitVec w) : Outcome (BitVec w) :=
  if amt.toNat ≥ w then .undef else .ok (x.sshiftRight amt.toNat)

/-- `llvm.{s,u}{add,sub,mul}.with.overflow`: the wrapped result and the overflow bit. -/
def saddWithOverflow (x y : BitVec w) : BitVec w × Bool := (x + y, x.saddOverflow y)

def uaddWithOverflow (x y : BitVec w) : BitVec w × Bool := (x + y, x.uaddOverflow y)

def ssubWithOverflow (x y : BitVec w) : BitVec w × Bool := (x - y, x.ssubOverflow y)

def usubWithOverflow (x y : BitVec w) : BitVec w × Bool := (x - y, x.usubOverflow y)

def smulWithOverflow (x y : BitVec w) : BitVec w × Bool := (x * y, x.smulOverflow y)

def umulWithOverflow (x y : BitVec w) : BitVec w × Bool := (x * y, x.umulOverflow y)

inductive IntPredicate where
  | eq | ne | slt | ult | sle | ule | sgt | ugt | sge | uge
  deriving DecidableEq, Repr

def icmp (pred : IntPredicate) (x y : BitVec w) : Bool :=
  match pred with
  | .eq => x == y
  | .ne => x != y
  | .slt => x.slt y
  | .ult => x.ult y
  | .sle => x.sle y
  | .ule => x.ule y
  | .sgt => y.slt x
  | .ugt => y.ult x
  | .sge => y.sle x
  | .uge => y.ule x

/-- First-class types, as far as addressing looks at them. -/
inductive Ty where
  | int (bits : Nat)
  | float
  | double
  | ptr
  | struct (fields : List Ty)
  | array (elem : Ty) (n : Nat)
  | vector (elem : Ty) (n : Nat)
  deriving Repr

/-- The target's layout of types in memory. -/
structure DataLayout where
  allocSize : Ty → Nat
  fieldOffset : List Ty → Nat → Nat

/-- Memory as loads see it: an integer of any width, or a pointer, at an address. -/
structure Memory where
  loadInt : (bits : Nat) → BitVec 64 → BitVec bits
  loadPtr : BitVec 64 → BitVec 64

/-- The address a single-index `getelementptr` computes: the index is sign-extended (or
truncated) to pointer width and scaled by the element's size. -/
def gepIndex (size : Nat) (base : BitVec 64) (idx : BitVec w) : BitVec 64 :=
  base + idx.signExtend 64 * BitVec.ofNat 64 size

/-- A masked shift amount is in range, so a masked shift is never poison. -/
theorem toNat_and_mask_lt {k : Nat} (hk : w = 2 ^ k) (amt : BitVec w) :
    (amt &&& BitVec.ofNat w (w - 1)).toNat = amt.toNat % w := by
  have hlt : w - 1 < 2 ^ w := Nat.lt_of_le_of_lt (Nat.sub_le w 1) Nat.lt_two_pow_self
  rw [BitVec.toNat_and, BitVec.toNat_ofNat, Nat.mod_eq_of_lt hlt]
  rw [show w - 1 = 2 ^ k - 1 by rw [hk], Nat.and_two_pow_sub_one_eq_mod, ← hk]

end Llvm
