import BetLang.Ir
import BetLang.Llvm

/-! The LLVM types codegen gives to IR types. A by-value cycle of structs has no type: the
source recurses forever there, and the model runs out of `fuel`. -/

namespace BetLang.Codegen

open Ir

def tagTy : Llvm.Ty := .struct [.int 32, .int 32, .int 64]

def fatPtrTy : Llvm.Ty := .struct [.ptr, .int 64]

/-- How the word counts of the parts of a value are put together. -/
structure WordArith where
  sum : List Nat → Nat
  mul : Nat → Nat → Nat

/-- The counts are `u32`: a sum wraps in a release build, and a product saturates. -/
def WordArith.u32 : WordArith :=
  { sum := fun ws => ws.sum % 2 ^ 32, mul := fun w n => min (w * n) (2 ^ 32 - 1) }

def WordArith.exact : WordArith :=
  { sum := List.sum, mul := (· * ·) }

/-- The words of a variant's payload, as `words` counts each of its types. -/
def variantWords (ar : WordArith) (words : Ty → Except String Nat) (v : Variant) :
    Except String Nat := do
  return ar.sum (← v.payload.mapM words)

/-- The recursion of `ty_words`. -/
def wordsWith (ar : WordArith) (m : Module) : Nat → Ty → Except String Nat
  | 0, _ => .error "by-value recursion"
  | fuel + 1, ty =>
    match ty with
    | .void => .ok 0
    | .bool | .int _ _ | .f32 | .f64 | .rawPtr | .crib _ | .ref _ | .fnPtr _ _ | .map _ _
    | .vec _ | .rng => .ok 1
    | .tag _ | .str | .slice _ => .ok 2
    | .array elem n => do return ar.mul (← wordsWith ar m fuel elem) (n % 2 ^ 32)
    | .soa inner => wordsWith ar m fuel inner
    | .simd elem lanes => do return ar.mul (← wordsWith ar m fuel elem) lanes
    | .tuple elems => do return ar.sum (← elems.mapM fun t => wordsWith ar m fuel t)
    | .struct sid =>
      match m.structs[sid]? with
      | none => .error "bad struct id"
      | some d => do return ar.sum (← d.fields.mapM fun f => wordsWith ar m fuel f.ty)
    | .sum sid =>
      match m.sums[sid]? with
      | none => .error "bad sum id"
      | some d => do
        let ws ← d.variants.mapM fun v => variantWords ar (fun t => wordsWith ar m fuel t) v
        return ar.sum [1, ws.foldl max 0]

/-- `ty_words`: meant as an over-estimate of the 8-byte words of a value. -/
def tyWords (m : Module) (fuel : Nat) (ty : Ty) : Except String Nat :=
  wordsWith .u32 m fuel ty

def sumPayloadWords (m : Module) (fuel : Nat) (d : SumDef) : Except String Nat := do
  let ws ← d.variants.mapM fun v => variantWords .u32 (fun t => tyWords m fuel t) v
  return ws.foldl max 0

def sumLlvmTy (m : Module) (fuel : Nat) (d : SumDef) : Except String (List Llvm.Ty) := do
  let words ← sumPayloadWords m fuel d
  return if words = 0 then [.int 32] else [.int 32, .array (.int 64) words]

/-- The container under a `soa`: how each field is stored. -/
inductive SoaFieldKind where
  | array (n : Nat)
  | slice
  | vec
  deriving DecidableEq, Repr

def soaContainer : Ty → Except String (Ty × SoaFieldKind)
  | .array e n => .ok (e, .array n)
  | .slice e => .ok (e, .slice)
  | .vec e => .ok (e, .vec)
  | _ => .error "soa layout isn't implemented yet"

def basicTy (m : Module) : Nat → Ty → Except String Llvm.Ty
  | 0, _ => .error "by-value recursion"
  | fuel + 1, ty =>
    match ty with
    | .bool => .ok (.int 1)
    | .int width _ => .ok (.int width.bits)
    | .f32 => .ok .float
    | .f64 => .ok .double
    | .rawPtr => .ok .ptr
    | .tag _ => .ok tagTy
    | .crib _ | .ref _ | .fnPtr _ _ | .map _ _ | .vec _ | .rng => .ok .ptr
    | .struct sid =>
      match m.structs[sid]? with
      | none => .error "bad struct id"
      | some d => do
        let fields ← d.fields.mapM fun f => basicTy m fuel f.ty
        return .struct fields
    | .sum sid =>
      match m.sums[sid]? with
      | none => .error "bad sum id"
      | some d => do
        let fields ← sumLlvmTy m fuel d
        return .struct fields
    | .str | .slice _ => .ok fatPtrTy
    | .array elem n => do return .array (← basicTy m fuel elem) (n % 2 ^ 32)
    | .soa inner => do
      let (elem, kind) ← soaContainer inner
      match elem with
      | .struct sid =>
        match m.structs[sid]? with
        | none => .error "bad struct id"
        | some d => do
          let fields ← d.fields.mapM fun f =>
            match kind with
            | .array n => do return Llvm.Ty.array (← basicTy m fuel f.ty) (n % 2 ^ 32)
            | .slice => pure fatPtrTy
            | .vec => pure Llvm.Ty.ptr
          return .struct fields
      | _ => .error "soa element must be a drip"
    | .simd elem lanes => do
      match ← basicTy m fuel elem with
      | .int bits => return .vector (.int bits) lanes
      | .float => return .vector .float lanes
      | .double => return .vector .double lanes
      | _ => throw "simd element must be a scalar int/float"
    | .tuple elems => do
      let fields ← elems.mapM fun t => basicTy m fuel t
      return .struct fields
    | .void => .error "value type Void is not supported yet"

/-- A struct type's fields, for a `struct_gep`. -/
def structFields (m : Module) (fuel : Nat) (ty : Ty) : Except String (List Llvm.Ty) := do
  match ← basicTy m fuel ty with
  | .struct fields => return fields
  | _ => throw "not a struct type"

end BetLang.Codegen
