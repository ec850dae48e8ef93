import BetLang.Ir

/-! The validator's typing of places: a projection chain it rejects is an error, a constant
without an interned type has an open kind. -/

namespace BetLang.Validate

open Ir

def constKind : Const → Option Ty
  | .int _ ty => some ty
  | .float _ ty => some ty
  | .bool _ => some .bool
  | .str _ => some .str
  | .fnRef _ | .ghosted | .nullPtr => none

def badProj {α : Type} (detail : String) : Except String α := .error s!"bad projection: {detail}"

def badId {α : Type} (detail : String) : Except String α := .error s!"bad id: {detail}"

/-- The payload field of the variant a downcast selected. -/
def payloadKind (m : Module) (sid v i : Nat) : Except String Ty :=
  match m.sums[sid]? with
  | none => badId s!"sum #{sid}"
  | some d =>
    match d.variants[v]? with
    | none => badId s!"sum `{d.name}` variant #{v}"
    | some variant =>
      match variant.payload[i]? with
      | none => badProj s!"variant `{d.name}::{variant.name}` has no payload #{i}"
      | some t => .ok t

def structField (m : Module) (sid i : Nat) : Except String Ty :=
  match m.structs[sid]? with
  | none => badId s!"struct #{sid}"
  | some d =>
    match d.fields[i]? with
    | none => badProj s!"struct `{d.name}` has no field #{i}"
    | some f => .ok f.ty

/-- A field of a `soa` slice or vec bundle is the per-field container. -/
def soaFieldKind (m : Module) (inner : Ty) (i : Nat) : Except String Ty :=
  match inner with
  | .slice (.struct sid) => (structField m sid i).map .slice
  | .vec (.struct sid) => (structField m sid i).map .vec
  | .slice _ | .vec _ => badProj "soa field on a non-struct"
  | _ => badProj "field on soa"

def fieldKind (m : Module) (ty : Ty) (pending : Option (Nat × Nat)) (i : Nat) : Except String Ty :=
  match pending with
  | some (sid, v) => payloadKind m sid v i
  | none =>
    match ty with
    | .struct sid => structField m sid i
    | .tuple elems =>
      match elems[i]? with
      | none => badProj s!"tuple has no element #{i}"
      | some t => .ok t
    | .soa inner => soaFieldKind m inner i
    | _ => badProj "field access"

def indexKind : Ty → Except String Ty
  | .slice e => .ok e
  | .array e _ => .ok e
  | .soa (.slice e) => .ok e
  | .soa (.array e _) => .ok e
  | .soa (.vec e) => .ok e
  | _ => badProj "index"

mutual

def operandKind (m : Module) (func : Func) : Operand → Except String (Option Ty)
  | .const c => .ok (constKind c)
  | .copy place => (placeKind m func place).map some
  | .move place => (placeKind m func place).map some

def placeKind (m : Module) (func : Func) : Place → Except String Ty
  | .mk root proj =>
    match func.locals[root]? with
    | none => .error s!"bad local #{root}"
    | some d => walkKind m func none d.ty proj

/-- The loop of `place_kind`; an index operand is only required to be well formed itself. -/
def walkKind (m : Module) (func : Func) (pending : Option (Nat × Nat)) (ty : Ty) :
    List Proj → Except String Ty
  | [] => .ok ty
  | .field i :: rest => do walkKind m func none (← fieldKind m ty pending i) rest
  | .index idx :: rest => do
    let _ ← operandKind m func idx
    walkKind m func pending (← indexKind ty) rest
  | .deref :: rest =>
    match ty with
    | .ref e => walkKind m func pending e rest
    | _ => badProj "deref"
  | .downcast v :: rest =>
    match ty with
    | .sum sid => walkKind m func (some (sid, v)) ty rest
    | _ => badProj "downcast"

end

end BetLang.Validate
