import BetLang.CodegenTy

/-! Addressing places: the walk that emits address computations, as what running them does,
and the walk that only resolves types. -/

namespace BetLang.Codegen

open Ir
open Llvm (Outcome IntPredicate icmp gepIndex DataLayout Memory)

/-- Whether the address will be loaded from or stored to, or only taken. -/
inductive IndexMode where
  | access | addr
  deriving DecidableEq, Repr

/-- One executed index step: what the bounds check and the address computation were given. -/
structure IndexEvent where
  width : Nat
  signed : Bool
  idx : BitVec width
  len : BitVec 64
  base : BitVec 64
  stride : Nat
  mode : IndexMode
  result : Outcome (BitVec 64)

/-- Running emitted code: its outcome and the index steps it executed on the way. -/
structure Run (α : Type) where
  outcome : Outcome α
  events : List IndexEvent

namespace Run

variable {α β : Type}

def pure (a : α) : Run α := { outcome := .ok a, events := [] }

def bind (r : Run α) (f : α → Run β) : Run β :=
  match r.outcome with
  | .ok a => { outcome := (f a).outcome, events := r.events ++ (f a).events }
  | .trap msg => { outcome := .trap msg, events := r.events }
  | .undef => { outcome := .undef, events := r.events }

end Run

/-- `zext_to_i64`. -/
def zextToI64 {w : Nat} (v : BitVec w) : BitVec 64 := v.zeroExtend 64

def boundsCheck {w : Nat} (idx : BitVec w) (len : BitVec 64) (mode : IndexMode) : Outcome Unit :=
  let pred := match mode with
    | .access => IntPredicate.uge
    | .addr => IntPredicate.ugt
  Outcome.guard (icmp pred (zextToI64 idx) len) "index out of bounds"

/-- The check, then the element's address. -/
def checkedIndex {w : Nat} (signed : Bool) (idx : BitVec w) (len base : BitVec 64) (stride : Nat)
    (mode : IndexMode) : Run (BitVec 64) :=
  let result : Outcome (BitVec 64) := do
    boundsCheck idx len mode
    return gepIndex stride base idx
  { outcome := result
    events := [{ width := w, signed := signed, idx := idx, len := len, base := base,
                 stride := stride, mode := mode, result := result }] }

/-- What addressing reads: the module, the target, the memory and the frame. -/
structure Cx where
  m : Module
  fuel : Nat
  layout : DataLayout
  mem : Memory
  func : Func
  allocas : Nat → Option (BitVec 64)

def Cx.localTy (cx : Cx) (l : Nat) : Except String Ty :=
  match cx.func.locals[l]? with
  | some d => .ok d.ty
  | none => .error "bad local"

/-- An index operand: the width and signedness of its own type, and the code that reads it. -/
structure IndexOperand where
  width : Nat
  signed : Bool
  run : Run (BitVec width)

/-- The integer type of an index; any other value is rejected by `into_int_value`. -/
def indexWidth : Ty → Except String (Nat × Bool)
  | .int width signed => .ok (width.bits, signed)
  | .bool => .ok (1, false)
  | _ => .error "index operand is not an integer"

def lowerConstIndex : Const → Except String IndexOperand
  | .int v ty => do
    let (width, signed) ← indexWidth ty
    return { width := width, signed := signed, run := Run.pure (BitVec.ofInt width v) }
  | .bool b => .ok { width := 1, signed := false, run := Run.pure (BitVec.ofBool b) }
  | _ => .error "index operand is not an integer"

def structGep (cx : Cx) (fields : List Llvm.Ty) (ptr : Run (BitVec 64)) (i : Nat) :
    Except String (Run (BitVec 64)) :=
  if i < fields.length then
    .ok (ptr.bind fun p => Run.pure (p + BitVec.ofNat 64 (cx.layout.fieldOffset fields i)))
  else .error s!"bad field index {i}"

def variantPayload (cx : Cx) (sid v : Nat) : Except String (List Ty) :=
  match cx.m.sums[sid]? with
  | none => .error "bad sum id"
  | some d =>
    match d.variants[v]? with
    | none => .error "bad variant"
    | some variant => .ok variant.payload

/-- The payload field of a downcast sum: the active variant's natural layout. -/
def payloadField (cx : Cx) (sid v i : Nat) (ptr : Run (BitVec 64)) :
    Except String (Run (BitVec 64) × Ty) := do
  let payload ← variantPayload cx sid v
  let vps ← payload.mapM fun t => basicTy cx.m cx.fuel t
  let ptr ← structGep cx vps ptr i
  match payload[i]? with
  | some ty => return (ptr, ty)
  | none => throw s!"variant has no payload #{i}"

/-- A field of an aggregate: the LLVM struct to address in, and the field's type. -/
def aggregateField (cx : Cx) (ty : Ty) (i : Nat) : Except String (List Llvm.Ty × Ty) :=
  match ty with
  | .struct sid =>
    match cx.m.structs[sid]? with
    | none => .error "bad struct id"
    | some d =>
      match d.fields[i]? with
      | none => .error s!"struct `{d.name}` has no field #{i}"
      | some f => do return (← structFields cx.m cx.fuel ty, f.ty)
  | .tuple elems =>
    match elems[i]? with
    | none => .error s!"tuple has no element #{i}"
    | some t => do return (← structFields cx.m cx.fuel ty, t)
  | .soa inner => do return (← structFields cx.m cx.fuel ty, inner)
  | _ => .error "field projection on non-aggregate"

/-- Index an inline array at `ptr`. -/
def arrayElem (cx : Cx) (e : Ty) (n : Nat) (ptr : Run (BitVec 64)) (idx : IndexOperand)
    (mode : IndexMode) : Except String (Run (BitVec 64)) := do
  let stride := cx.layout.allocSize (← basicTy cx.m cx.fuel e)
  return ptr.bind fun base => idx.run.bind fun i =>
    checkedIndex idx.signed i (BitVec.ofNat 64 n) base stride mode

/-- Index the backing storage of the fat slice at `ptr`. -/
def sliceElem (cx : Cx) (e : Ty) (ptr : Run (BitVec 64)) (idx : IndexOperand) (mode : IndexMode) :
    Except String (Run (BitVec 64)) := do
  let stride := cx.layout.allocSize (← basicTy cx.m cx.fuel e)
  let offset := fun i => BitVec.ofNat 64 (cx.layout.fieldOffset [.ptr, .int 64] i)
  return ptr.bind fun fat => idx.run.bind fun i =>
    let len := cx.mem.loadInt 64 (fat + offset 1)
    let data := cx.mem.loadPtr (fat + offset 0)
    checkedIndex idx.signed i len data stride mode

/-- The element of a `soa` container that can be indexed. -/
def soaElemTy : Ty → Except String Ty
  | .array e _ => .ok e
  | .slice e => .ok e
  | _ => .error "soa index isn't implemented yet"

def soaFieldTy (m : Module) (inner : Ty) (j : Nat) : Except String Ty := do
  match ← soaElemTy inner with
  | .struct sid =>
    match m.structs[sid]? with
    | none => throw "bad struct id"
    | some d =>
      match d.fields[j]? with
      | none => throw "bad soa field"
      | some f => return f.ty
  | _ => throw "soa element must be a drip"

/-- `soa[i].field(j)`: field-array `j` of the transposed bundle first, then index `i`. -/
def soaElem (cx : Cx) (inner : Ty) (j : Nat) (ptr : Run (BitVec 64)) (idx : IndexOperand)
    (mode : IndexMode) : Except String (Run (BitVec 64) × Ty) := do
  let fty ← soaFieldTy cx.m inner j
  let fields ← structFields cx.m cx.fuel (.soa inner)
  let slot ← structGep cx fields ptr j
  let elem ← (match inner with
    | .array _ n => arrayElem cx fty n slot idx mode
    | _ => sliceElem cx fty slot idx mode)
  return (elem, fty)

mutual

def lowerIndexOperand (cx : Cx) : Operand → Except String IndexOperand
  | .const c => lowerConstIndex c
  | .copy place => loadIndex cx place
  | .move place => loadIndex cx place

def loadIndex (cx : Cx) : Place → Except String IndexOperand
  | .mk root proj => do
    let some alloca := cx.allocas root | throw "addressing a void/zero-sized local"
    let (ptr, ty) ← walkPtr cx .access none (Run.pure alloca) (← cx.localTy root) proj
    let (width, signed) ← indexWidth ty
    return { width := width, signed := signed,
             run := ptr.bind fun p => Run.pure (cx.mem.loadInt width p) }

/-- The loop of `place_ptr`; `pending` is the sum variant a downcast selected. -/
def walkPtr (cx : Cx) (mode : IndexMode) (pending : Option (Nat × Nat)) (ptr : Run (BitVec 64))
    (ty : Ty) : List Proj → Except String (Run (BitVec 64) × Ty)
  | [] => .ok (ptr, ty)
  | .deref :: rest =>
    match ty with
    | .ref e => walkPtr cx mode pending (ptr.bind fun p => Run.pure (cx.mem.loadPtr p)) e rest
    | _ => .error "deref of non-ref"
  | .field i :: rest =>
    match pending with
    | some (sid, v) => do
      let (ptr, ty) ← payloadField cx sid v i ptr
      walkPtr cx mode none ptr ty rest
    | none => do
      let (fields, fty) ← aggregateField cx ty i
      let ptr ← structGep cx fields ptr i
      walkPtr cx mode none ptr fty rest
  | .downcast v :: rest =>
    match ty with
    | .sum sid => do
      let some d := cx.m.sums[sid]? | throw "bad sum id"
      let fields ← sumLlvmTy cx.m cx.fuel d
      let ptr ← structGep cx fields ptr 1
      walkPtr cx mode (some (sid, v)) ptr ty rest
    | _ => .error "downcast of non-sum"
  | .index op :: rest => do
    let idx ← lowerIndexOperand cx op
    match ty with
    | .array e n => walkPtr cx mode pending (← arrayElem cx e n ptr idx mode) e rest
    | .slice e => walkPtr cx mode pending (← sliceElem cx e ptr idx mode) e rest
    | .soa inner =>
      match rest with
      | .field j :: rest' =>
        let (ptr, fty) ← soaElem cx inner j ptr idx mode
        walkPtr cx mode pending ptr fty rest'
      | _ => throw "whole-element access of a soa container reached codegen"
    | _ => throw "index into non-array"

end

def placePtr (cx : Cx) (place : Place) (mode : IndexMode) : Except String (Run (BitVec 64) × Ty) := do
  let some alloca := cx.allocas place.root | throw "addressing a void/zero-sized local"
  walkPtr cx mode none (Run.pure alloca) (← cx.localTy place.root) place.proj

/-- The loop of `place_ty`. -/
def walkTy (m : Module) (pending : Option (Nat × Nat)) (ty : Ty) : List Proj → Except String Ty
  | [] => .ok ty
  | .field i :: rest =>
    match pending with
    | some (sid, v) =>
      match m.sums[sid]? with
      | none => .error "bad sum id"
      | some d =>
        match d.variants[v]? with
        | none => .error "bad variant"
        | some variant =>
          match variant.payload[i]? with
          | none => .error s!"bad payload #{i}"
          | some t => walkTy m none t rest
    | none =>
      match ty with
      | .struct sid =>
        match m.structs[sid]? with
        | none => .error "bad struct id"
        | some d =>
          match d.fields[i]? with
          | none => .error s!"struct `{d.name}` has no field #{i}"
          | some f => walkTy m none f.ty rest
      | .tuple elems =>
        match elems[i]? with
        | none => .error s!"tuple has no element #{i}"
        | some t => walkTy m none t rest
      | _ => .error "cannot resolve projection"
  | .deref :: rest =>
    match ty with
    | .ref e => walkTy m pending e rest
    | _ => .error "cannot resolve projection"
  | .index _ :: rest =>
    match ty with
    | .array e _ => walkTy m pending e rest
    | .slice e => walkTy m pending e rest
    | _ => .error "cannot resolve projection"
  | .downcast v :: rest =>
    match ty with
    | .sum sid => walkTy m (some (sid, v)) ty rest
    | _ => .error "cannot resolve projection"

def placeTy (m : Module) (func : Func) (place : Place) : Except String Ty :=
  match func.locals[place.root]? with
  | some d => walkTy m none d.ty place.proj
  | none => .error "bad local"

/-- The type of an operand when statically known; contextually typed constants have none. -/
def operandTy (m : Module) (func : Func) : Operand → Except String (Option Ty)
  | .const (.int _ ty) => .ok (some ty)
  | .const (.float _ ty) => .ok (some ty)
  | .const _ => .ok none
  | .copy place => (placeTy m func place).map some
  | .move place => (placeTy m func place).map some

def intSign? : Ty → Option Bool
  | .int _ signed => some signed
  | _ => none

def simdSign? : Ty → Option Bool
  | .simd elem _ => intSign? elem
  | _ => none

/-- The first operand whose resolved type has a signedness decides; the default is unsigned. -/
def firstSigned (m : Module) (func : Func) (sign? : Ty → Option Bool) (ops : List Operand) : Bool :=
  match ops with
  | [] => false
  | op :: rest =>
    match operandTy m func op with
    | .ok (some ty) =>
      match sign? ty with
      | some signed => signed
      | none => firstSigned m func sign? rest
    | _ => firstSigned m func sign? rest

def intSigned (m : Module) (func : Func) (a b : Operand) : Bool :=
  firstSigned m func intSign? [a, b]

def simdSigned (m : Module) (func : Func) (a b : Operand) : Bool :=
  firstSigned m func simdSign? [a, b]

/-- The choice between `sitofp` and `uitofp` in `lower_cast`; an unresolved type is an error. -/
def castSigned (m : Module) (func : Func) (op : Operand) : Except String Bool := do
  match ← operandTy m func op with
  | some ty => return intSign? ty == some true
  | none => return true

end BetLang.Codegen
