import BetLang.DowncastGuards
import BetLang.Validate
import Mathlib.Control.Monad.Writer

/-! The validator over a whole module. It goes on behind a problem and collects all of them; the types
that a message prints are left out of it. -/

namespace BetLang.Checker

open Ir
open Validate (constKind DowncastSite checkDowncastGuards)

inductive ValidationError where
  | emptyFunc (func : String)
  | badEntry (func : String) (entry : Nat)
  | badTarget (func : String) (block target : Nat)
  | returnArity (func : String) (block got want : Nat)
  | badLocal (func : String) (root : Nat)
  | badProjection (func detail : String)
  | badId (func detail : String)
  | badShape (func detail : String)
  | typeMismatch (func detail : String)
  | downcastUnguarded (func : String) (block variant : Nat)

/-- `none` is a run that panics on an index. -/
abbrev Check (α : Type) := WriterT (List ValidationError) Option α

def report (e : ValidationError) : Check Unit := tell [e]

def indexPanic {α : Type} : Check α := WriterT.mk none

def require (p : Prop) [Decidable p] (e : ValidationError) : Check Unit :=
  if p then pure () else report e

/-- A problem, and an open kind. -/
def reject (e : ValidationError) : Check (Option Ty) := do
  report e
  return none

/-- The next step of a typing that goes on only with a known kind. -/
def ifKnown {α β : Type} (k : Option α) (f : α → Check (Option β)) : Check (Option β) :=
  match k with
  | some a => f a
  | none => pure none

/-- A check of a definition, where there is one. -/
def ifDefined {α : Type} (d : Option α) (f : α → Check Unit) : Check Unit :=
  match d with
  | some a => f a
  | none => pure ()

/-- Two kinds that differ; an open one fits everything. -/
def agree : Option Ty → Option Ty → Bool
  | some a, some b => a = b
  | _, _ => true

section Places

variable (m : Module) (func : Func)

def badProj (detail : String) : Check (Option Ty) := reject (.badProjection func.name detail)

def structDef (sid : Nat) : Check (Option StructDef) :=
  match m.structs[sid]? with
  | some d => pure (some d)
  | none => do
    report (.badId func.name s!"struct #{sid}")
    return none

def sumDef (sid : Nat) : Check (Option SumDef) :=
  match m.sums[sid]? with
  | some d => pure (some d)
  | none => do
    report (.badId func.name s!"sum #{sid}")
    return none

/-- The payload field of the variant that a downcast selected. -/
def payloadKind (d : SumDef) (v i : Nat) : Check (Option Ty) :=
  match d.variants[v]? with
  | none => reject (.badId func.name s!"sum `{d.name}` variant #{v}")
  | some variant =>
    match variant.payload[i]? with
    | none =>
      reject (.badProjection func.name s!"variant `{d.name}::{variant.name}` has no payload #{i}")
    | some t => pure (some t)

def structField (d : StructDef) (i : Nat) : Check (Option Ty) :=
  match d.fields[i]? with
  | none => badProj func s!"struct `{d.name}` has no field #{i}"
  | some f => pure (some f.ty)

/-- A field of a `soa` bundle is the container of that field's values. -/
def soaField (wrap : Ty → Ty) (d : StructDef) (i : Nat) : Check (Option Ty) :=
  match d.fields[i]? with
  | none => badProj func s!"soa struct has no field #{i}"
  | some f => pure (some (wrap f.ty))

def soaFieldKind (inner : Ty) (i : Nat) : Check (Option Ty) :=
  match inner with
  | .slice (.struct sid) => do ifKnown (← structDef m func sid) fun d => soaField func .slice d i
  | .vec (.struct sid) => do ifKnown (← structDef m func sid) fun d => soaField func .vec d i
  | .slice _ | .vec _ => badProj func "soa field on a non-struct"
  | _ => badProj func "field on soa"

def fieldKind (ty : Ty) (pending : Option (Nat × Nat)) (i : Nat) : Check (Option Ty) :=
  match pending with
  | some (sid, v) => do ifKnown (← sumDef m func sid) fun d => payloadKind func d v i
  | none =>
    match ty with
    | .struct sid => do ifKnown (← structDef m func sid) fun d => structField func d i
    | .tuple elems =>
      match elems[i]? with
      | none => badProj func s!"tuple has no element #{i}"
      | some t => pure (some t)
    | .soa inner => soaFieldKind m func inner i
    | _ => badProj func "field access"

def indexKind : Ty → Check (Option Ty)
  | .slice e => pure (some e)
  | .array e _ => pure (some e)
  | .soa (.slice e) => pure (some e)
  | .soa (.array e _) => pure (some e)
  | .soa (.vec e) => pure (some e)
  | .soa _ => badProj func "index into soa"
  | _ => badProj func "index"

mutual

def operandKind : Operand → Check (Option Ty)
  | .const c => pure (constKind c)
  | .copy place => placeKind place
  | .move place => placeKind place

def placeKind : Place → Check (Option Ty)
  | .mk root proj =>
    match func.locals[root]? with
    | none => reject (.badLocal func.name root)
    | some d => walkKind none d.ty proj

/-- A bad projection ends the walk, a bad index operand does not. -/
def walkKind (pending : Option (Nat × Nat)) (ty : Ty) : List Proj → Check (Option Ty)
  | [] => pure (some ty)
  | .field i :: rest => do
    ifKnown (← fieldKind m func ty pending i) fun t => walkKind none t rest
  | .index idx :: rest => do
    let _ ← operandKind idx
    ifKnown (← indexKind func ty) fun t => walkKind pending t rest
  | .deref :: rest =>
    match ty with
    | .ref e => walkKind pending e rest
    | _ => badProj func "deref"
  | .downcast v :: rest =>
    match ty with
    | .sum sid => walkKind (some (sid, v)) ty rest
    | _ => badProj func "downcast"

end

end Places

section Rvalues

variable (types : List Ty) (m : Module) (func : Func)

def visit (op : Operand) : Check Unit := do
  let _ ← operandKind m func op
  return ()

def visitArgs (args : List Operand) : Check Unit := args.forM (visit m func)

/-- Arithmetic on integers says how it overflows, nothing else does. -/
def modeFits (op : BinOp) (mode : ArithMode) (operand : Option Ty) : Bool :=
  match op with
  | .add | .sub | .mul | .div | .rem =>
    match operand with
    | some (.int _ _) => mode ≠ .na
    | some .f32 | some .f64 => mode = .na
    | _ => true
  | _ => mode = .na

def checkArithMode (op : BinOp) (mode : ArithMode) (operand : Option Ty) : Check Unit :=
  require (modeFits op mode operand = true) (.typeMismatch func.name "arith mode")

def isInt : Ty → Bool
  | .int _ _ => true
  | _ => false

def isFloat : Ty → Bool
  | .f32 | .f64 => true
  | _ => false

def castFits (src target : Ty) : CastKind → Bool
  | .intZext | .intSext | .intTrunc => isInt src && isInt target
  | .intToFloat => isInt src && isFloat target
  | .floatToInt => isFloat src && isInt target
  | .floatResize => isFloat src && isFloat target
  | .bitcast => true

def checkCast (src : Option Ty) (target : Ty) (kind : CastKind) : Check Unit :=
  ifDefined src fun s =>
    require (castFits s target kind = true) (.typeMismatch func.name "cast is ill-typed")

def retsToKind : List Ty → Ty
  | [] => .void
  | [one] => one
  | many => .tuple many

/-- The parameter types are compared as far as both lists go. -/
def checkCallArgs (calleeName : String) (params : List Ty) (args : List Operand) : Check Unit := do
  require (params.length = args.length)
    (.badShape func.name
      s!"call to `{calleeName}` passes {args.length} arg(s), expected {params.length}")
  args.zipIdx.forM fun (arg, i) => do
    let k ← operandKind m func arg
    require (agree k params[i]? = true)
      (.typeMismatch func.name s!"call to `{calleeName}` arg #{i}")

def callTarget (name : String) (params rets : List Ty) (args : List Operand) :
    Check (Option Ty) := do
  checkCallArgs m func name params args
  return some (retsToKind rets)

/-- The arguments of a call that does not resolve are visited all the same. -/
def callKind (callee : Callee) (args : List Operand) : Check (Option Ty) :=
  match callee with
  | .direct fid =>
    match m.funcs[fid]? with
    | some target => callTarget m func target.name target.params target.rets args
    | none => do
      visitArgs m func args
      reject (.badId func.name s!"call to function #{fid}")
  | .external eid =>
    match m.externs[eid]? with
    | some target => callTarget m func target.name target.sig.params target.sig.rets args
    | none => do
      visitArgs m func args
      reject (.badId func.name s!"call to extern #{eid}")
  | .indirect op => do
    match ← operandKind m func op with
    | some (.fnPtr params rets) => callTarget m func "<indirect>" params rets args
    | _ => do
      visitArgs m func args
      return none

def checkVariant (sid variant payloads : Nat) : Check Unit := do
  ifDefined (← sumDef m func sid) fun d =>
    match d.variants[variant]? with
    | none => report (.badId func.name s!"sum `{d.name}` has no variant #{variant}")
    | some v =>
      require (v.payload.length = payloads)
        (.badShape func.name
          s!"variant `{d.name}::{v.name}` takes {v.payload.length} payload(s), got {payloads}")

def checkFieldCount (sid fields : Nat) : Check Unit := do
  ifDefined (← structDef m func sid) fun d =>
    require (d.fields.length = fields)
      (.badShape func.name s!"struct `{d.name}` has {d.fields.length} field(s), got {fields}")

def aggregateKind (kind : AggKind) (n : Nat) : Check (Option Ty) :=
  match kind with
  | .struct sid => do
    checkFieldCount m func sid n
    return some (.struct sid)
  | .tuple => pure none
  | .array elem => pure (some (.array elem n))
  | .simd elem => pure (some (.simd elem n))
  | .sum sum variant => do
    checkVariant m func sum variant n
    return some (.sum sum)

def simdArgs : SimdOp → Nat
  | .splat | .abs | .lane _ | .sum | .length | .norm => 1
  | .min | .max | .dot => 2

def checkCopInit : CopInit → Check Unit
  | .structLit sid fields => do
    visitArgs m func (fields.map Prod.snd)
    checkFieldCount m func sid fields.length
  | .sumVariant sid variant payload => do
    visitArgs m func payload
    checkVariant m func sid variant payload.length

def initTy : CopInit → Ty
  | .structLit sid _ => .struct sid
  | .sumVariant sid _ _ => .sum sid

/-- A bump crib yields a reference, when the type is interned, else a raw pointer. -/
def copKind (crib : Option Ty) (init : CopInit) : Option Ty :=
  match crib with
  | some (.crib .void) =>
    some (if types.contains (initTy init) then .ref (initTy init) else .rawPtr)
  | some (.crib elem) => some (.tag elem)
  | _ => none

def u64 : Ty := .int .w64 false

def isStr : Ty → Bool
  | .str => true
  | _ => false

def isSlice : Ty → Bool
  | .slice _ => true
  | _ => false

def expectStr (op : Operand) : Check Unit := do
  ifDefined (← operandKind m func op) fun k =>
    require (isStr k = true) (.typeMismatch func.name "str projection on non-str operand")

def expectSlice (op : Operand) : Check Unit := do
  ifDefined (← operandKind m func op) fun k =>
    require (isSlice k = true) (.typeMismatch func.name "slice projection on non-slice operand")

def binKind (op : BinOp) (ka kb : Option Ty) (mode : ArithMode) : Check (Option Ty) := do
  require (agree ka kb = true ∨ op.isComparison = true)
    (.typeMismatch func.name "binary op on mismatched operands")
  checkArithMode func op mode ka
  return if op.isComparison then some .bool else ka

def rvalueKind : Rvalue → Check (Option Ty)
  | .use op => operandKind m func op
  | .binOp op a b mode => do
    let ka ← operandKind m func a
    let kb ← operandKind m func b
    binKind func op ka kb mode
  | .unOp op a => do
    let ka ← operandKind m func a
    return if op = .not then some .bool else ka
  | .cast op ty kind => do
    let src ← operandKind m func op
    checkCast func src ty kind
    return some ty
  | .call callee args => callKind m func callee args
  | .aggregate kind ops => do
    visitArgs m func ops
    aggregateKind m func kind ops.length
  | .simd op args ty => do
    visitArgs m func args
    require (args.length = simdArgs op)
      (.badShape func.name s!"simd op takes {simdArgs op} arg(s), got {args.length}")
    return some ty
  | .discriminant op => do
    visit m func op
    return none
  | .cop crib init => do
    let cribKind ← operandKind m func crib
    checkCopInit m func init
    return copKind types cribKind init
  | .trust crib tag => do
    let cribKind ← operandKind m func crib
    visit m func tag
    match cribKind with
    | some (.crib elem) => return some (.ref elem)
    | _ => return none
  | .strPtr op => do
    expectStr m func op
    return some .rawPtr
  | .strLen op => do
    expectStr m func op
    return some u64
  | .slicePtr op => do
    expectSlice m func op
    return some .rawPtr
  | .sliceLen op => do
    expectSlice m func op
    return some u64
  | .addrOf place => do
    let _ ← placeKind m func place
    return some .rawPtr
  | .makeSlice data len elem => do
    visit m func data
    visit m func len
    return some (.slice elem)
  | .cribNew elem _ => pure (some (.crib elem))
  | .cribGlobal id =>
    match m.cribGlobals[id]? with
    | some g => pure (some (.crib g.elem))
    | none => indexPanic
  | .sizeOf _ => pure (some u64)
  | .makeStr data len => do
    visit m func data
    visit m func len
    return some .str

end Rvalues

section Functions

variable (types : List Ty) (m : Module) (func : Func)

def checkStmt : Stmt → Check Unit
  | .nop => pure ()
  | .evict op => visit m func op
  | .evictSlot crib tag => do
    visit m func crib
    visit m func tag
  | .assign place rv => do
    let pk ← placeKind m func place
    let rk ← rvalueKind types m func rv
    require (agree pk rk = true) (.typeMismatch func.name "assigning into a place")

def target (block nblocks bb : Nat) : Check Unit :=
  require (bb < nblocks) (.badTarget func.name block bb)

/-- The element types of the crib and of what is resolved in it. -/
def sameElem (crib other : Option Ty) : Bool :=
  match crib, other with
  | some (.crib ce), some (.tag te) => ce = te
  | some (.crib ce), some (.ref re) => ce = re
  | _, _ => true

def isTag : Option Ty → Bool
  | some (.tag _) => true
  | _ => false

def isRef : Option Ty → Bool
  | some (.ref _) => true
  | _ => false

def checkHolla (tag crib : Operand) (resolved : Place) (block nblocks live ghosted : Nat) :
    Check Unit := do
  let tagKind ← operandKind m func tag
  let cribKind ← operandKind m func crib
  let resolvedKind ← placeKind m func resolved
  target func block nblocks live
  target func block nblocks ghosted
  require (isTag tagKind = true → sameElem cribKind tagKind = true)
    (.typeMismatch func.name "holla tag element does not match crib element")
  require (isRef resolvedKind = true → sameElem cribKind resolvedKind = true)
    (.typeMismatch func.name "holla resolved ref does not match crib element")

def checkTerm (block nblocks : Nat) : Terminator → Check Unit
  | .goto bb => target func block nblocks bb
  | .branch cond thenBb elseBb => do
    visit m func cond
    target func block nblocks thenBb
    target func block nblocks elseBb
  | .switch scrutinee cases default => do
    visit m func scrutinee
    cases.forM fun c => target func block nblocks c.2
    target func block nblocks default
  | .hollaCheck tag crib resolved live ghosted =>
    checkHolla m func tag crib resolved block nblocks live ghosted
  | .ret vals => do
    require (vals.length = func.rets.length)
      (.returnArity func.name block vals.length func.rets.length)
    (vals.zip func.rets).forM fun (op, want) => do
      let k ← operandKind m func op
      require (agree k (some want) = true) (.typeMismatch func.name "returning another type")
  | .panic msg => visit m func msg
  | .unreachable => pure ()

def checkBlock (nblocks : Nat) (block : Block) : Check Unit := do
  block.stmts.forM (checkStmt types m func)
  checkTerm m func block.id nblocks block.term

/-- `fuel` bounds the sweeps of the dominator iteration. -/
def checkGuards (fuel : Nat) : Check Unit :=
  match checkDowncastGuards fuel func with
  | none => indexPanic
  | some sites => sites.forM fun site =>
    report (.downcastUnguarded func.name site.block site.variant)

def checkFunc (fuel : Nat) : Check Unit :=
  if func.blocks.isEmpty then report (.emptyFunc func.name)
  else do
    let nblocks := func.blocks.length % 2 ^ 32
    require (func.entry < nblocks) (.badEntry func.name func.entry)
    func.blocks.forM (checkBlock types m func nblocks)
    checkGuards func fuel

end Functions

def checkGlobal (g : Global) : Check Unit :=
  require (agree (constKind g.value) (some g.ty) = true)
    (.typeMismatch s!"<global {g.name}>" "value of another type than declared")

/-- `types` are the types that the module has interned. An extern's signature refers to none but
those. -/
def validate (fuel : Nat) (types : List Ty) (m : Module) :
    Option (Except (List ValidationError) Unit) :=
  let check : Check Unit := do
    m.funcs.forM fun func => checkFunc types m func fuel
    m.globals.forM checkGlobal
  check.run.map fun (_, errors) => if errors.isEmpty then .ok () else .error errors

end BetLang.Checker
