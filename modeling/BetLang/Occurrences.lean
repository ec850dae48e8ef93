import BetLang.Checker

/-! The ids that occur in a module, each with the size of the table or type that it indexes. -/

namespace BetLang.Checker

open Ir
open Validate (constKind)

/-- Where an id stands: `downcast` in a place, `variant` in what builds a sum, `initField` in a struct
literal, `fnRef` in a constant, `typeId` in a type that is named. -/
inductive IdKind where
  | struct | sum | variant | field | func | external | cribGlobal | local | block
  | fnRef | lane | downcast | initField | typeId
  deriving DecidableEq

/-- The kinds of ids that the validator looks up. -/
def IdKind.lookedUp : IdKind → Bool
  | .fnRef | .lane | .downcast | .initField | .typeId => false
  | _ => true

/-- `none` as the size: there is nothing that the id could index. -/
structure Occ where
  kind : IdKind
  id : Nat
  size : Option Nat

def Occ.InRange (o : Occ) : Prop := ∃ n, o.size = some n ∧ o.id < n

section Types

variable (m : Module)

def variantCount (sid : Nat) : Option Nat := (m.sums[sid]?).map (·.variants.length)

def payloadOf (sid v : Nat) : Option (List Ty) :=
  ((m.sums[sid]?).bind (·.variants[v]?)).map (·.payload)

def fieldsOf (sid : Nat) : Option (List Ty) := (m.structs[sid]?).map (·.fields.map (·.ty))

/-- How far the walk along a place is: the variant it is positioned at, and the type. -/
structure Cursor where
  pending : Option (Nat × Nat)
  ty : Option Ty

/-- The types that a field projection selects from. -/
def Cursor.slots (c : Cursor) : Option (List Ty) :=
  match c.pending, c.ty with
  | some (sid, v), _ => payloadOf m sid v
  | none, some (.struct sid) => fieldsOf m sid
  | none, some (.tuple elems) => some elems
  | none, some (.soa (.slice (.struct sid))) => (fieldsOf m sid).map (·.map .slice)
  | none, some (.soa (.vec (.struct sid))) => (fieldsOf m sid).map (·.map .vec)
  | _, _ => none

def elemTy : Ty → Option Ty
  | .slice e | .array e _ | .soa (.slice e) | .soa (.array e _) | .soa (.vec e) => some e
  | _ => none

def derefTy : Ty → Option Ty
  | .ref e => some e
  | _ => none

def sumId : Ty → Option Nat
  | .sum sid => some sid
  | _ => none

def Cursor.step (c : Cursor) : Proj → Cursor
  | .field i => ⟨none, (c.slots m).bind (·[i]?)⟩
  | .index _ => ⟨c.pending, c.ty.bind elemTy⟩
  | .deref => ⟨c.pending, c.ty.bind derefTy⟩
  | .downcast v => ⟨(c.ty.bind sumId).map fun sid => (sid, v), c.ty⟩

def start (f : Func) (root : Nat) : Cursor := ⟨none, (f.locals[root]?).map (·.ty)⟩

def placeTy (f : Func) : Place → Option Ty
  | .mk root proj => (proj.foldl (Cursor.step m) (start f root)).ty

def operandTy (f : Func) : Operand → Option Ty
  | .const c => constKind c
  | .copy p | .move p => placeTy m f p

mutual

def idsInTy : Ty → List Occ
  | .bool | .int _ _ | .f32 | .f64 | .str | .void | .rawPtr | .rng => []
  | .struct sid => [⟨.typeId, sid, some m.structs.length⟩]
  | .sum sid => [⟨.typeId, sid, some m.sums.length⟩]
  | .slice e | .array e _ | .soa e | .tag e | .crib e | .ref e | .vec e | .simd e _ => idsInTy e
  | .map k v => idsInTy k ++ idsInTy v
  | .fnPtr params rets => idsInTys params ++ idsInTys rets
  | .tuple elems => idsInTys elems

def idsInTys : List Ty → List Occ
  | [] => []
  | t :: ts => idsInTy t ++ idsInTys ts

end

def idsInConst : Const → List Occ
  | .int _ ty | .float _ ty => idsInTy m ty
  | .fnRef fid => [⟨.fnRef, fid, some m.funcs.length⟩]
  | .bool _ | .str _ | .ghosted | .nullPtr => []

end Types

section Code

variable (m : Module) (f : Func)

mutual

def idsInOperand : Operand → List Occ
  | .const c => idsInConst m c
  | .copy p => idsInPlace p
  | .move p => idsInPlace p

def idsInPlace : Place → List Occ
  | .mk root proj => ⟨.local, root, some f.locals.length⟩ :: idsInProjs (start f root) proj

def idsInProjs (c : Cursor) : List Proj → List Occ
  | [] => []
  | .field i :: rest =>
    ⟨.field, i, (c.slots m).map List.length⟩ :: idsInProjs (c.step m (.field i)) rest
  | .index op :: rest => idsInOperand op ++ idsInProjs (c.step m (.index op)) rest
  | .deref :: rest => idsInProjs (c.step m .deref) rest
  | .downcast v :: rest =>
    ⟨.downcast, v, (c.ty.bind sumId).bind (variantCount m)⟩ ::
      idsInProjs (c.step m (.downcast v)) rest

end

def idsInOperands (ops : List Operand) : List Occ := ops.flatMap (idsInOperand m f)

def idsInCallee : Callee → List Occ
  | .direct fid => [⟨.func, fid, some m.funcs.length⟩]
  | .external eid => [⟨.external, eid, some m.externs.length⟩]
  | .indirect op => idsInOperand m f op

def idsInVariant (sid v : Nat) : List Occ :=
  [⟨.sum, sid, some m.sums.length⟩, ⟨.variant, v, variantCount m sid⟩]

def idsInAgg : AggKind → List Occ
  | .struct sid => [⟨.struct, sid, some m.structs.length⟩]
  | .tuple => []
  | .array elem | .simd elem => idsInTy m elem
  | .sum sid v => idsInVariant m sid v

def idsInInit : CopInit → List Occ
  | .structLit sid fields =>
    ⟨.struct, sid, some m.structs.length⟩ ::
      (fields.map fun p => ⟨.initField, p.1, (fieldsOf m sid).map List.length⟩) ++
      idsInOperands m f (fields.map Prod.snd)
  | .sumVariant sid v payload => idsInVariant m sid v ++ idsInOperands m f payload

def lanesOf : Ty → Option Nat
  | .simd _ lanes => some lanes
  | _ => none

/-- A lane indexes the vector that is the operation's first operand. -/
def idsInSimd (op : SimdOp) (args : List Operand) : List Occ :=
  match op with
  | .lane i => [⟨.lane, i, (args.head?.bind (operandTy m f)).bind lanesOf⟩]
  | _ => []

def idsInRvalue : Rvalue → List Occ
  | .use op | .unOp _ op | .discriminant op | .strPtr op | .strLen op | .slicePtr op
  | .sliceLen op => idsInOperand m f op
  | .binOp _ a b _ | .trust a b | .makeStr a b => idsInOperands m f [a, b]
  | .cast op ty _ => idsInOperand m f op ++ idsInTy m ty
  | .call callee args => idsInCallee m f callee ++ idsInOperands m f args
  | .aggregate kind ops => idsInAgg m kind ++ idsInOperands m f ops
  | .simd op args ty => idsInSimd m f op args ++ idsInOperands m f args ++ idsInTy m ty
  | .cop crib init => idsInOperand m f crib ++ idsInInit m f init
  | .addrOf place => idsInPlace m f place
  | .makeSlice data len elem => idsInOperands m f [data, len] ++ idsInTy m elem
  | .cribNew elem _ => idsInTy m elem
  | .cribGlobal id => [⟨.cribGlobal, id, some m.cribGlobals.length⟩]
  | .sizeOf ty => idsInTy m ty

def idsInStmt : Stmt → List Occ
  | .assign place rv => idsInPlace m f place ++ idsInRvalue m f rv
  | .evict op => idsInOperand m f op
  | .evictSlot crib tag => idsInOperands m f [crib, tag]
  | .nop => []

def blockId (bb : Nat) : Occ := ⟨.block, bb, some f.blocks.length⟩

def idsInTerm : Terminator → List Occ
  | .goto bb => [blockId f bb]
  | .branch cond thenBb elseBb => idsInOperand m f cond ++ [blockId f thenBb, blockId f elseBb]
  | .switch scrutinee cases default =>
    idsInOperand m f scrutinee ++ (cases.map fun c => blockId f c.2) ++ [blockId f default]
  | .hollaCheck tag crib resolved live ghosted =>
    idsInOperands m f [tag, crib] ++ idsInPlace m f resolved ++
      [blockId f live, blockId f ghosted]
  | .ret vals => idsInOperands m f vals
  | .panic msg => idsInOperand m f msg
  | .unreachable => []

def idsInBlock (block : Block) : List Occ :=
  block.stmts.flatMap (idsInStmt m f) ++ idsInTerm m f block.term

def idsInFunc : List Occ := blockId f f.entry :: f.blocks.flatMap (idsInBlock m f)

end Code

def occurrences (m : Module) : List Occ :=
  m.funcs.flatMap (idsInFunc m) ++ m.globals.flatMap fun g => idsInConst m g.value

/-- Operands that are given, and how many the table or type asks for; `indirect` are those of a call
through a value. -/
structure Count where
  indirect : Bool
  got : Nat
  want : Option Nat

section Counts

variable (m : Module) (f : Func)

def arityOf : Ty → Option Nat
  | .fnPtr params _ => some params.length
  | _ => none

def calleeArity : Callee → Option Nat
  | .direct fid => (m.funcs[fid]?).map (·.params.length)
  | .external eid => (m.externs[eid]?).map (·.sig.params.length)
  | .indirect op => (operandTy m f op).bind arityOf

def isIndirect : Callee → Bool
  | .indirect _ => true
  | _ => false

def fieldCount (sid : Nat) : Option Nat := (fieldsOf m sid).map List.length

def payloadCount (sid v : Nat) : Option Nat := (payloadOf m sid v).map List.length

/-- An array, a tuple and a vector have as many elements as there are operands. -/
def countsInRvalue : Rvalue → List Count
  | .call callee args => [⟨isIndirect callee, args.length, calleeArity m f callee⟩]
  | .aggregate (.struct sid) ops => [⟨false, ops.length, fieldCount m sid⟩]
  | .aggregate (.sum sid v) ops => [⟨false, ops.length, payloadCount m sid v⟩]
  | .simd op args _ => [⟨false, args.length, some (simdArgs op)⟩]
  | .cop _ (.structLit sid fields) => [⟨false, fields.length, fieldCount m sid⟩]
  | .cop _ (.sumVariant sid v payload) => [⟨false, payload.length, payloadCount m sid v⟩]
  | _ => []

/-- The struct literals, with the fields that they name. -/
def literalsInRvalue : Rvalue → List (Nat × List Nat)
  | .cop _ (.structLit sid fields) => [(sid, fields.map Prod.fst)]
  | _ => []

def rvalues : List Rvalue :=
  f.blocks.flatMap fun block => block.stmts.filterMap fun stmt =>
    match stmt with
    | .assign _ rv => some rv
    | _ => none

end Counts

def counts (m : Module) : List Count :=
  m.funcs.flatMap fun f => (rvalues f).flatMap (countsInRvalue m f)

def literals (m : Module) : List (Nat × List Nat) :=
  m.funcs.flatMap fun f => (rvalues f).flatMap literalsInRvalue

/-- A struct literal names each field of its struct exactly once. -/
def NamesEach (m : Module) (sid : Nat) (names : List Nat) : Prop :=
  ∃ n, fieldCount m sid = some n ∧ ∀ i < n, names.count i = 1

/-- No lookup of an id and no count of operands can fail. -/
structure Intact (m : Module) : Prop where
  ids : ∀ o ∈ occurrences m, o.InRange
  literals : ∀ l ∈ literals m, NamesEach m l.1 l.2
  counts : ∀ c ∈ counts m, c.want = some c.got

/-- What the validator leaves to whoever built the module. -/
structure LeftOut (m : Module) : Prop where
  ids : ∀ o ∈ occurrences m, o.kind.lookedUp = false → o.InRange
  literals : ∀ l ∈ literals m, l.2.Nodup
  counts : ∀ c ∈ counts m, c.indirect = true → c.want.isSome = true

end BetLang.Checker
