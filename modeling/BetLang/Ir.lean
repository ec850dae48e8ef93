import Mathlib.Algebra.Group.Int.Defs
import Mathlib.Algebra.Group.Nat.Defs
import Mathlib.Algebra.GroupWithZero.Nat
import Mathlib.Tactic.Common

/-! The mid-level IR: a control-flow graph of blocks over typed, projectable places.
A type id stands for the tree it is interned from, every other id is an index. -/

namespace BetLang.Ir

inductive IntWidth where
  | w8 | w16 | w32 | w64
  deriving DecidableEq, Repr

def IntWidth.bits : IntWidth → Nat
  | .w8 => 8
  | .w16 => 16
  | .w32 => 32
  | .w64 => 64

inductive Ty where
  | bool
  | int (width : IntWidth) (signed : Bool)
  | f32
  | f64
  | str
  | void
  | rawPtr
  | struct (id : Nat)
  | sum (id : Nat)
  | slice (elem : Ty)
  | array (elem : Ty) (n : Nat)
  /-- The inner type is a container of a `struct` element, stored one array per field. -/
  | soa (container : Ty)
  | tag (elem : Ty)
  | crib (elem : Ty)
  | ref (elem : Ty)
  | map (key value : Ty)
  | vec (elem : Ty)
  | rng
  | simd (elem : Ty) (lanes : Nat)
  | fnPtr (params rets : List Ty)
  | tuple (elems : List Ty)
  deriving Repr

structure Sig where
  params : List Ty
  rets : List Ty
  deriving Repr

inductive Vis where
  | flex | hush
  deriving DecidableEq, Repr

structure Field where
  name : String
  ty : Ty
  vis : Vis
  deriving Repr

structure StructDef where
  name : String
  fields : List Field
  deriving Repr

structure Variant where
  name : String
  payload : List Ty
  deriving Repr

structure SumDef where
  name : String
  variants : List Variant
  deriving Repr

/-- A float literal is the bit pattern of its `f64`. -/
inductive Const where
  | int (v : Int) (ty : Ty)
  | float (bits : BitVec 64) (ty : Ty)
  | bool (b : Bool)
  | str (s : String)
  | ghosted
  | nullPtr
  | fnRef (fid : Nat)
  deriving Repr

structure Global where
  name : String
  ty : Ty
  value : Const
  deriving Repr

structure CribGlobal where
  name : String
  elem : Ty
  capacity : Nat
  deriving Repr

structure Extern where
  name : String
  abi : String
  sig : Sig
  deriving Repr

inductive LocalKind where
  | param | temp
  deriving DecidableEq, Repr

structure Local where
  ty : Ty
  name : Option String
  kind : LocalKind
  deriving Repr

mutual

inductive Operand where
  | const (c : Const)
  | copy (place : Place)
  | move (place : Place)

inductive Place where
  | mk (root : Nat) (proj : List Proj)

inductive Proj where
  | field (i : Nat)
  | index (op : Operand)
  | deref
  | downcast (variant : Nat)

end

def Place.root : Place → Nat
  | .mk root _ => root

def Place.proj : Place → List Proj
  | .mk _ proj => proj

/-- A bare local with no projections. -/
def Place.local (l : Nat) : Place := .mk l []

inductive BinOp where
  | add | sub | mul | div | rem | bitAnd | bitOr | bitXor | shl | shr
  | eq | ne | lt | le | gt | ge
  deriving DecidableEq, Repr

def BinOp.isComparison : BinOp → Bool
  | .eq | .ne | .lt | .le | .gt | .ge => true
  | _ => false

inductive UnOp where
  | neg | not | bitNot
  deriving DecidableEq, Repr

inductive ArithMode where
  | wrap | trap | na
  deriving DecidableEq, Repr

inductive CastKind where
  | intZext | intSext | intTrunc | intToFloat | floatToInt | floatResize | bitcast
  deriving DecidableEq, Repr

inductive AggKind where
  | struct (id : Nat)
  | tuple
  | array (elem : Ty)
  | sum (sum : Nat) (variant : Nat)
  | simd (elem : Ty)
  deriving Repr

inductive SimdOp where
  | splat
  | lane (i : Nat)
  | min | max | abs | dot | sum | length | norm
  deriving DecidableEq, Repr

inductive CopInit where
  | structLit (id : Nat) (fields : List (Nat × Operand))
  | sumVariant (id : Nat) (variant : Nat) (payload : List Operand)

inductive Callee where
  | direct (fid : Nat)
  | indirect (op : Operand)
  | external (eid : Nat)

inductive Rvalue where
  | use (op : Operand)
  | binOp (op : BinOp) (l r : Operand) (mode : ArithMode)
  | unOp (op : UnOp) (a : Operand)
  | cast (op : Operand) (ty : Ty) (kind : CastKind)
  | call (callee : Callee) (args : List Operand)
  | aggregate (kind : AggKind) (ops : List Operand)
  | simd (op : SimdOp) (args : List Operand) (ty : Ty)
  | discriminant (op : Operand)
  | cop (crib : Operand) (init : CopInit)
  | trust (tag crib : Operand)
  | strPtr (op : Operand)
  | strLen (op : Operand)
  | slicePtr (op : Operand)
  | sliceLen (op : Operand)
  | addrOf (place : Place)
  | makeSlice (data len : Operand) (elem : Ty)
  | cribNew (elem : Ty) (capacity : Nat)
  | cribGlobal (id : Nat)
  | sizeOf (ty : Ty)
  | makeStr (data len : Operand)

inductive Stmt where
  | assign (place : Place) (rv : Rvalue)
  | evict (crib : Operand)
  | evictSlot (crib tag : Operand)
  | nop

inductive Terminator where
  | goto (bb : Nat)
  | branch (cond : Operand) (thenBb elseBb : Nat)
  | switch (scrutinee : Operand) (cases : List (Nat × Nat)) (default : Nat)
  | hollaCheck (tag crib : Operand) (resolved : Place) (live ghosted : Nat)
  | ret (vals : List Operand)
  | panic (msg : Operand)
  | unreachable

structure Block where
  id : Nat
  stmts : List Stmt
  term : Terminator

structure Func where
  name : String
  params : List Ty
  rets : List Ty
  locals : List Local
  blocks : List Block
  entry : Nat

structure Module where
  structs : List StructDef
  sums : List SumDef
  externs : List Extern
  globals : List Global
  cribGlobals : List CribGlobal
  funcs : List Func

end BetLang.Ir
