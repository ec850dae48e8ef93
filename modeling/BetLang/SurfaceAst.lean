import BetLang.Asi

/-! The syntax trees of source files, without their spans. -/

namespace BetLang.Surface

inductive Vis where
  | flex
  | hush
  deriving DecidableEq

/-- A name, or a member of what a name stands for: `Circle`, `geometry.Circle`. -/
structure Path (N : Type) where
  head : N
  member : Option N
  deriving DecidableEq

section Types

/-- A type as written. -/
inductive Ty (N : Type) where
  | slice (inner : Ty N)
  | array (inner : Ty N) (size : UInt64)
  | tag (inner : Ty N)
  | crib (inner : Ty N)
  | soa (inner : Ty N)
  | fn (params : List (Ty N)) (ret : Ty N)
  | rawPtr
  | named (name : Path N) (generics : List (Ty N))

end Types

section Expressions

inductive UnOp where
  | neg
  | not
  | bitNot
  deriving DecidableEq

inductive BinOp where
  | or
  | and
  | eq
  | ne
  | lt
  | le
  | gt
  | ge
  | bitOr
  | bitXor
  | bitAnd
  | shl
  | shr
  | add
  | sub
  | mul
  | div
  | rem
  deriving DecidableEq

inductive AssignOp where
  | eq
  | addEq
  | subEq
  | mulEq
  | divEq
  | remEq
  | andEq
  | orEq
  | xorEq
  | shlEq
  | shrEq
  deriving DecidableEq

mutual

/-- An expression over names `N` and values `F` of floating literals. -/
inductive Expr (N F : Type) where
  | int (value : Int)
  | float (value : F)
  | str (value : String)
  | byte (value : UInt8)
  | bool (value : Bool)
  | ghosted
  | name (name : N) (generics : List (Ty N))
  | unary (op : UnOp) (operand : Expr N F)
  | binary (op : BinOp) (lhs rhs : Expr N F)
  | cast (e : Expr N F) (ty : Ty N)
  | field (base : Expr N F) (name : N) (generics : List (Ty N))
  | method (receiver : Expr N F) (method : N) (generics : List (Ty N)) (args : List (Arg N F))
  | call (callee : Expr N F) (args : List (Arg N F))
  | index (base index : Expr N F)
  | trust (tag crib : Expr N F)
  | struct (lit : StructLit N F)
  | array (elems : List (Expr N F))
  | cop (init : CopInit N F) (crib : Expr N F)

inductive Arg (N F : Type) where
  | mk (label : Option N) (value : Expr N F)

inductive StructLit (N F : Type) where
  | mk (name : Path N) (generics : List (Ty N)) (fields : List (FieldInit N F))

inductive FieldInit (N F : Type) where
  | mk (name : N) (value : Expr N F)

inductive CopInit (N F : Type) where
  | struct (lit : StructLit N F)
  | variant (name : Path N) (args : List (Arg N F))

end

end Expressions

section Statements

structure CribDecl (N : Type) where
  vis : Vis
  name : N
  ty : Option (Ty N)

structure ConstDecl (N F : Type) where
  vis : Vis
  name : N
  ty : Option (Ty N)
  value : Expr N F

/-- A binding of at least one name. -/
structure VarDecl (N F : Type) where
  vis : Vis
  target : N
  targets : List N
  ty : Option (Ty N)
  values : List (Expr N F)

mutual

inductive Block (N F : Type) where
  | mk (stmts : List (Stmt N F))

inductive Stmt (N F : Type) where
  | var (decl : VarDecl N F)
  | const (decl : ConstDecl N F)
  | crib (decl : CribDecl N)
  | fr (cond : Expr N F) (body : Block N F) (elifs : List (Elif N F)) (els : Option (Block N F))
  | vibin (cond : Expr N F) (body : Block N F)
  | squad (var : N) (iter : Expr N F) (body : Block N F)
  | vibe (scrutinee : Expr N F) (arms : List (MatchArm N F)) (default : Option (Block N F))
  | holla (binding : N) (tag crib : Expr N F) (live ghosted : Block N F)
  | sheesh (body : Block N F) (recover : Option (Recover N F))
  | evict (crib : Expr N F) (tag : Option (Expr N F))
  | slide (e : Expr N F)
  | bet (values : List (Expr N F))
  | bounce (e : Expr N F)
  | yeet (e : Expr N F)
  | dip
  | skip
  | assign (targets : List (Expr N F)) (op : AssignOp) (values : List (Expr N F))
  | expr (e : Expr N F)

inductive Elif (N F : Type) where
  | mk (cond : Expr N F) (body : Block N F)

inductive MatchArm (N F : Type) where
  | mk (variant : Path N) (bindings : List N) (body : Block N F)

inductive Recover (N F : Type) where
  | mk (name : N) (body : Block N F)

end

end Statements

section Items

structure Pull (N : Type) where
  module : String
  aliasName : Option N

structure Param (N : Type) where
  name : N
  ty : Ty N

inductive RetType (N : Type) where
  | none
  | single (ty : Ty N)
  | multi (tys : List (Ty N))

structure FnDecl (N F : Type) where
  vis : Vis
  receiver : Option (Param N)
  name : N
  generics : List N
  params : List (Param N)
  ret : RetType N
  body : Block N F

structure FieldDecl (N : Type) where
  vis : Option Vis
  name : N
  ty : Ty N

structure DripDecl (N : Type) where
  vis : Vis
  name : N
  generics : List N
  fields : List (FieldDecl N)

structure Variant (N : Type) where
  name : N
  payload : List (Ty N)

structure MoodsDecl (N : Type) where
  vis : Vis
  name : N
  generics : List N
  variants : List (Variant N)

structure ExternDecl (N : Type) where
  abi : String
  name : N
  params : List (Param N)
  ret : RetType N

inductive Item (N F : Type) where
  | pull (p : Pull N)
  | func (f : FnDecl N F)
  | drip (d : DripDecl N)
  | moods (m : MoodsDecl N)
  | crib (c : CribDecl N)
  | const (c : ConstDecl N F)
  | var (v : VarDecl N F)
  | externFn (e : ExternDecl N)

structure Program (N F : Type) where
  items : List (Item N F)

end Items

end BetLang.Surface
