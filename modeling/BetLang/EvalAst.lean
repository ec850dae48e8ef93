import BetLang.Collect
import BetLang.InterpInt

/-! The syntax that the interpreter walks, and the declaration tables that it registers first. -/

namespace BetLang.Eval

open Collect (Typ RetType DripDecl MoodsDecl)

inductive AssignOp where
  | eq | addEq | subEq | mulEq | divEq | remEq | andEq | orEq | xorEq | shlEq | shrEq
  deriving DecidableEq

mutual

inductive Expr where
  | int (i : Int)
  | float (bits : BitVec 64)
  | str (s : String)
  | byte (b : BitVec 8)
  | bool (b : Bool)
  | ghosted
  | name (name : String)
  | unary (op : Ast.UnOp) (operand : Expr)
  | binary (op : Ast.BinOp) (lhs rhs : Expr)
  | cast (e : Expr) (ty : Typ)
  | field (base : Expr) (name : String)
  | method (receiver : Expr) (method : String) (generics : List Typ) (args : List Arg)
  | call (callee : Expr) (args : List Arg)
  | index (base index : Expr)
  | trust (tag crib : Expr)
  | struct (lit : StructLit)
  | array (elems : List Expr)
  | cop (init : CopInit) (crib : Expr)

inductive Arg where
  | mk (label : Option String) (value : Expr)

inductive StructLit where
  | mk (name : String) (generics : List Typ) (fields : List (String × Expr))

inductive CopInit where
  | struct (lit : StructLit)
  | variant (name : String) (args : List Arg)

end

structure VarDecl where
  targets : List String
  ty : Option Typ
  values : List Expr

structure ConstDecl where
  name : String
  ty : Option Typ
  value : Expr

structure CribDecl where
  name : String
  ty : Option Typ

mutual

inductive Stmt where
  | var (v : VarDecl)
  | const (c : ConstDecl)
  | crib (c : CribDecl)
  | fr (cond : Expr) (thenBlock : List Stmt) (elifs : List (Expr × List Stmt))
      (els : Option (List Stmt))
  | vibin (cond : Expr) (body : List Stmt)
  | squad (var : String) (iter : Expr) (body : List Stmt)
  | vibe (scrutinee : Expr) (arms : List MatchArm) (default : Option (List Stmt))
  | holla (binding : String) (tag crib : Expr) (live ghosted : List Stmt)
  | sheesh (body : List Stmt) (recover : Option (String × List Stmt))
  | evict (crib : Expr) (tag : Option Expr)
  | slide (call : Expr)
  | bet (exprs : List Expr)
  | bounce (e : Expr)
  | yeet (e : Expr)
  | dip
  | skip
  | assign (targets : List Expr) (op : AssignOp) (values : List Expr)
  | expr (e : Expr)

inductive MatchArm where
  | mk (variant : String) (bindings : List String) (body : List Stmt)

end

abbrev Block := List Stmt

structure Param where
  name : String
  ty : Typ

structure FnDecl where
  receiver : Option Param
  name : String
  params : List Param
  ret : RetType
  body : Block

inductive Item where
  | func (f : FnDecl)
  | drip (d : DripDecl)
  | moods (m : MoodsDecl)
  | crib (c : CribDecl)
  | const (c : ConstDecl)
  | var (v : VarDecl)
  | extern_ (name : String)

abbrev Program := List Item

structure VariantInfo where
  moods : String
  arity : Nat

/-- The maps of the interpreter that the run does not change; a later insertion stands first. -/
structure Tables where
  funcs : List (String × FnDecl)
  methods : List ((String × String) × FnDecl)
  drips : List (String × DripDecl)
  variants : List (String × VariantInfo)
  externs : List String

/-- The bare name at the head of a type, ignoring generic arguments. -/
def typeHead : Typ → String
  | .named name _ => name
  | .slice inner | .tag inner | .crib inner | .soa inner => typeHead inner
  | .array elem _ => typeHead elem
  | .fn _ _ => "finna"
  | .rawPtr => "rawptr"

def Tables.register (tb : Tables) : Item → Tables
  | .func f =>
    match f.receiver with
    | some recv => { tb with methods := ((typeHead recv.ty, f.name), f) :: tb.methods }
    | none => { tb with funcs := (f.name, f) :: tb.funcs }
  | .drip d => { tb with drips := (d.name, d) :: tb.drips }
  | .moods m =>
    let info (v : Collect.VariantDecl) : String × VariantInfo := (v.name, ⟨m.name, v.payload.length⟩)
    { tb with variants := (m.variants.map info).reverse ++ tb.variants }
  | .extern_ name => { tb with externs := name :: tb.externs }
  | .crib _ | .const _ | .var _ => tb

def Program.tables (p : Program) : Tables :=
  p.foldl Tables.register { funcs := [], methods := [], drips := [], variants := [], externs := [] }

/-- The declared type of a struct's field. The arguments of a generic drip are erased. -/
def Tables.fieldTy (tb : Tables) (ty field : String) : Option Typ :=
  (tb.drips.lookup ty).bind fun d => (d.fields.find? (·.name == field)).map (·.ty)

def compoundBinop : AssignOp → Ast.BinOp
  | .addEq => .add
  | .subEq => .sub
  | .mulEq => .mul
  | .divEq => .div
  | .remEq => .rem
  | .andEq => .bitAnd
  | .orEq => .bitOr
  | .xorEq => .bitXor
  | .shlEq => .shl
  | .shrEq => .shr
  | .eq => .eq

end BetLang.Eval
