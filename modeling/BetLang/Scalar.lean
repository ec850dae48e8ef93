import BetLang.EvalAst

/-! The scalar core of the language: functions over `int` and `bool`, and which programs of it are
well-typed. -/

namespace BetLang.Scalar

open Eval (AssignOp compoundBinop)

inductive Ty where
  | int | bool
  deriving DecidableEq, Repr

inductive Expr where
  | int (i : Int)
  | bool (b : Bool)
  | name (name : String)
  | unary (op : Ast.UnOp) (operand : Expr)
  | binary (op : Ast.BinOp) (lhs rhs : Expr)
  | call (callee : String) (args : List Expr)

mutual

inductive Stmt where
  | var (target : String) (ty : Option Ty) (value : Expr)
  | assign (target : String) (op : AssignOp) (value : Expr)
  | fr (chain : Chain)
  | vibin (cond : Expr) (body : Block)
  | dip
  | skip
  | bet (value : Option Expr)
  | expr (e : Expr)

/-- `fr .. naw fr .. naw ..`. -/
inductive Chain where
  | done
  | naw (body : Block)
  | fr (cond : Expr) (body : Block) (rest : Chain)

inductive Block where
  | nil
  | cons (s : Stmt) (rest : Block)

end

structure FnDecl where
  name : String
  params : List (String × Ty)
  ret : Option Ty
  body : Block

abbrev Program := List FnDecl

/-- The number of a function and its declaration. -/
def Program.find (p : Program) (name : String) : Option (Nat × FnDecl) :=
  (p.findIdx? (·.name == name)).bind fun i => p[i]?.map (i, ·)

/-- What is bound to names, scope by scope, the innermost first. -/
abbrev Scopes (α : Type) := List (List (String × α))

section Scopes

variable {α : Type}

def Scopes.find (scopes : Scopes α) (name : String) : Option α := scopes.findSome? (·.lookup name)

/-- A later binding of a name stands before an earlier one. -/
def Scopes.bind (name : String) (a : α) : Scopes α → Scopes α
  | [] => []
  | sc :: rest => ((name, a) :: sc) :: rest

end Scopes

def unaryTy : Ast.UnOp → Ty → Option Ty
  | .not, .bool => some .bool
  | .neg, .int | .bitNot, .int => some .int
  | _, _ => none

def binaryTy : Ast.BinOp → Ty → Ty → Option Ty
  | .and, .bool, .bool | .or, .bool, .bool => some .bool
  | .eq, l, r | .ne, l, r => if l = r then some .bool else none
  | .lt, .int, .int | .le, .int, .int | .gt, .int, .int | .ge, .int, .int => some .bool
  | .add, .int, .int | .sub, .int, .int | .mul, .int, .int | .div, .int, .int | .rem, .int, .int
  | .bitAnd, .int, .int | .bitOr, .int, .int | .bitXor, .int, .int | .shl, .int, .int
  | .shr, .int, .int => some .int
  | _, _, _ => none

section Typing

variable (p : Program)

/-- The function that a call is to. -/
def callTarget (ctx : Scopes Ty) (f : String) (ts : List Ty) : Option (Nat × FnDecl) :=
  (p.find f).filter fun fn => ctx.find f = none ∧ fn.2.params.map (·.2) = ts

mutual

def typeOf (ctx : Scopes Ty) : Expr → Option Ty
  | .int _ => some .int
  | .bool _ => some .bool
  | .name x => ctx.find x
  | .unary op e => (typeOf ctx e).bind fun t => unaryTy op t
  | .binary op l r => (typeOf ctx l).bind fun tl => (typeOf ctx r).bind fun tr => binaryTy op tl tr
  | .call f args => (typesOf ctx args).bind fun ts =>
    (callTarget p ctx f ts).bind fun fn => fn.2.ret

def typesOf (ctx : Scopes Ty) : List Expr → Option (List Ty)
  | [] => some []
  | e :: es => (typeOf ctx e).bind fun t => (typesOf ctx es).map (t :: ·)

end

/-- A call as a statement may have no value. -/
def callTyped (ctx : Scopes Ty) : Expr → Bool
  | .call f args => ((typesOf p ctx args).bind (callTarget p ctx f)).isSome
  | e => (typeOf p ctx e).isSome

variable (ret : Option Ty)

mutual

/-- The bindings behind a statement. -/
def stmtTyped (inLoop : Bool) (ctx : Scopes Ty) : Stmt → Option (Scopes Ty)
  | .var x ty e => (typeOf p ctx e).bind fun t =>
    if ty = none ∨ ty = some t then some (ctx.bind x t) else none
  | .assign x op e => (typeOf p ctx e).bind fun t =>
    if ctx.find x = some t ∧ (op = .eq ∨ binaryTy (compoundBinop op) t t = some t) then some ctx
    else none
  | .fr chain => if chainTyped inLoop ctx chain then some ctx else none
  | .vibin cond body =>
    if typeOf p ctx cond = some .bool ∧ stmtsTyped true ([] :: ctx) body then some ctx else none
  | .dip | .skip => if inLoop then some ctx else none
  | .bet none => if ret = none then some ctx else none
  | .bet (some e) => if ret ≠ none ∧ typeOf p ctx e = ret then some ctx else none
  | .expr e => if callTyped p ctx e then some ctx else none

def chainTyped (inLoop : Bool) (ctx : Scopes Ty) : Chain → Bool
  | .done => true
  | .naw body => stmtsTyped inLoop ([] :: ctx) body
  | .fr cond body rest =>
    typeOf p ctx cond = some .bool && stmtsTyped inLoop ([] :: ctx) body &&
      chainTyped inLoop ctx rest

/-- The statements of a block, whose scope is the innermost one. -/
def stmtsTyped (inLoop : Bool) (ctx : Scopes Ty) : Block → Bool
  | .nil => true
  | .cons s rest =>
    match stmtTyped inLoop ctx s with
    | some ctx => stmtsTyped inLoop ctx rest
    | none => false

end

end Typing

mutual

/-- No path through the statement goes on behind it. -/
def Stmt.returns : Stmt → Bool
  | .bet _ | .dip | .skip => true
  | .fr chain => chain.returns
  | _ => false

def Chain.returns : Chain → Bool
  | .done => false
  | .naw body => body.returns
  | .fr _ body rest => body.returns && rest.returns

def Block.returns : Block → Bool
  | .nil => false
  | .cons s rest => s.returns || rest.returns

end

/-- The parameters, as they are bound one after the other. -/
def FnDecl.scope (fn : FnDecl) : List (String × Ty) := fn.params.reverse

def FnDecl.Typed (p : Program) (fn : FnDecl) : Prop :=
  stmtsTyped p fn.ret false [[], fn.scope] fn.body = true ∧ (fn.ret ≠ none → fn.body.returns = true)

structure Program.Typed (p : Program) : Prop where
  names : (p.map (·.name)).Nodup
  funcs : ∀ fn ∈ p, fn.Typed p

end BetLang.Scalar
