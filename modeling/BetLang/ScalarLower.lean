import BetLang.CodegenInt
import BetLang.ControlExec
import BetLang.Scalar

/-! The lowering of the scalar core, and the machine that runs what it is lowered to. The names and
the operands are resolved first, to code whose control flow is lowered to blocks then. -/

namespace BetLang.Scalar

open Codegen (lowerIntBinop lowerUnop intPredicate)
open Eval (AssignOp compoundBinop)
open Ir (Operand Rvalue ArithMode)

inductive Op where
  | assign (dest : Nat) (rv : Rvalue)
  | call (dest fid : Nat) (args : List Operand)
  | shortCircuit (res : Nat) (lhs rhs : Operand)
  | cond (c : Operand)
  /-- The values of a `bet`. -/
  | ret (vals : List Operand)

abbrev Code := Control.Expr Op

def Ty.ir : Ty → Ir.Ty
  | .int => .int .w64 true
  | .bool => .bool

/-- `rets_to_ty` -/
def retTy : Option Ty → Ir.Ty
  | none => .void
  | some t => t.ir

def arithMode : Ir.Ty → Ir.BinOp → ArithMode
  | .int _ signed, op => Lower.arithMode signed op
  | _, _ => .na

def copy (l : Nat) : Operand := .copy (.local l)

/-- The code of an expression and what its value is read from, with the types of the locals behind
it. -/
structure Lowered where
  code : Code
  op : Operand
  ty : Ir.Ty
  tys : List Ir.Ty

/-- A new local that is assigned behind the code. -/
def emit (code : Code) (rv : Rvalue) (ty : Ir.Ty) (tys : List Ir.Ty) : Lowered :=
  ⟨.seq code (.op (.assign tys.length rv)), copy tys.length, ty, tys ++ [ty]⟩

/-- The result has a local from before the operands. -/
def shortCircuit (isAnd : Bool) (res : Nat) (l r : Lowered) : Lowered :=
  ⟨.shortCircuit isAnd (.shortCircuit res l.op r.op) l.code r.code, copy res, .bool, r.tys⟩

section Lowering

variable (p : Program)

section Exprs

variable (scopes : Scopes Nat)

mutual

def lowerExpr (tys : List Ir.Ty) : Expr → Option Lowered
  | .int i => some ⟨.nil, .const (.int i Ty.int.ir), Ty.int.ir, tys⟩
  | .bool b => some ⟨.nil, .const (.bool b), .bool, tys⟩
  | .name x => do
    let l ← scopes.find x
    return ⟨.nil, copy l, ← tys[l]?, tys⟩
  | .unary op e => do
    let e ← lowerExpr tys e
    return emit e.code (.unOp (Ast.mapUnop op) e.op) (if op = .not then .bool else e.ty) e.tys
  | .binary .and l r => do
    let l ← lowerExpr (tys ++ [.bool]) l
    return shortCircuit true tys.length l (← lowerExpr l.tys r)
  | .binary .or l r => do
    let l ← lowerExpr (tys ++ [.bool]) l
    return shortCircuit false tys.length l (← lowerExpr l.tys r)
  | .binary op l r => do
    let irop ← Ast.mapBinop op
    let l ← lowerExpr tys l
    let r ← lowerExpr l.tys r
    return emit (.seq l.code r.code) (.binOp irop l.op r.op (arithMode l.ty irop))
      (if irop.isComparison then .bool else l.ty) r.tys
  | .call f args =>
    match scopes.find f with
    | some _ => none
    | none => do
      let (fid, fn) ← p.find f
      let (code, ops, tys) ← lowerArgs tys args
      return ⟨.seq code (.call (.call tys.length fid ops)), copy tys.length, retTy fn.ret,
        tys ++ [retTy fn.ret]⟩

def lowerArgs (tys : List Ir.Ty) : List Expr → Option (Code × List Operand × List Ir.Ty)
  | [] => some (.nil, [], tys)
  | e :: es => do
    let e ← lowerExpr tys e
    let (code, ops, tys) ← lowerArgs e.tys es
    return (.seq e.code code, e.op :: ops, tys)

end

end Exprs

def lowerAssign (l : Nat) (pty : Ir.Ty) (e : Lowered) : AssignOp → Option Code
  | .eq => some (.seq e.code (.op (.assign l (.use e.op))))
  | op => do
    let irop ← Ast.mapBinop (compoundBinop op)
    return .seq e.code (.op (.assign l (.binOp irop (copy l) e.op (arithMode pty irop))))

/-- The block has its terminator behind such a statement, and what follows is not lowered. -/
def Stmt.leaves : Stmt → Bool
  | .bet _ | .dip | .skip => true
  | _ => false

mutual

def lowerStmt (scopes : Scopes Nat) (tys : List Ir.Ty) :
    Stmt → Option (Control.Stmt Op × Scopes Nat × List Ir.Ty)
  | .var x ty e => do
    let e ← lowerExpr p scopes tys e
    let v := emit e.code (.use e.op) ((ty.map Ty.ir).getD e.ty) e.tys
    return (.eval v.code, scopes.bind x e.tys.length, v.tys)
  | .assign x op e => do
    let l ← scopes.find x
    let pty ← tys[l]?
    let e ← lowerExpr p scopes tys e
    return (.eval (← lowerAssign l pty e op), scopes, e.tys)
  | .fr chain => do
    let (chain, tys) ← emitIfChain scopes tys chain
    return (.fr chain, scopes, tys)
  | .vibin cond body => do
    let cond ← lowerExpr p scopes tys cond
    let (body, tys) ← lowerStmts ([] :: scopes) cond.tys body
    return (.vibin cond.code (.cond cond.op) body, scopes, tys)
  | .dip => some (.dip, scopes, tys)
  | .skip => some (.skip, scopes, tys)
  | .bet none => some (.bet 0 (.op (.ret [])), scopes, tys)
  | .bet (some e) => do
    let e ← lowerExpr p scopes tys e
    return (.bet 1 (.seq e.code (.op (.ret [e.op]))), scopes, e.tys)
  | .expr e => do
    let e ← lowerExpr p scopes tys e
    return (.eval e.code, scopes, e.tys)

def emitIfChain (scopes : Scopes Nat) (tys : List Ir.Ty) :
    Chain → Option (Control.Chain Op × List Ir.Ty)
  | .done => some (.done, tys)
  | .naw body => do
    let (body, tys) ← lowerStmts ([] :: scopes) tys body
    return (.naw body, tys)
  | .fr cond body rest => do
    let cond ← lowerExpr p scopes tys cond
    let (body, tys) ← lowerStmts ([] :: scopes) cond.tys body
    let (rest, tys) ← emitIfChain scopes tys rest
    return (.fr cond.code (.cond cond.op) body rest, tys)

def lowerStmts (scopes : Scopes Nat) (tys : List Ir.Ty) :
    Block → Option (Control.Block Op × List Ir.Ty)
  | .nil => some (.nil, tys)
  | .cons s rest => do
    let (c, scopes, tys) ← lowerStmt scopes tys s
    if s.leaves then return (.cons c .nil, tys)
    let (rest, tys) ← lowerStmts scopes tys rest
    return (.cons c rest, tys)

end

/-- A parameter has the local of its position. -/
def paramSlots (params : List (String × Ty)) : List (String × Nat) :=
  (params.zipIdx.map fun p => (p.1.1, p.2)).reverse

def lowerFunc (fn : FnDecl) : Option (Control.Func Op) := do
  let (body, _) ← lowerStmts p [[], paramSlots fn.params] (fn.params.map (·.2.ir)) fn.body
  return ⟨⟨if fn.ret.isSome then 1 else 0, false⟩, body⟩

def lower : Option (Control.Program Op) := p.mapM (lowerFunc p)

/-- The blocks of the functions, by number. -/
def compile : Option (List (Cfg.Blocks (Control.Instr Op) (Control.Term Op))) := do
  Control.Lower.lowerProgram (← lower p)

end Lowering

section Machine

/-- The values of the locals; without one it is undefined. -/
abbrev Locals := Nat → Option (Codegen.Scalar 64)

/-- The locals of the running function and what it returns, and the same of the calls around it. -/
structure Machine where
  locals : Locals
  rets : List (Option (Codegen.Scalar 64))
  saved : List (Locals × List (Option (Codegen.Scalar 64)))

def Locals.set (locals : Locals) (l : Nat) (v : Option (Codegen.Scalar 64)) : Locals :=
  fun i => if i = l then v else locals i

def Machine.set (m : Machine) (l : Nat) (v : Option (Codegen.Scalar 64)) : Machine :=
  { m with locals := m.locals.set l v }

def evalOperand (locals : Locals) : Operand → Option (Codegen.Scalar 64)
  | .const (.int v _) => some (.int (.ofInt 64 v))
  | .const (.bool b) => some (.bool b)
  | .copy (.mk l []) | .move (.mk l []) => locals l
  | _ => none

/-- Only the comparisons are defined on two bools. -/
def evalBinOp (op : Ir.BinOp) (mode : ArithMode) :
    Option (Codegen.Scalar 64) → Option (Codegen.Scalar 64) → Llvm.Outcome (Codegen.Scalar 64)
  | some (.int a), some (.int b) => lowerIntBinop true op a b true mode
  | some (.bool a), some (.bool b) =>
    if op.isComparison then
      .ok (.bool (Llvm.icmp (intPredicate op false) (BitVec.ofBool a) (BitVec.ofBool b)))
    else .undef
  | _, _ => .undef

def evalUnOp (op : Ir.UnOp) : Option (Codegen.Scalar 64) → Llvm.Outcome (Codegen.Scalar 64)
  | some (.int a) => .ok (.int (lowerUnop op a))
  | some (.bool b) => if op = .not then .ok (.bool !b) else .undef
  | none => .undef

def ofOption : Option (Codegen.Scalar 64) → Llvm.Outcome (Codegen.Scalar 64)
  | some v => .ok v
  | none => .undef

def evalRvalue (locals : Locals) : Rvalue → Llvm.Outcome (Codegen.Scalar 64)
  | .use op => ofOption (evalOperand locals op)
  | .binOp op l r mode => evalBinOp op mode (evalOperand locals l) (evalOperand locals r)
  | .unOp op a => evalUnOp op (evalOperand locals a)
  | _ => ofOption none

/-- A trap stops the program. -/
def Machine.assign (m : Machine) (l : Nat) : Llvm.Outcome (Codegen.Scalar 64) → Option Machine
  | .ok v => some (m.set l (some v))
  | .undef => some (m.set l none)
  | .trap _ => none

def act : Control.Instr Op → Machine → Option Machine
  | .eval (.assign l rv), m => m.assign l (evalRvalue m.locals rv)
  | .eval (.ret vals), m => some { m with rets := vals.map (evalOperand m.locals) }
  | .keep (.shortCircuit res _ rhs), m => some (m.set res (evalOperand m.locals rhs))
  | .short (.shortCircuit res _ _) answer, m => some (m.set res (some (.bool answer)))
  | _, m => some m

def test : Control.Test Op → Machine → Bool
  | .cond (.cond c), m | .cond (.shortCircuit _ c _), m =>
    evalOperand m.locals c == some (.bool true)
  | _, _ => false

def enter : Op → Machine → Option Machine
  | .call _ _ args, m =>
    some ⟨fun i => args[i]?.bind (evalOperand m.locals), [], (m.locals, m.rets) :: m.saved⟩
  | _, m => some m

/-- The caller goes on, with the result in one of its locals. -/
def leave : Op → Machine → Option Machine
  | .call dest _ _, ⟨_, rets, (locals, rets') :: saved⟩ =>
    some ⟨locals.set dest rets.head?.join, rets', saved⟩
  | _, m => some m

def sem : Control.Sem Op Machine where
  act := act
  test := test
  variant _ _ := ""
  resolve _ _ := none
  callee
    | .call _ fid _, _ => fid
    | _, _ => 0
  enter := enter
  leave := leave

end Machine

end BetLang.Scalar
