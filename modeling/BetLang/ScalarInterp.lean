import BetLang.EvalCall
import BetLang.OrderedCalls
import BetLang.Scalar

/-! How the interpreter runs the scalar core. The fuel bounds the calls around a call and the rounds
of a loop. -/

namespace BetLang.Scalar

open Eval (Flow AssignOp compoundBinop unopName binopName maxDepth coerce)
open Interp (Value RunError binaryOpInt unaryOpInt)
open OrderedCalls (Fueled andThen)

abbrev Run (α : Type) := Fueled RunError α

abbrev Env := Scopes Value

def raise {α : Type} (e : RunError) : Run α := some (.error e)

def Ty.typ : Ty → Collect.Typ
  | .int => .named "int" []
  | .bool => .named "bool" []

/-- `get_mut`, and the new value in the innermost binding of the name. -/
def setIn (name : String) (v : Value) : List (String × Value) → List (String × Value)
  | [] => []
  | (x, old) :: rest => if x == name then (x, v) :: rest else (x, old) :: setIn name v rest

def Env.set (name : String) (v : Value) : Env → Env
  | [] => []
  | sc :: rest =>
    if (sc.lookup name).isSome then setIn name v sc :: rest else sc :: Env.set name v rest

/-- `values_equal`, where no floats are. -/
def equal : Value → Value → Bool
  | .int a _, .int b _ => a == b
  | .bool a, .bool b => a == b
  | _, _ => false

def binaryOp (op : Ast.BinOp) (l r : Value) : Except RunError Value :=
  match op with
  | .eq => .ok (.bool (equal l r))
  | .ne => .ok (.bool !(equal l r))
  | _ =>
    match l, r with
    | .int a ta, .int b tb => binaryOpInt op a ta b tb
    | l, r =>
      .error (.type s!"cannot apply `{binopName op}` to {l.typeName} and {r.typeName}")

def unaryOp : Ast.UnOp → Value → Except RunError Value
  | .not, .bool b => .ok (.bool !b)
  | .neg, .int v ty => unaryOpInt .neg v ty
  | .bitNot, .int v ty => unaryOpInt .bitNot v ty
  | op, v => .error (.type s!"cannot apply `{unopName op}` to {v.typeName}")

/-- A computation one level deeper than `depth`. -/
def deeper {α : Type} (depth : Nat) (x : Nat → Run α) : Run α :=
  if depth + 1 > maxDepth then raise (.recursionLimit maxDepth) else x (depth + 1)

def exactlyOne : List Value → Run Value
  | [v] => some (.ok v)
  | vals => raise (.destructure 1 vals.length)

def asBool : Value → Run Bool
  | .bool b => some (.ok b)
  | other => raise (.type s!"condition must be a bool, got {other.typeName}")

/-- A name that is no variable may be a function, as a value. -/
def evalName (p : Program) (env : Env) (x : String) : Run Value :=
  match env.find x with
  | some v => some (.ok v)
  | none => if (p.find x).isSome then some (.ok (.fn x)) else raise (.undefined x)

def named (p : Program) (f : String) : Except RunError FnDecl :=
  match p.find f with
  | some fn => .ok fn.2
  | none => .error (.undefined f)

/-- The function that a call of a name is to. -/
def callee (p : Program) (env : Env) (f : String) : Except RunError FnDecl :=
  match env.find f with
  | some (.fn g) => named p g
  | some v => .error (.notCallable v.typeName)
  | none => named p f

section Walk

variable (p : Program) (call : FnDecl → Nat → List Value → Run (List Value))

section Exprs

variable (env : Env)

mutual

def evalExpr : Expr → Nat → Run Value
  | .int i, d => deeper d fun _ => some (.ok (.word (.ofInt 64 i)))
  | .bool b, d => deeper d fun _ => some (.ok (.bool b))
  | .name x, d => deeper d fun _ => evalName p env x
  | .unary op e, d => deeper d fun d =>
    andThen (evalExpr e d) fun v => some (unaryOp op v)
  | .binary .and l r, d => deeper d fun d =>
    andThen (andThen (evalExpr l d) asBool) fun b =>
      if b then andThen (andThen (evalExpr r d) asBool) fun b => some (.ok (.bool b))
      else some (.ok (.bool false))
  | .binary .or l r, d => deeper d fun d =>
    andThen (andThen (evalExpr l d) asBool) fun b =>
      if b then some (.ok (.bool true))
      else andThen (andThen (evalExpr r d) asBool) fun b => some (.ok (.bool b))
  | .binary op l r, d => deeper d fun d =>
    andThen (evalExpr l d) fun l => andThen (evalExpr r d) fun r => some (binaryOp op l r)
  | .call f args, d => deeper d fun d =>
    andThen (andThen (some (callee p env f)) fun fn => andThen (evalExprs args d) (call fn d))
      exactlyOne

def evalExprs : List Expr → Nat → Run (List Value)
  | [], _ => some (.ok [])
  | e :: es, d =>
    andThen (evalExpr e d) fun v => andThen (evalExprs es d) fun vs => some (.ok (v :: vs))

end

/-- `eval_call_expr`, whose results are dropped. -/
def evalCallExpr (d : Nat) : Expr → Run (List Value)
  | .call f args =>
    andThen (some (callee p env f)) fun fn => andThen (evalExprs p call env args d) (call fn d)
  | e => andThen (evalExpr p call env e d) fun v => some (.ok [v])

end Exprs

/-- A statement that goes on to the next one, in an environment. -/
def next (x : Run Env) : Run (Flow × Env) := andThen x fun env => some (.ok (.normal, env))

def assign (env : Env) (x : String) (v : Value) : Run Env :=
  if (env.find x).isSome then some (.ok (env.set x v)) else raise (.undefined x)

def execAssign (d : Nat) (env : Env) (x : String) (e : Expr) : AssignOp → Run Env
  | .eq => andThen (evalExpr p call env e d) fun v => assign env x v
  | op =>
    andThen (evalExpr p call env (.name x) d) fun old =>
      andThen (evalExpr p call env e d) fun rhs =>
        andThen (some (binaryOp (compoundBinop op) old rhs)) fun v => assign env x v

/-- What is behind a statement is done only where it ends normally. -/
def follow (x : Run (Flow × Env)) (k : Env → Run (Flow × Env)) : Run (Flow × Env) :=
  andThen x fun out =>
    match out with
    | (.normal, env) => k env
    | out => some (.ok out)

/-- A block in a scope of its own. -/
def inScope (env : Env) (x : Env → Run (Flow × Env)) : Run (Flow × Env) :=
  andThen (x ([] :: env)) fun out => some (.ok (out.1, out.2.tail))

def vibin (cond : Env → Run Bool) (body : Env → Run (Flow × Env)) : Nat → Env → Run (Flow × Env)
  | 0, _ => none
  | n + 1, env =>
    andThen (cond env) fun b =>
      if b then
        andThen (body env) fun out =>
          match out with
          | (.break_, env) => some (.ok (.normal, env))
          | (.return_ vals, env) => some (.ok (.return_ vals, env))
          | (_, env) => vibin cond body n env
      else some (.ok (.normal, env))

variable (d fuel : Nat)

mutual

def execStmt (env : Env) : Stmt → Run (Flow × Env)
  | .var x ty e =>
    next (andThen (evalExpr p call env e d) fun v =>
      some (.ok (env.bind x (coerce v (ty.map Ty.typ)))))
  | .assign x op e => next (execAssign p call d env x e op)
  | .fr chain => execChain env chain
  | .vibin cond body =>
    vibin (fun env => andThen (evalExpr p call env cond d) asBool)
      (fun env => inScope env fun env => execStmts env body) fuel env
  | .dip => some (.ok (.break_, env))
  | .skip => some (.ok (.continue_, env))
  | .bet none => some (.ok (.return_ [], env))
  | .bet (some e) => andThen (evalExpr p call env e d) fun v => some (.ok (.return_ [v], env))
  | .expr e => next (andThen (evalCallExpr p call env d e) fun _ => some (.ok env))

def execChain (env : Env) : Chain → Run (Flow × Env)
  | .done => some (.ok (.normal, env))
  | .naw body => inScope env fun env => execStmts env body
  | .fr cond body rest =>
    andThen (andThen (evalExpr p call env cond d) asBool) fun b =>
      if b then inScope env fun env => execStmts env body else execChain env rest

def execStmts (env : Env) : Block → Run (Flow × Env)
  | .nil => some (.ok (.normal, env))
  | .cons s rest => follow (execStmt env s) fun env => execStmts env rest

end

end Walk

/-- The scope of the parameters; a later one stands before an earlier one. -/
def declareParams : List (String × Ty) → List Value → List (String × Value) → List (String × Value)
  | (x, ty) :: ps, v :: vs, scope =>
    declareParams ps vs ((x, coerce v (some ty.typ)) :: scope)
  | _, _, scope => scope

def finish (fn : FnDecl) : Flow → Run (List Value)
  | .return_ vals => some (.ok vals)
  | .normal => some (.ok [])
  | .break_ | .continue_ => raise (.type s!"`dip`/`skip` outside a loop in `{fn.name}`")

def callFn (p : Program) : Nat → FnDecl → Nat → List Value → Run (List Value)
  | 0, _, _, _ => none
  | n + 1, fn, d, args => deeper d fun d =>
    if args.length ≠ fn.params.length then raise (.arity fn.name fn.params.length args.length)
    else
      andThen (inScope [declareParams fn.params args []] fun env =>
        execStmts p (callFn p n) d n env fn.body) fun out => finish fn out.1

end BetLang.Scalar
