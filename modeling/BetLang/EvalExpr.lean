import BetLang.EvalStore

/-! The evaluation of expressions, over an evaluator of the expressions and blocks inside. -/

namespace BetLang.Eval

open Collect (Typ RetType DripDecl FieldDecl)
open Interp (Value RunError IntTy intTy binaryOpInt unaryOpInt castInt)
open Traced

inductive Flow where
  | normal
  | break_
  | continue_
  | return_ (vals : List Value)

/-- A result of the modules around the program: it holds no struct and no sized integer. -/
inductive Plain where
  | word (v : BitVec 64)
  | float (bits : BitVec 64)
  | bool (b : Bool)
  | str (s : String)
  | rng (addr : Nat)
  | bytes (bs : List (BitVec 8))
  | words (vs : List (BitVec 64))

def Plain.value : Plain → Value
  | .word v => .word v
  | .float bits => .float bits
  | .bool b => .bool b
  | .str s => .str s
  | .rng addr => .rng addr
  | .bytes bs => .array (bs.map .byte)
  | .words vs => .array (vs.map .word)

inductive Fault where
  | type (msg : String)
  | unsupported (msg : String)
  | undefined (name : String)
  | allocLimit (requested : Nat)

def Fault.halt : Fault → Halt
  | .type msg => .raise (.type msg)
  | .unsupported msg => .raise (.unsupported msg)
  | .undefined name => .raise (.undefined name)
  | .allocLimit requested => .allocLimit requested

/-- Floating point, equality and the text of values, and the modules `str`, `bytes`, `math`, `sys`,
`fs` and `gg`. -/
structure Prims (W : Type) where
  display : List Cell → Value → String
  formatStr : List Cell → String → List Value → Except String String
  /-- The derived equality where not both are integers. -/
  equal : List Cell → Value → Value → Bool
  floatBinary : Ast.BinOp → BitVec 64 → BitVec 64 → Except Fault Plain
  floatNeg : BitVec 64 → BitVec 64
  floatEq : BitVec 64 → BitVec 64 → Bool
  ofInt : Int → BitVec 64
  trunc : BitVec 64 → Int
  call : String → String → List Value → W → Except Fault (List Plain) × W
  lossy : List (BitVec 8) → String
  /-- The methods of a generator. -/
  draw : Nat → String → List Value → W → Except Fault Plain × W

/-- The parts of the interpreter that an expression or a statement goes back to. -/
structure Evaluator (W : Type) where
  expr : Expr → Run W Value
  block : Block → Run W Flow
  vibin : Expr → Block → Run W Flow
  zeroDefault : Typ → List (String × Typ) → Run W Value

def maxDepth : Nat := 1024

def maxAllocElems : Nat := 16 * 1024 * 1024

section

variable {W : Type}

def enterDepth : Run W Unit := do
  let s ← get
  if s.depth + 1 > maxDepth then raise (.recursionLimit maxDepth)
  else modify fun s => { s with depth := s.depth + 1 }

def exitDepth : Run W Unit := modify fun s => { s with depth := s.depth - 1 }

/-- A computation one level deeper; the counter is restored on an error too. -/
def deeper {α : Type} (x : Run W α) : Run W α := do
  enterDepth
  let r ← caught x
  exitDepth
  ofExcept r

def checkedAlloc (requested : Nat) : Run W Unit :=
  if requested > maxAllocElems then fail (.allocLimit requested) else pure ()

mutual

def valueCells : Value → Nat
  | .array xs => 1 + cellsOf xs
  | _ => 1

def cellsOf : List Value → Nat
  | [] => 0
  | x :: xs => valueCells x + cellsOf xs

end

def exactlyOne : List Value → Run W Value
  | [v] => pure v
  | vals => raise (.destructure 1 vals.length)

/-- A non-negative index. -/
def indexOf : Value → Run W Nat
  | .int i ty =>
    if 0 ≤ i.toInt then pure i.toNat
    else raise (.type s!"index must be a non-negative int, got {(Value.int i ty).typeName}")
  | other => raise (.type s!"index must be a non-negative int, got {other.typeName}")

def vecAt (addr : Nat) : Run W (Option Typ × List Value) := do
  let s ← get
  match s.store.heap[addr]? with
  | some (.vec declared elems) => return (declared, elems)
  | _ => raise (.type "not a vec")

def stashAt (addr : Nat) : Run W (List (Value × Value)) := do
  let s ← get
  match s.store.heap[addr]? with
  | some (.stash entries) => return entries
  | _ => raise (.type "not a stash")

def setCell (addr : Nat) (ws : List Write) (c : Cell) : Run W Unit :=
  change ws fun st => { st with heap := st.heap.set addr c }

def unopName : Ast.UnOp → String
  | .neg => "Neg"
  | .not => "Not"
  | .bitNot => "BitNot"

def unaryOp (pr : Prims W) (op : Ast.UnOp) (v : Value) : Except RunError Value :=
  match op, v with
  | .not, .bool b => .ok (.bool !b)
  | .neg, .int v ty => unaryOpInt .neg v ty
  | .neg, .float f => .ok (.float (pr.floatNeg f))
  | .bitNot, .int v ty => unaryOpInt .bitNot v ty
  | op, v => .error (.type s!"cannot apply `{unopName op}` to {v.typeName}")

def binopName : Ast.BinOp → String
  | .or => "Or"
  | .and => "And"
  | .eq => "Eq"
  | .ne => "Ne"
  | .lt => "Lt"
  | .le => "Le"
  | .gt => "Gt"
  | .ge => "Ge"
  | .bitOr => "BitOr"
  | .bitXor => "BitXor"
  | .bitAnd => "BitAnd"
  | .shl => "Shl"
  | .shr => "Shr"
  | .add => "Add"
  | .sub => "Sub"
  | .mul => "Mul"
  | .div => "Div"
  | .rem => "Rem"

/-- The derived equality: of an integer only the payload counts. -/
def derivedEq (pr : Prims W) (heap : List Cell) (l r : Value) : Bool :=
  match l, r with
  | .int a _, .int b _ => a == b
  | l, r => pr.equal heap l r

def valuesEqual (pr : Prims W) (heap : List Cell) (l r : Value) : Bool :=
  match l, r with
  | .int a _, .float b => pr.floatEq (pr.ofInt a.toInt) b
  | .float a, .int b _ => pr.floatEq a (pr.ofInt b.toInt)
  | l, r => derivedEq pr heap l r

def floatOp (pr : Prims W) (op : Ast.BinOp) (a b : BitVec 64) : Except Halt Value :=
  match pr.floatBinary op a b with
  | .ok v => .ok v.value
  | .error e => .error e.halt

def binaryOp (pr : Prims W) (heap : List Cell) (op : Ast.BinOp) (l r : Value) :
    Except Halt Value :=
  match op with
  | .eq => .ok (.bool (valuesEqual pr heap l r))
  | .ne => .ok (.bool !(valuesEqual pr heap l r))
  | _ =>
    match l, r with
    | .int a ta, .int b tb =>
      match binaryOpInt op a ta b tb with
      | .ok v => .ok v
      | .error e => .error (.raise e)
    | .float a, .float b => floatOp pr op a b
    | .int a _, .float b => floatOp pr op (pr.ofInt a.toInt) b
    | .float a, .int b _ => floatOp pr op a (pr.ofInt b.toInt)
    | .str a, .str b =>
      if op = .add then .ok (.str (a ++ b))
      else .error (.raise (.type s!"cannot apply `{binopName op}` to str and str"))
    | l, r =>
      .error (.raise (.type s!"cannot apply `{binopName op}` to {l.typeName} and {r.typeName}"))

def cast (pr : Prims W) (v : Value) : Typ → Except RunError Value
  | .named name _ =>
    if (intTy name).isSome then castInt pr.trunc v name
    else if name = "f32" ∨ name = "f64" ∨ name = "float" then
      match v with
      | .int i _ => .ok (.float (pr.ofInt i.toInt))
      | .float f => .ok (.float f)
      | .byte b => .ok (.float (pr.ofInt b.toNat))
      | other => .error (.type s!"cannot cast {other.typeName} to {name}")
    else .error (.unsupported s!"cast to `{name}`")
  | _ => .error (.unsupported "cast")

end

section

variable {W : Type} (pr : Prims W) (tb : Tables) (ev : Evaluator W)

def evalExprs : List Expr → Run W (List Value)
  | [] => pure []
  | e :: es => do
    let v ← ev.expr e
    let vs ← evalExprs es
    return v :: vs

def Arg.value : Arg → Expr
  | .mk _ value => value

def evalArgs (args : List Arg) : Run W (List Value) := evalExprs ev (args.map Arg.value)

def declareParams : List Param → List Value → Run W Unit
  | p :: ps, v :: vs => do
    declareAs p.name (some p.ty) v
    declareParams ps vs
  | _, _ => pure ()

def retTypes : RetType → List Typ
  | .none => []
  | .single t => [t]
  | .multi ts => ts

/-- The results with their declared types. -/
def results (ret : RetType) (vals : List Value) : List Slot :=
  (vals.zip ((retTypes ret).map some ++ List.replicate vals.length none)).map fun p => ⟨p.2, p.1⟩

def declareReceiver : Option Param → Option Value → Run W Unit
  | some param, some val =>
    change [.plain (some param.ty) val] fun st =>
      { st with env := st.env.declare param.name ⟨some param.ty, val⟩ }
  | _, _ => pure ()

def pushRet (ret : RetType) : Run W Unit := modify fun s => { s with retStack := ret :: s.retStack }

def popRet : Run W Unit := modify fun s => { s with retStack := s.retStack.tail }

def callFnInner (f : FnDecl) (args : List Value) (receiver : Option Value) :
    Run W (List Value) := do
  if args.length ≠ f.params.length then raise (.arity f.name f.params.length args.length)
  else do
    pushFrame
    declareReceiver f.receiver receiver
    declareParams f.params args
    -- a `bounce` inside shapes its early return by the frame's return type
    pushRet f.ret
    let result ← caught (ev.block f.body)
    popRet
    popFrame
    match ← ofExcept result with
    | .return_ vals => do
      let slots := results f.ret vals
      change (slots.map fun sl => .plain sl.declared sl.value) fun st => { st with returned := slots }
      return vals
    | .normal => return []
    | .break_ | .continue_ => raise (.type s!"`dip`/`skip` outside a loop in `{f.name}`")

def callFn (f : FnDecl) (args : List Value) (receiver : Option Value) : Run W (List Value) :=
  deeper (callFnInner ev f args receiver)

def callNamedFn (fname : String) (args : List Arg) : Run W (List Value) :=
  match tb.funcs.lookup fname with
  | none => raise (.undefined fname)
  | some f => do
    let argVals ← evalArgs ev args
    callFn ev f argVals none

/-- A first-class function on evaluated arguments. -/
def applyFnValue (f : Value) (argVals : List Value) : Run W Value :=
  match f with
  | .fn fname =>
    match tb.funcs.lookup fname with
    | none => raise (.undefined fname)
    | some decl => do
      let out ← callFn ev decl argVals none
      return out.headD .ghosted
  | other => raise (.type s!"expected a `finna` value, got {other.typeName}")

def constructVariant (name moods : String) (arity : Nat) (args : List Arg) : Run W Value :=
  if args.length ≠ arity then raise (.arity s!"variant `{name}`" arity args.length)
  else do
    let payload ← evalArgs ev args
    return .variant moods name payload

def evalCrib (e : Expr) : Run W Nat := do
  match ← ev.expr e with
  | .crib id => return id
  | other => raise (.type s!"expected a crib, got {other.typeName}")

def evalBool (e : Expr) : Run W Bool := do
  match ← ev.expr e with
  | .bool b => return b
  | other => raise (.type s!"condition must be a bool, got {other.typeName}")

def evalName (name : String) : Run W Value := do
  let s ← get
  match s.store.env.get name with
  | some slot => return slot.value
  | none =>
    match s.store.globals.lookup name with
    | some slot => return slot.value
    | none =>
      match tb.variants.lookup name with
      | some info =>
        if info.arity = 0 then return .variant info.moods name []
        else raise (.arity s!"variant `{name}`" info.arity 0)
      | none =>
        if (tb.funcs.lookup name).isSome then return .fn name else raise (.undefined name)

def binary (op : Ast.BinOp) (l r : Value) : Run W Value := do
  let s ← get
  ofExcept (binaryOp pr s.store.heap op l r)

def evalBinary (op : Ast.BinOp) (lhs rhs : Expr) : Run W Value :=
  match op with
  | .and => do
    if ← evalBool ev lhs then return .bool (← evalBool ev rhs) else return .bool false
  | .or => do
    if ← evalBool ev lhs then return .bool true else return .bool (← evalBool ev rhs)
  | _ => do
    let l ← ev.expr lhs
    let r ← ev.expr rhs
    binary pr op l r

/-- The given fields of a literal. -/
def evalFields (sty : String) :
    List (String × Value) → List (String × Expr) → Run W (List (String × Value))
  | acc, [] => pure acc
  | acc, (name, e) :: rest => do
    let val ← ev.expr e
    report [.plain (tb.fieldTy sty name) val]
    evalFields sty (insertField acc name val) rest

/-- What the error of a field's default is turned into. -/
def defaultError (sty field : String) : Halt → Halt
  | .raise (.type why) =>
    .raise (.type (s!"`{sty}` field `{field}` cannot zero-default (type error: {why}); " ++
      "initialize it explicitly"))
  | other => other

/-- The zeros of the fields that `acc` does not have. -/
def defaultFields (sty : String) (subst : List (String × Typ)) (wrap : String → Halt → Halt) :
    List (String × Value) → List FieldDecl → Run W (List (String × Value))
  | acc, [] => pure acc
  | acc, fd :: rest =>
    if (acc.lookup fd.name).isSome then defaultFields sty subst wrap acc rest
    else do
      match ← caught (ev.zeroDefault fd.ty subst) with
      | .error e => fail (wrap fd.name e)
      | .ok val =>
        report [.plain (tb.fieldTy sty fd.name) val]
        defaultFields sty subst wrap (insertField acc fd.name val) rest

def evalStructLit : StructLit → Run W Value
  | .mk name generics fields => do
    let given ← evalFields tb ev name [] fields
    match tb.drips.lookup name with
    | none => return .struct name given
    | some decl =>
      let all ← defaultFields tb ev name (decl.generics.zip generics) (defaultError name) given
        decl.fields
      return .struct name all

def zeroScalar (name : String) : Option Value :=
  if (intTy name).isSome ∨ name = "uint" then some (.word 0)
  else if name = "float" ∨ name = "f32" ∨ name = "f64" then some (.float 0)
  else if name = "bool" then some (.bool false)
  else if name = "str" then some (.str "")
  else if name = "vec" ∨ name = "stash" ∨ name = "rng" then some .ghosted
  else none

/-- The zero of a field's declared type; `subst` gives the type parameters of the drip around. -/
def zeroDefault (ty : Typ) (subst : List (String × Typ)) : Run W Value :=
  match ty with
  | .named name args =>
    match subst.lookup name with
    | some sub => ev.zeroDefault sub []
    | none =>
      match zeroScalar name with
      | some v => pure v
      | none =>
        match tb.drips.lookup name with
        | none => raise (.type s!"`{name}` has no zero value")
        | some decl => do
          let fields ← defaultFields tb ev name (decl.generics.zip args) (fun _ e => e) []
            decl.fields
          return .struct name fields
  | .slice _ => pure (.array [])
  | .array elem n => do
    let z ← ev.zeroDefault elem subst
    checkedAlloc (n * valueCells z)
    return .array (List.replicate n z)
  | .tag _ | .crib _ | .fn _ _ => pure .ghosted
  | .soa inner => ev.zeroDefault inner subst
  | .rawPtr => pure (.word 0)

def evalCopInit : CopInit → Run W Value
  | .struct lit => evalStructLit tb ev lit
  | .variant name args =>
    match tb.variants.lookup name with
    | none => raise (.undefined name)
    | some info => constructVariant ev name info.moods info.arity args

def evalCop (init : CopInit) (crib : Expr) : Run W Value := do
  let initVal ← evalCopInit tb ev init
  let id ← evalCrib ev crib
  let s ← get
  match s.store.arenas[id]? with
  | none => raise (.type "cop into an unknown crib")
  | some arena =>
    let (arena', slot, generation) := arena.alloc initVal
    change [] fun st => { st with arenas := st.arenas.set id arena' }
    if arena.typed then return .tag id slot generation else return initVal

end

end BetLang.Eval
