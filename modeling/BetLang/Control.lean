import BetLang.Cfg

/-! The control flow of function bodies and its lowering to blocks. What the straight-line parts do
is open; of the types only the variants of a sum matter. -/

namespace BetLang.Control

open Cfg

variable {Op : Type}

/-- A straight-line part of the code that belongs to an operation. -/
inductive Instr (Op : Type) where
  | eval (o : Op)
  /-- A call of a function of the program, directly or through a value. -/
  | call (o : Op)
  /-- `&&`, `||`: the answer is that of the right operand. -/
  | keep (o : Op)
  /-- `&&`, `||`: the answer without the right operand. -/
  | short (o : Op) (answer : Bool)
  /-- `nocap` or `cap`. -/
  | print (o : Op) (value : Bool)
  /-- The length and the counter of a loop. -/
  | start (o : Op)
  | compare (o : Op)
  | element (o : Op)
  | push (o : Op)
  | advance (o : Op)
  | discriminant (o : Op)
  /-- The fields of a variant are bound. -/
  | payload (o : Op) (variant : Nat)
  deriving DecidableEq

/-- The bool that a branch reads. -/
inductive Test (Op : Type) where
  | cond (o : Op)
  /-- Another round of a counter loop. -/
  | more (o : Op)
  /-- What the callback of `vibeCheck` returned. -/
  | keep (o : Op)
  deriving DecidableEq

structure Variant where
  name : String
  fields : Nat
  deriving DecidableEq

inductive Term (Op : Type) where
  | goto (target : Nat)
  | branch (cond : Test Op) (thenBb elseBb : Nat)
  | switch (scrutinee : Op) (sum : List Variant) (cases : List (Nat × Nat)) (default : Nat)
  | hollaCheck (o : Op) (live ghosted : Nat)
  | ret
  | panic
  | unreachable

inductive Expr (Op : Type) where
  | nil
  | op (o : Op)
  | call (o : Op)
  | seq (first second : Expr Op)
  | shortCircuit (isAnd : Bool) (o : Op) (l r : Expr Op)
  /-- `spill` of a bool. -/
  | printBool (o : Op)
  /-- `glowUp` over a collection that is evaluated. -/
  | map (o : Op)
  /-- `vibeCheck` over a collection that is evaluated. -/
  | filter (o : Op)

mutual

inductive Stmt (Op : Type) where
  /-- A declaration, an assignment, an expression, `evict` or `slide`. -/
  | eval (e : Expr Op)
  | bet (count : Nat) (vals : Expr Op)
  | yeet (msg : Expr Op)
  | bounce (e : Expr Op) (o : Op)
  | dip
  | skip
  | fr (chain : Chain Op)
  | vibin (cond : Expr Op) (o : Op) (body : Block Op)
  | squad (iter : Expr Op) (o : Op) (body : Block Op)
  | vibe (scrutinee : Expr Op) (o : Op) (sum : List Variant) (arms : Arms Op)
  | holla (operands : Expr Op) (o : Op) (live ghosted : Block Op)

/-- `fr .. naw fr .. naw ..`. -/
inductive Chain (Op : Type) where
  | done
  | naw (body : Block Op)
  | fr (cond : Expr Op) (o : Op) (body : Block Op) (rest : Chain Op)

inductive Arms (Op : Type) where
  | done
  | naw (body : Block Op)
  | arm (variant : String) (bindings : Nat) (body : Block Op) (rest : Arms Op)

inductive Block (Op : Type) where
  | nil
  | cons (s : Stmt Op) (rest : Block Op)

end

/-- How many values a function returns, and whether the last is a `yikes`. -/
structure Sig where
  rets : Nat
  yikes : Bool

structure Func (Op : Type) where
  sig : Sig
  body : Block Op

abbrev Program (Op : Type) := List (Func Op)

namespace Lower

abbrev State (Op : Type) := Builder (Instr Op) (Term Op)

/-- `header` or the increment block, and the exit, of each loop around a statement. -/
abbrev Loops := List (Nat × Nat)

def variantIndex (sum : List Variant) (name : String) : Option Nat :=
  sum.findIdx? (·.name == name)

/-- The header with its test, the body, the exit. The body is given the header and the exit. -/
def lowerLoop (header : State Op → Option (State Op)) (test : Test Op)
    (body : Nat → Nat → State Op → Option (State Op)) (st : State Op) : Option (State Op) := do
  let headerBb := st.blocks.length
  let st ← header ((st.reserveBlock.setTerm st.cur (.goto headerBb)).select headerBb)
  let headerEnd := st.cur
  let bodyBb := st.blocks.length
  let exit := st.newBlock.blocks.length
  let st := st.newBlock.reserveBlock.setTerm headerEnd (.branch test bodyBb exit)
  return (← body headerBb exit (st.select bodyBb)).select exit

/-- `open_count_loop`, a body in the block of the element, `close_count_loop`. -/
def lowerCountLoop (o : Op) (body : State Op → State Op) (st : State Op) : Option (State Op) :=
  lowerLoop (fun st => some (st.emit (.compare o))) (.more o)
    (fun header _ st => some (((body st).emit (.advance o)).terminate (.goto header)))
    (st.emit (.start o))

def lowerExpr (st : State Op) : Expr Op → Option (State Op)
  | .nil => some st
  | .op o => some (st.emit (.eval o))
  | .call o => some (st.emit (.call o))
  | .seq first second => do lowerExpr (← lowerExpr st first) second
  | .shortCircuit isAnd o l r => do
    let st ← lowerExpr st l
    let lhsEnd := st.cur
    let rhsBb := st.blocks.length
    let st ← lowerExpr st.newBlock r
    let rhsEnd := st.cur
    let st := st.emit (.keep o)
    let shortBb := st.blocks.length
    let st := st.newBlock.emit (.short o !isAnd)
    let merge := st.blocks.length
    let st := (st.newBlock.setTerm rhsEnd (.goto merge)).setTerm shortBb (.goto merge)
    let st := st.setTerm lhsEnd
      (if isAnd then .branch (.cond o) rhsBb shortBb else .branch (.cond o) shortBb rhsBb)
    return st.select merge
  | .printBool o =>
    let condEnd := st.cur
    let merge := st.blocks.length
    let st := st.reserveBlock
    let thenBb := st.blocks.length
    let st := (st.newBlock.emit (.print o true)).terminate (.goto merge)
    let elseBb := st.blocks.length
    let st := (st.newBlock.emit (.print o false)).terminate (.goto merge)
    some ((st.setTerm condEnd (.branch (.cond o) thenBb elseBb)).select merge)
  | .map o =>
    lowerCountLoop o (fun st => ((st.emit (.element o)).emit (.call o)).emit (.push o)) st
  | .filter o =>
    lowerCountLoop o (fun st =>
      let st := (st.emit (.element o)).emit (.call o)
      let bodyEnd := st.cur
      let pushBb := st.blocks.length
      let st := st.newBlock.emit (.push o)
      let cont := st.blocks.length
      let st := st.newBlock.setTerm pushBb (.goto cont)
      (st.setTerm bodyEnd (.branch (.keep o) pushBb cont)).select cont) st

mutual

def lowerStmt (sig : Sig) (loops : Loops) (st : State Op) : Stmt Op → Option (State Op)
  | .eval e => lowerExpr st e
  | .bet count vals => do
    guard (count = sig.rets)
    return (← lowerExpr st vals).terminate .ret
  | .yeet msg => do return (← lowerExpr st msg).terminate .panic
  | .bounce e o => do
    let st ← lowerExpr st e
    guard sig.yikes
    let condEnd := st.cur
    let merge := st.blocks.length
    let st := st.reserveBlock
    let thenBb := st.blocks.length
    let st := st.newBlock.terminate .ret
    return (st.setTerm condEnd (.branch (.cond o) thenBb merge)).select merge
  | .dip =>
    match loops with
    | [] => none
    | (_, exit) :: _ => some (st.terminate (.goto exit))
  | .skip =>
    match loops with
    | [] => none
    | (header, _) :: _ => some (st.terminate (.goto header))
  | .fr chain => do
    let merge := st.blocks.length
    return (← emitIfChain sig loops merge st.reserveBlock chain).select merge
  | .vibin cond o body =>
    lowerLoop (fun st => lowerExpr st cond) (.cond o)
      (fun header exit st => do
        return (← lowerBlock sig ((header, exit) :: loops) st body).terminate (.goto header)) st
  | .squad iter o body => do
    let st ← lowerExpr st iter
    lowerLoop (fun st => some (st.emit (.compare o))) (.more o)
      (fun header exit st => do
        let st := st.emit (.element o)
        let incr := st.blocks.length
        let st ← lowerBlock sig ((incr, exit) :: loops) st.reserveBlock body
        let st := ((st.terminate (.goto incr)).select incr).emit (.advance o)
        return st.terminate (.goto header))
      (st.emit (.start o))
  | .vibe scrutinee o sum arms => do
    let st ← lowerExpr st scrutinee
    let st := st.emit (.discriminant o)
    let switchBlock := st.cur
    let merge := st.blocks.length
    let (st, cases, defaultBb) ← lowerArms sig loops o sum merge st.reserveBlock arms
    return (st.setTerm switchBlock (.switch o sum cases defaultBb)).select merge
  | .holla operands o live ghosted => do
    let st ← lowerExpr st operands
    let checkBlock := st.cur
    let merge := st.blocks.length
    let st := st.reserveBlock
    let liveBb := st.blocks.length
    let st := (← lowerBlock sig loops st.newBlock live).terminate (.goto merge)
    let ghostedBb := st.blocks.length
    let st := (← lowerBlock sig loops st.newBlock ghosted).terminate (.goto merge)
    return (st.setTerm checkBlock (.hollaCheck o liveBb ghostedBb)).select merge

def emitIfChain (sig : Sig) (loops : Loops) (merge : Nat) (st : State Op) :
    Chain Op → Option (State Op)
  | .done => some (st.terminate (.goto merge))
  | .naw body => do return (← lowerBlock sig loops st body).terminate (.goto merge)
  | .fr cond o body rest => do
    let st ← lowerExpr st cond
    let condEnd := st.cur
    let thenBb := st.blocks.length
    let st := (← lowerBlock sig loops st.newBlock body).terminate (.goto merge)
    let elseBb := st.blocks.length
    let st ← emitIfChain sig loops merge st.newBlock rest
    return st.setTerm condEnd (.branch (.cond o) thenBb elseBb)

/-- The arms in order, then the default, with the cases of the switch. -/
def lowerArms (sig : Sig) (loops : Loops) (o : Op) (sum : List Variant) (merge : Nat)
    (st : State Op) : Arms Op → Option (State Op × List (Nat × Nat) × Nat)
  | .done => some (st.newBlock.terminate .unreachable, [], st.blocks.length)
  | .naw body => do
    let defaultBb := st.blocks.length
    let st := (← lowerBlock sig loops st.newBlock body).terminate (.goto merge)
    return (st, [], defaultBb)
  | .arm name bindings body rest => do
    let variant ← variantIndex sum name
    guard ((sum[variant]?).map (·.fields) = some bindings)
    let armBb := st.blocks.length
    let st := st.newBlock.emit (.payload o variant)
    let st := (← lowerBlock sig loops st body).terminate (.goto merge)
    let (st, cases, defaultBb) ← lowerArms sig loops o sum merge st rest
    return (st, (variant, armBb) :: cases, defaultBb)

def lowerBlock (sig : Sig) (loops : Loops) (st : State Op) : Block Op → Option (State Op)
  | .nil => some st
  | .cons s rest =>
    if st.done then some st
    else do lowerBlock sig loops (← lowerStmt sig loops st s) rest

end

/-- A function without values returns at its end; another one has no way on there. -/
def lowerFunc (f : Func Op) : Option (Blocks (Instr Op) (Term Op)) := do
  let st ← lowerBlock f.sig [] (Builder.newBlock ⟨[], 0, false⟩) f.body
  let st := st.terminate (if f.sig.rets = 0 then .ret else .unreachable)
  guard (st.blocks.all (·.term.isSome))
  return st.blocks

/-- The functions by number. -/
def lowerProgram (p : Program Op) : Option (List (Blocks (Instr Op) (Term Op))) :=
  p.mapM lowerFunc

end Lower

end BetLang.Control
