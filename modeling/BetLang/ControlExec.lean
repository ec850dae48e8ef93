import BetLang.Control

/-! Runs of the source, as the interpreter walks it, and of the blocks. Both use one meaning of the
straight-line parts, the conditions and the values of sums. -/

namespace BetLang.Control

open Cfg

/-- What the parts do to the state; without a result the program stops in a panic or a trap. -/
structure Sem (Op σ : Type) where
  act : Instr Op → σ → Option σ
  test : Test Op → σ → Bool
  /-- The variant of a value of a sum. -/
  variant : Op → σ → String
  /-- The state with the binding of `holla`, when the tag is live. -/
  resolve : Op → σ → Option σ
  callee : Op → σ → Nat
  enter : Op → σ → Option σ
  leave : Op → σ → Option σ

namespace Interp

inductive Outcome (σ : Type) where
  | normal (s : σ)
  | brk (s : σ)
  | cont (s : σ)
  | ret (s : σ)
  | panicked
  /-- A `vibe` has no arm for the value. -/
  | nonExhaustive
  /-- The end of a function that returns values is reached: the call has none. -/
  | fellOff
  deriving DecidableEq

/-- A computation, without a result when it takes more rounds than it is given. -/
abbrev Comp (σ : Type) := σ → Option (Outcome σ)

section Combinators

variable {Op σ : Type}

def pure : Comp σ := fun s => some (.normal s)

def leave : Comp σ := fun s => some (.ret s)

def stop (o : Outcome σ) : Comp σ := fun _ => some o

def next (x y : Comp σ) : Comp σ := fun s =>
  match x s with
  | some (.normal s') => y s'
  | out => out

def perform (r : σ → Option σ) : Comp σ := fun s =>
  match r s with
  | some s' => some (.normal s')
  | none => some .panicked

def instr (sem : Sem Op σ) (i : Instr Op) : Comp σ := perform (sem.act i)

def choose (sem : Sem Op σ) (t : Test Op) (x y : Comp σ) : Comp σ := fun s =>
  if sem.test t s then x s else y s

/-- A round of a loop and what follows it. -/
def round (body again : Comp σ) : Comp σ := fun s =>
  match body s with
  | some (.normal s') | some (.cont s') => again s'
  | some (.brk s') => some (.normal s')
  | out => out

def loop (sem : Sem Op σ) (header : Comp σ) (test : Test Op) (body tail : Comp σ) : Nat → Comp σ
  | 0 => fun _ => none
  | n + 1 =>
    next header (choose sem test (round body (next tail (loop sem header test body tail n))) pure)

end Combinators

variable {Op σ : Type}

section Walk

variable (sem : Sem Op σ) (call : Op → Comp σ) (fuel : Nat)

def countLoop (o : Op) (body : Comp σ) : Comp σ :=
  next (instr sem (.start o))
    (loop sem (instr sem (.compare o)) (.more o) (next body (instr sem (.advance o))) pure fuel)

def evalExpr : Expr Op → Comp σ
  | .nil => pure
  | .op o => instr sem (.eval o)
  | .call o => call o
  | .seq first second => next (evalExpr first) (evalExpr second)
  | .shortCircuit isAnd o l r =>
    let rhs := next (evalExpr r) (instr sem (.keep o))
    let short := instr sem (.short o !isAnd)
    next (evalExpr l)
      (if isAnd then choose sem (.cond o) rhs short else choose sem (.cond o) short rhs)
  | .printBool o =>
    choose sem (.cond o) (instr sem (.print o true)) (instr sem (.print o false))
  | .map o =>
    countLoop sem fuel o (next (next (instr sem (.element o)) (call o)) (instr sem (.push o)))
  | .filter o =>
    countLoop sem fuel o (next (next (instr sem (.element o)) (call o))
      (choose sem (.keep o) (instr sem (.push o)) pure))

mutual

def execStmt : Stmt Op → Comp σ
  | .eval e => evalExpr sem call fuel e
  | .bet _ vals => next (evalExpr sem call fuel vals) leave
  | .yeet msg => next (evalExpr sem call fuel msg) (stop .panicked)
  | .bounce e o => next (evalExpr sem call fuel e) (choose sem (.cond o) leave pure)
  | .dip => fun s => some (.brk s)
  | .skip => fun s => some (.cont s)
  | .fr chain => execChain chain
  | .vibin cond o body =>
    loop sem (evalExpr sem call fuel cond) (.cond o) (execBlock body) pure fuel
  | .squad iter o body =>
    next (next (evalExpr sem call fuel iter) (instr sem (.start o)))
      (loop sem (instr sem (.compare o)) (.more o)
        (next (instr sem (.element o)) (execBlock body)) (instr sem (.advance o)) fuel)
  | .vibe scrutinee o sum arms =>
    next (next (evalExpr sem call fuel scrutinee) (instr sem (.discriminant o)))
      fun s => execArms o sum (sem.variant o s) arms s
  | .holla operands o live ghosted =>
    next (evalExpr sem call fuel operands) fun s =>
      match sem.resolve o s with
      | some s' => execBlock live s'
      | none => execBlock ghosted s

def execChain : Chain Op → Comp σ
  | .done => pure
  | .naw body => execBlock body
  | .fr cond o body rest =>
    next (evalExpr sem call fuel cond) (choose sem (.cond o) (execBlock body) (execChain rest))

/-- The first arm of the variant, else the default. -/
def execArms (o : Op) (sum : List Variant) (name : String) : Arms Op → Comp σ
  | .done => stop .nonExhaustive
  | .naw body => execBlock body
  | .arm variant _ body rest =>
    if variant = name then
      next (instr sem (.payload o ((Lower.variantIndex sum variant).getD 0))) (execBlock body)
    else execArms o sum name rest

def execBlock : Block Op → Comp σ
  | .nil => pure
  | .cons s rest => next (execStmt s) (execBlock rest)

end

end Walk

def finish (sig : Sig) : Option (Outcome σ) → Option (Outcome σ)
  | some (.normal s) => some (if sig.rets = 0 then .ret s else .fellOff)
  | out => out

/-- A call from the call site: the arguments, the body, the results. -/
def callOp (sem : Sem Op σ) (callFn : Nat → Comp σ) (o : Op) : Comp σ := fun s =>
  match sem.enter o s with
  | none => some .panicked
  | some s' =>
    match callFn (sem.callee o s) s' with
    | some (.ret s'') => perform (sem.leave o) s''
    | out => out

/-- A call of the function with a number. The fuel bounds the depth and the rounds of a loop. -/
def callFn (sem : Sem Op σ) (p : Program Op) : Nat → Nat → Comp σ
  | 0, _ => fun _ => none
  | n + 1, f => fun s =>
    match p[f]? with
    | none => none
    | some fn => finish fn.sig (execBlock sem (callOp sem (callFn sem p n)) n fn.body s)

end Interp

namespace Mir

structure Frame where
  func : Nat
  pos : Pos

inductive Final (σ : Type) where
  | returned (s : σ)
  | panicked
  | unreachable
  deriving DecidableEq

/-- The callers of the running function are on the stack, with where they go on. -/
inductive Config (Op σ : Type) where
  | running (fr : Frame) (s : σ) (stack : List (Frame × Op))
  | final (out : Final σ)

variable {Op σ : Type}

def Frame.advance (fr : Frame) : Frame := ⟨fr.func, ⟨fr.pos.block, fr.pos.offset + 1⟩⟩

def Frame.goto (fr : Frame) (b : Nat) : Frame := ⟨fr.func, ⟨b, 0⟩⟩

def proceed (fr : Frame) (stack : List (Frame × Op)) : Option σ → Config Op σ
  | some s => .running fr s stack
  | none => .final .panicked

def execInstr (sem : Sem Op σ) (fr : Frame) (s : σ) (stack : List (Frame × Op)) :
    Instr Op → Config Op σ
  | .call o => proceed ⟨sem.callee o s, ⟨0, 0⟩⟩ ((fr.advance, o) :: stack) (sem.enter o s)
  | i => proceed fr.advance stack (sem.act i s)

/-- The block of the case that the discriminant selects. -/
def caseOf (sum : List Variant) (cases : List (Nat × Nat)) (default : Nat) (name : String) : Nat :=
  match Lower.variantIndex sum name with
  | some v => (cases.lookup v).getD default
  | none => default

def execTerm (sem : Sem Op σ) (fr : Frame) (s : σ) (stack : List (Frame × Op)) :
    Term Op → Config Op σ
  | .goto b => .running (fr.goto b) s stack
  | .branch cond thenBb elseBb =>
    .running (fr.goto (if sem.test cond s then thenBb else elseBb)) s stack
  | .switch o sum cases default =>
    .running (fr.goto (caseOf sum cases default (sem.variant o s))) s stack
  | .hollaCheck o live ghosted =>
    match sem.resolve o s with
    | some s' => .running (fr.goto live) s' stack
    | none => .running (fr.goto ghosted) s stack
  | .ret =>
    match stack with
    | [] => .final (.returned s)
    | (caller, o) :: stack => proceed caller stack (sem.leave o s)
  | .panic => .final .panicked
  | .unreachable => .final .unreachable

def step (sem : Sem Op σ) (mir : List (Blocks (Instr Op) (Term Op))) :
    Config Op σ → Option (Config Op σ)
  | .final _ => none
  | .running fr s stack => do
    let g ← mir[fr.func]?
    let b ← g[fr.pos.block]?
    match b.stmts[fr.pos.offset]? with
    | some i => some (execInstr sem fr s stack i)
    | none => do return execTerm sem fr s stack (← b.term)

def run (sem : Sem Op σ) (mir : List (Blocks (Instr Op) (Term Op))) :
    Nat → Config Op σ → Option (Config Op σ)
  | 0, c => some c
  | n + 1, c => do run sem mir n (← step sem mir c)

/-- A call of a function from outside. -/
def start (f : Nat) (s : σ) : Config Op σ := .running ⟨f, ⟨0, 0⟩⟩ s []

end Mir

end BetLang.Control
