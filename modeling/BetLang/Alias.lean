import BetLang.Lockstep

/-! Slices and bump-crib references: the interpreter's holders own cloned values, the compiled
program's hold pointers into one memory. -/

namespace BetLang.Alias

/-- A value as the interpreter owns it: a scalar, or the cells of a slice or of a referenced
drip. `mark` is bookkeeping; the interpreter's values have none. -/
inductive Tree (α : Type) where
  | scalar (v : Int)
  | block (mark : α) (cells : List (Tree α))

/-- A variable or by-value drip field, and the cells gone through from there. -/
structure Place where
  var : Nat
  path : List Nat
  deriving DecidableEq, Repr

/-- `alloc` is `mem.slab` or a bump-crib `cop`; `bind` gives a value a new holder: a name, a
parameter, a result, a field of a drip value, a loop's iterated copy. -/
inductive Op where
  | alloc (init : List Int)
  | bind (src : Place)
  | store (dst src : Place)
  | set (dst : Place) (v : Int)
  | read (src : Place)

inductive Obs where
  | unit
  | error
  | scalar (v : Int)
  | block (len : Nat)
  deriving DecidableEq, Repr

variable {α β : Type}

/-- The place's value, as `place_mut` and the evaluator walk to it. -/
def Tree.get : Tree α → List Nat → Option (Tree α)
  | t, [] => some t
  | .block _ cells, i :: rest => (cells[i]?).bind fun c => c.get rest
  | .scalar _, _ :: _ => none

/-- The tree with the value at a place replaced. -/
def Tree.put : Tree α → List Nat → Tree α → Option (Tree α)
  | _, [], v => some v
  | .block m cells, i :: rest, v =>
    (cells[i]?).bind fun c => (c.put rest v).map fun c' => .block m (cells.set i c')
  | .scalar _, _ :: _, _ => none

def Tree.observe : Tree α → Obs
  | .scalar v => .scalar v
  | .block _ cells => .block cells.length

def getPlace (vars : List (Tree α)) (p : Place) : Option (Tree α) :=
  (vars[p.var]?).bind fun t => t.get p.path

def putPlace (vars : List (Tree α)) (p : Place) (v : Tree α) : Option (List (Tree α)) :=
  (vars[p.var]?).bind fun t => (t.put p.path v).map fun t' => vars.set p.var t'

/-- The interpreter: every copy is a clone. -/
def interpStep : Lockstep.Machine (List (Tree Unit)) Op Obs
  | vars, .alloc init => (vars ++ [.block () (init.map .scalar)], .unit)
  | vars, .bind src =>
    match getPlace vars src with
    | some v => (vars ++ [v], .unit)
    | none => (vars, .error)
  | vars, .store dst src =>
    match (getPlace vars src).bind (putPlace vars dst) with
    | some vars' => (vars', .unit)
    | none => (vars, .error)
  | vars, .set dst v =>
    match putPlace vars dst (.scalar v) with
    | some vars' => (vars', .unit)
    | none => (vars, .error)
  | vars, .read src =>
    match getPlace vars src with
    | some v => (vars, v.observe)
    | none => (vars, .error)

/-- What a compiled holder or cell contains. -/
inductive Word where
  | scalar (v : Int)
  | ptr (block : Nat)
  deriving DecidableEq, Repr

structure Compiled where
  vars : List Word
  memory : List (List Word)
  deriving DecidableEq, Repr

def loadCell (memory : List (List Word)) : Word → Nat → Option Word
  | .ptr a, i => (memory[a]?).bind (·[i]?)
  | .scalar _, _ => none

def loadPath (memory : List (List Word)) : Word → List Nat → Option Word
  | w, [] => some w
  | w, i :: rest => (loadCell memory w i).bind fun w' => loadPath memory w' rest

def storeCell (memory : List (List Word)) : Word → Nat → Word → Option (List (List Word))
  | .ptr a, i, w =>
    (memory[a]?).bind fun cells => if i < cells.length then some (memory.set a (cells.set i w)) else none
  | .scalar _, _, _ => none

/-- Follow the pointers to the last cell and store there. -/
def storePath (memory : List (List Word)) : Word → List Nat → Word → Option (List (List Word))
  | _, [], _ => none
  | w, [i], v => storeCell memory w i v
  | w, i :: rest, v => (loadCell memory w i).bind fun w' => storePath memory w' rest v

def Compiled.load (st : Compiled) (p : Place) : Option Word :=
  (st.vars[p.var]?).bind fun w => loadPath st.memory w p.path

def Compiled.store (st : Compiled) (p : Place) (v : Word) : Option Compiled :=
  (st.vars[p.var]?).bind fun w =>
    if p.path = [] then some { st with vars := st.vars.set p.var v }
    else (storePath st.memory w p.path v).map fun memory => { st with memory }

def Compiled.observe (st : Compiled) : Word → Obs
  | .scalar v => .scalar v
  | .ptr a => .block ((st.memory[a]?).map List.length |>.getD 0)

/-- The compiled program: a copy copies the word. -/
def compiledStep : Lockstep.Machine Compiled Op Obs
  | st, .alloc init =>
    ({ vars := st.vars ++ [.ptr st.memory.length], memory := st.memory ++ [init.map .scalar] }, .unit)
  | st, .bind src =>
    match st.load src with
    | some w => ({ st with vars := st.vars ++ [w] }, .unit)
    | none => (st, .error)
  | st, .store dst src =>
    match (st.load src).bind (st.store dst) with
    | some st' => (st', .unit)
    | none => (st, .error)
  | st, .set dst v =>
    match st.store dst (.scalar v) with
    | some st' => (st', .unit)
    | none => (st, .error)
  | st, .read src =>
    match st.load src with
    | some w => (st, st.observe w)
    | none => (st, .error)

end BetLang.Alias
