import BetLang.CompoundOnce
import BetLang.EvalStore

/-! Compound assignment twice: as the interpreter executes it, and as lowering emits it. -/

namespace BetLang.Compound

open Traced
open Interp (Value RunError)
open Eval (PathStep insertField replace)

/-- The variables in view, the contents of the `vec` handles, and whatever else there is. -/
structure Frame (R : Type) where
  locals : List (String × Value)
  globals : List (String × Value)
  heap : List (List Value)
  rest : R

inductive Base where
  | «local» (name : String)
  | global (name : String)
  | cell (addr : Nat)

structure Addr where
  base : Base
  path : List PathStep

def readField (v : Value) (name : String) : Except RunError Value :=
  match v with
  | .struct ty fields =>
    match fields.lookup name with
    | some x => .ok x
    | none => .error (.unknownField ty name)
  | other => .error (.type s!"cannot read field `{name}` of {other.typeName}")

def outOfBounds (i len : Nat) : RunError := .type s!"index {i} out of bounds (len {len})"

/-- A non-negative index. -/
def indexOf (v : Value) : Except RunError Nat :=
  match v with
  | .int i ty =>
    if 0 ≤ i.toInt then .ok i.toNat
    else .error (.type s!"index must be a non-negative int, got {(Value.int i ty).typeName}")
  | other => .error (.type s!"index must be a non-negative int, got {other.typeName}")

def readElem (xs : List Value) (i : Nat) : Except RunError Value :=
  match xs[i]? with
  | some x => .ok x
  | none => .error (outOfBounds i xs.length)

def walk (v : Value) : List PathStep → Except RunError Value
  | [] => .ok v
  | .field name :: rest =>
    match v with
    | .struct ty fields =>
      match fields.lookup name with
      | some x => walk x rest
      | none => .error (.unknownField ty name)
    | other => .error (.type s!"cannot reach field `{name}` through {other.typeName}")
  | .index i :: rest =>
    match v with
    | .array xs =>
      match xs[i]? with
      | some x => walk x rest
      | none => .error (outOfBounds i xs.length)
    | other => .error (.type s!"cannot reach an element place through {other.typeName}")

section

variable {R E : Type}

def Frame.vecAt (s : Frame R) (addr : Nat) : Except RunError (List Value) :=
  match s.heap[addr]? with
  | some xs => .ok xs
  | none => .error (.type "not a vec")

def Frame.readIndex (s : Frame R) (v : Value) (i : Nat) : Except RunError Value :=
  match v with
  | .array xs => readElem xs i
  | .vec addr => do readElem (← s.vecAt addr) i
  | other => .error (.type s!"cannot index {other.typeName}")

def Frame.setLocal (s : Frame R) (name : String) (v : Value) : Frame R :=
  { s with locals := insertField s.locals name v }

def Frame.setGlobal (s : Frame R) (name : String) (v : Value) : Frame R :=
  { s with globals := insertField s.globals name v }

/-- What a place holds now. -/
def Frame.load (s : Frame R) (a : Addr) : Except RunError Value :=
  match a.base with
  | .local x =>
    match s.locals.lookup x with
    | some v => walk v a.path
    | none => .error (.undefined x)
  | .global x =>
    match s.globals.lookup x with
    | some v => walk v a.path
    | none => .error (.undefined x)
  | .cell addr => do walk (.array (← s.vecAt addr)) a.path

/-- The write of a place that is still there. -/
def Frame.store (a : Addr) (val : Value) (s : Frame R) : Except RunError (Frame R) := do
  let _ ← s.load a
  match a.base with
  | .local x =>
    return s.setLocal x (replace ((s.locals.lookup x).getD .ghosted) a.path val)
  | .global x =>
    return s.setGlobal x (replace ((s.globals.lookup x).getD .ghosted) a.path val)
  | .cell addr =>
    match replace (.array (← s.vecAt addr)) a.path val with
    | .array xs => return { s with heap := s.heap.set addr xs }
    | other => throw (.type s!"cannot index-assign into {other.typeName}")

/-- The place of a target: behind a `vec` it is in the shared contents of the handle. -/
def locate : Target Value → Frame R → Except RunError Addr
  | .name x, s =>
    if (s.locals.lookup x).isSome then .ok ⟨.local x, []⟩
    else if (s.globals.lookup x).isSome then .ok ⟨.global x, []⟩
    else .error (.undefined x)
  | .field b f, s => do
    let a ← locate b s
    let v ← s.load a
    let _ ← readField v f
    return { a with path := a.path ++ [.field f] }
  | .index b w, s => do
    let a ← locate b s
    let v ← s.load a
    let i ← indexOf w
    let _ ← s.readIndex v i
    match v with
    | .vec addr => return ⟨.cell addr, [.index i]⟩
    | _ => return { a with path := a.path ++ [.index i] }

abbrev Run (R E α : Type) := Comp (Frame R) (Event E Value Addr) RunError α

/-- The evaluation of an index or a right-hand side: it declares nothing in the scopes around. -/
structure Evaluation (R E : Type) where
  run : E → Frame R → Except RunError (Value × Frame R)
  keeps : ∀ {e : E} {s s' : Frame R} {v : Value}, run e s = .ok (v, s') →
    ∀ x, (s'.locals.lookup x).isSome = (s.locals.lookup x).isSome

-- Beside the evaluation, the values of the names of no variable, and the operators.
variable (ev : Evaluation R E) (names : String → Except RunError Value)
  (apply : Value → Value → Except RunError Value)

def evalName (name : String) : Run R E Value := do
  let s ← get
  match s.locals.lookup name with
  | some v => return v
  | none =>
    match s.globals.lookup name with
    | some v => return v
    | none => ofExcept (names name)

/-- The target read as an expression. -/
def evalTarget : Target E → Run R E Value
  | .name x => evalName names x
  | .field b f => do
    let v ← evalTarget b
    ofExcept (readField v f)
  | .index b e => do
    let v ← evalTarget b
    let w ← observe .index ev.run e
    let i ← ofExcept (indexOf w)
    let s ← get
    ofExcept (s.readIndex v i)

def evalIndex (e : E) : Run R E Nat := do
  let w ← observe .index ev.run e
  ofExcept (indexOf w)

/-- The first pass of `place_mut`: the chain is flattened from the leaf to the root, and each index
is evaluated when it is met. -/
def placeSteps : Target E → Run R E (List PathStep)
  | .name _ => return []
  | .field b f => do
    let steps ← placeSteps b
    return steps ++ [.field f]
  | .index b e => do
    let i ← evalIndex ev e
    let steps ← placeSteps b
    return steps ++ [.index i]

def placeMut (p : Target E) : Run R E (List PathStep × Value) := do
  let steps ← placeSteps ev p
  let s ← get
  match s.locals.lookup p.root with
  | some v => do
    let found ← ofExcept (walk v steps)
    return (steps, found)
  | none => fail (.undefined p.root)

/-- The write through the mutable walk: `container` is the new value of what the steps lead to. -/
def writePlace (root : String) (steps : List PathStep) (leaf : PathStep) (container val : Value) :
    Run R E Unit := do
  modify fun s => s.setLocal root
    (replace ((s.locals.lookup root).getD .ghosted) steps container)
  report [.store ⟨.local root, steps ++ [leaf]⟩ val]

def setVec (addr : Nat) (xs : List Value) (path : List PathStep) (val : Value) : Run R E Unit := do
  modify fun s => { s with heap := s.heap.set addr xs }
  report [.store ⟨.cell addr, path⟩ val]

def assignName (name : String) (val : Value) : Run R E Unit := do
  let s ← get
  if (s.locals.lookup name).isSome then
    modify (·.setLocal name val)
    report [.store ⟨.local name, []⟩ val]
  else if (s.globals.lookup name).isSome then
    modify (·.setGlobal name val)
    report [.store ⟨.global name, []⟩ val]
  else fail (.undefined name)

def assignField (base : Target E) (name : String) (val : Value) : Run R E Unit := do
  let (steps, found) ← placeMut ev base
  match found with
  | .struct ty fields =>
    if (fields.lookup name).isSome then
      writePlace base.root steps (.field name) (.struct ty (insertField fields name val)) val
    else fail (.unknownField ty name)
  | other => fail (.type s!"cannot assign field `{name}` of {other.typeName}")

/-- `vec[i].field = x`: an element of a `vec` is behind the handle. -/
def assignVecField (addr : Nat) (index : E) (name : String) (val : Value) : Run R E Unit := do
  let i ← evalIndex ev index
  let s ← get
  let xs ← ofExcept (s.vecAt addr)
  match xs[i]? with
  | none => fail (outOfBounds i xs.length)
  | some (.struct ty fields) =>
    if (fields.lookup name).isSome then
      setVec addr (xs.set i (.struct ty (insertField fields name val))) [.index i, .field name] val
    else fail (.unknownField ty name)
  | some other => fail (.type s!"cannot assign field `{name}` of {other.typeName}")

def assignIndex (base : Target E) (index : E) (val : Value) : Run R E Unit := do
  let i ← evalIndex ev index
  let (steps, found) ← placeMut ev base
  match found with
  | .array xs =>
    if i < xs.length then writePlace base.root steps (.index i) (.array (xs.set i val)) val
    else fail (outOfBounds i xs.length)
  | .vec addr => do
    let s ← get
    let xs ← ofExcept (s.vecAt addr)
    if i < xs.length then setVec addr (xs.set i val) [.index i] val
    else fail (outOfBounds i xs.length)
  | other => fail (.type s!"cannot index-assign into {other.typeName}")

/-- Where an element is the base of the field, the `vec` it may be in is evaluated first. -/
def assignPlace (target : Target E) (val : Value) : Run R E Unit :=
  match target with
  | .name name => assignName name val
  | .field (.index vbase index) name => do
    match ← evalTarget ev names vbase with
    | .vec addr => assignVecField ev addr index name val
    | _ => assignField ev (.index vbase index) name val
  | .field base name => assignField ev base name val
  | .index base index => assignIndex ev base index val

/-- The branch of `exec_assign` for a compound operator. -/
def execCompound (target : Target E) (value : E) : Run R E Unit := do
  let old ← evalTarget ev names target
  let rhs ← observe .operand ev.run value
  let new ← ofExcept (apply old rhs)
  report [.operate old rhs]
  assignPlace ev names target new

def interpSide : Side (Frame R) RunError E Value Addr :=
  { eval := ev.run, locate := locate, load := fun a s => s.load a, apply := apply
    store := Frame.store }

end

end BetLang.Compound
