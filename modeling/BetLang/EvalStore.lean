import BetLang.EvalAst
import BetLang.Traced

/-! The interpreter's store and what it does to it. Next to a value stands the type that was declared
for its place, which the interpreter itself does not keep. -/

namespace BetLang.Eval

open Collect (Typ RetType)
open Interp (Value RunError IntTy intTy)

/-- A binding, and the type declared for it. -/
structure Slot where
  declared : Option Typ
  value : Value

/-- A map from names; a later insertion stands first. -/
abbrev Scope := List (String × Slot)

/-- The scopes of one call, the innermost first. -/
abbrev Env := List Scope

def Env.push (env : Env) : Env := [] :: env

def Env.pop (env : Env) : Env := env.tail

/-- At least one scope is always live. -/
def Env.declare (env : Env) (name : String) (slot : Slot) : Env :=
  match env with
  | [] => []
  | sc :: rest => ((name, slot) :: sc) :: rest

def Env.get (env : Env) (name : String) : Option Slot := env.findSome? (·.lookup name)

def Scope.set (name : String) (slot : Slot) : Scope → Scope
  | [] => []
  | (n, old) :: rest => if n == name then (n, slot) :: rest else (n, old) :: Scope.set name slot rest

/-- `get_mut`, and the new value in it. -/
def Env.set (name : String) (slot : Slot) : Env → Env
  | [] => []
  | sc :: rest =>
    if (sc.lookup name).isSome then Scope.set name slot sc :: rest else sc :: Env.set name slot rest

structure ArenaSlot where
  value : Value
  generation : BitVec 64
  live : Bool

structure Arena where
  slots : List ArenaSlot
  typed : Bool

def ArenaSlot.current (s : ArenaSlot) (generation : BitVec 64) : Bool :=
  s.live && s.generation == generation

/-- The first freed slot is used again, at the generation that it has by then. -/
def Arena.alloc (a : Arena) (value : Value) : Arena × Nat × BitVec 64 :=
  match a.slots.findIdx? (!·.live) with
  | some i =>
    ({ a with slots := a.slots.modify i fun s => { s with value, live := true } }, i,
      (a.slots[i]?.map (·.generation)).getD 0)
  | none => ({ a with slots := a.slots ++ [⟨value, 0, true⟩] }, a.slots.length, 0)

def Arena.resolve (a : Arena) (slot : Nat) (generation : BitVec 64) : Option Value :=
  (a.slots[slot]?.filter (·.current generation)).map (·.value)

def Arena.resolveUnchecked (a : Arena) (slot : Nat) : Option Value := a.slots[slot]?.map (·.value)

def Arena.writeSlot (a : Arena) (slot : Nat) (generation : BitVec 64) (value : Value) : Arena :=
  { a with slots := a.slots.modify slot fun s => if s.current generation then { s with value } else s }

def Arena.evict (a : Arena) : Arena :=
  { a with slots := a.slots.map fun s => { s with generation := s.generation + 1, live := false } }

def Arena.evictSlot (a : Arena) (slot : Nat) (generation : BitVec 64) : Arena :=
  { a with slots := a.slots.modify slot fun s =>
      if s.current generation then { s with generation := s.generation + 1, live := false } else s }

/-- A shared container. The elements of a `vec` have the type that it was created at. -/
inductive Cell where
  | stash (entries : List (Value × Value))
  | vec (declared : Option Typ) (elems : List Value)

structure Store where
  env : Env
  /-- The environments of the calls that wait for this one, the caller's first. -/
  callers : List Env
  globals : Scope
  arenas : List Arena
  heap : List Cell
  /-- The results of the last call, at the declared types. -/
  returned : List Slot

/-- A call begins, with one empty scope. -/
def Store.enter (st : Store) : Store := { st with env := [[]], callers := st.env :: st.callers }

def Store.leave (st : Store) : Store :=
  { st with env := st.callers.headD [], callers := st.callers.tail }

/-- Stamp the declared width and signedness onto an integer. -/
def coerce (val : Value) (ty : Option Typ) : Value :=
  match ty, val with
  | some (.named name _), .int v _ =>
    match intTy name with
    | some ity => Value.sized v.toInt ity
    | none => val
  | _, _ => val

/-- The element type of an array or a slice. -/
def elemOf : Typ → Option Typ
  | .array elem _ | .slice elem => some elem
  | .soa inner => elemOf inner
  | _ => none

def elemTy (ty : Option Typ) : Option Typ := ty.bind elemOf

/-- The insertion into a `BTreeMap`; the order of the keys is left open. -/
def insertField (fields : List (String × Value)) (name : String) (val : Value) :
    List (String × Value) :=
  match fields with
  | [] => [(name, val)]
  | (n, old) :: rest =>
    if n == name then (n, val) :: rest else (n, old) :: insertField rest name val

inductive PathStep where
  | field (name : String)
  | index (i : Nat)

/-- The mutable walk of `place_mut`: the type declared for the place, and its value. -/
def walk (tb : Tables) : Option Typ → Value → List PathStep → Except RunError (Option Typ × Value)
  | ty, v, [] => .ok (ty, v)
  | _, .struct sty fields, .field name :: rest =>
    match fields.lookup name with
    | some v => walk tb (tb.fieldTy sty name) v rest
    | none => .error (.unknownField sty name)
  | ty, .array xs, .index i :: rest =>
    match xs[i]? with
    | some v => walk tb (elemTy ty) v rest
    | none => .error (.type s!"index {i} out of bounds (len {xs.length})")
  | _, other, .field name :: _ =>
    .error (.type s!"cannot reach field `{name}` through {other.typeName}")
  | _, other, .index _ :: _ =>
    .error (.type s!"cannot reach an element place through {other.typeName}")

/-- The value with another one at a place in it. -/
def replace : Value → List PathStep → Value → Value
  | _, [], new => new
  | .struct sty fields, .field name :: rest, new =>
    match fields.lookup name with
    | some v => .struct sty (insertField fields name (replace v rest new))
    | none => .struct sty fields
  | .array xs, .index i :: rest, new =>
    match xs[i]? with
    | some v => .array (xs.set i (replace v rest new))
    | none => .array xs
  | v, _, _ => v

/-- What reaches a place with a declared type: through the coercion, or as it is. -/
inductive Write where
  | coerced (ty : Option Typ) (val : Value)
  | plain (ty : Option Typ) (val : Value)

/-- Why a run ends early. -/
inductive Halt where
  | raise (e : RunError)
  | badFormat (msg : String)
  | allocLimit (requested : Nat)
  /-- The run is cut here. -/
  | stop

def Halt.catchable : Halt → Bool
  | .stop => false
  | _ => true

/-- `W` is what the run finds outside: files, devices, the clock, the generators. -/
structure State (W : Type) where
  store : Store
  /-- The declared return types of the active calls. -/
  retStack : List RetType
  depth : Nat
  out : String
  world : W
  /-- How many changes of the store the run may still make. -/
  budget : Nat

abbrev Run (W α : Type) := Traced.Comp (State W) Write Halt α

section Actions

variable {W α : Type}

open Traced

def raise (e : RunError) : Run W α := fail (.raise e)

/-- The outcome of a computation as a value, unless the run is cut there. -/
def caught (x : Run W α) : Run W (Except Halt α) := attempt Halt.catchable x

def tick : Run W Unit := fun s =>
  if s.budget = 0 then ⟨.error .stop, s, []⟩ else ⟨.ok (), { s with budget := s.budget - 1 }, []⟩

/-- One change of the store, and what it writes to declared places. -/
def change (ws : List Write) (f : Store → Store) : Run W Unit := do
  tick
  report ws
  modify fun s => { s with store := f s.store }

def pushScope : Run W Unit := change [] fun st => { st with env := st.env.push }

def popScope : Run W Unit := change [] fun st => { st with env := st.env.pop }

def declare (name : String) (val : Value) : Run W Unit :=
  change [] fun st => { st with env := st.env.declare name ⟨none, val⟩ }

/-- A declaration whose type is given. -/
def declareAs (name : String) (ty : Option Typ) (val : Value) : Run W Unit :=
  change [.coerced ty val] fun st => { st with env := st.env.declare name ⟨ty, coerce val ty⟩ }

def pushFrame : Run W Unit := change [] Store.enter

def popFrame : Run W Unit := change [] Store.leave

def newArena (typed : Bool) : Run W Nat := do
  let s ← get
  change [] fun st => { st with arenas := st.arenas ++ [⟨[], typed⟩] }
  return s.store.arenas.length

def newCell (c : Cell) : Run W Nat := do
  let s ← get
  change [] fun st => { st with heap := st.heap ++ [c] }
  return s.store.heap.length

end Actions

end BetLang.Eval
