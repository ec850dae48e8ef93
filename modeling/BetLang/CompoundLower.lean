import BetLang.CompoundOnce
import BetLang.Ir

/-! The lowering of a compound assignment: the code of the indexes, the code of the right-hand
side, and one assignment that reads and writes a place whose operands are read then. -/

namespace BetLang.Compound

open Traced Ir

/-- A projection over its index operands. -/
inductive Proj (I : Type) where
  | field (i : Nat)
  | index (i : I)
  | deref

structure Place (I : Type) where
  root : Nat
  proj : List (Proj I)

def Place.extend {I : Type} (place : Place I) (p : Proj I) : Place I :=
  { place with proj := place.proj ++ [p] }

def Proj.map {I J : Type} (f : I → J) : Proj I → Proj J
  | .field i => .field i
  | .index i => .index (f i)
  | .deref => .deref

/-- What the module and the function say about types and names: `scope` is the innermost local of
a name. -/
structure Scope where
  defs : Module
  scope : String → Option Nat
  localTy : Nat → Option Ty

def elemTy (ty : Ty) : Except String Ty :=
  match ty with
  | .slice e | .array e _ => .ok e
  | .soa (.slice e) | .soa (.array e _) | .soa (.vec e) => .ok e
  | .soa _ => .error "soa index"
  | _ => .error "index"

section

variable {I : Type} (sc : Scope)

def projTy (ty : Ty) (p : Proj I) : Except String Ty :=
  match p with
  | .field i =>
    match ty with
    | .struct sid =>
      match sc.defs.structs[sid]?.bind (·.fields[i]?) with
      | some f => .ok f.ty
      | none => .error "bad field"
    | .tuple elems =>
      match elems[i]? with
      | some t => .ok t
      | none => .error "bad field"
    | _ => .error "field of non-aggregate"
  | .deref =>
    match ty with
    | .ref e => .ok e
    | _ => .error "deref"
  | .index _ => elemTy ty

def placeTy (place : Place I) : Except String Ty :=
  match sc.localTy place.root with
  | some ty => place.proj.foldlM (projTy sc) ty
  | none => .error "bad local"

/-- The struct that a field target is in, behind a reference where the base is one. -/
def fieldBase (base : Place I) : Except String (Nat × Place I) := do
  match ← placeTy sc base with
  | .struct sid => return (sid, base)
  | .ref (.struct sid) => return (sid, base.extend .deref)
  | .ref _ => throw "field assign through ref"
  | _ => throw "field assignment on non-struct"

def assignable (ty : Ty) : Except String Unit :=
  match ty with
  | .array _ _ | .slice _ => .ok ()
  | .soa (.array _ _) | .soa (.slice _) => .ok ()
  | .soa (.vec _) =>
    .error "writing a `soa vec` element by field isn't wired yet (vec SoA lands in a later phase)."
  | .soa _ => .error "cannot index-assign a soa"
  | .vec _ => .error
    "cannot assign to a `vec` element (vec is append-only; use an array or `mem.slab`)"
  | _ => .error "cannot index-assign a non-array/slice"

/-- The place, and the indexes in the order in which their code is emitted. -/
def lowerPlace : Target I → Except String (List I × Place I)
  | .name name =>
    match sc.scope name with
    | some l => .ok ([], ⟨l, []⟩)
    | none => .error s!"assignment to unknown binding `{name}`"
  | .field b name => do
    let (code, base) ← lowerPlace b
    let (sid, place) ← fieldBase sc base
    match sc.defs.structs[sid]? with
    | none => throw "bad struct id"
    | some d =>
      match d.fields.findIdx? (·.name == name) with
      | some i => return (code, place.extend (.field i))
      | none => throw s!"struct `{d.name}` has no field `{name}`"
  | .index b e => do
    let (code, base) ← lowerPlace b
    assignable (← placeTy sc base)
    return (code ++ [e], base.extend (.index e))

/-- A whole element of a `soa` has no single place. -/
def isWholeSoaElem (place : Place I) : Bool :=
  match place.proj.getLast? with
  | some (.index _) =>
    match placeTy sc { place with proj := place.proj.dropLast } with
    | .ok (.soa _) => true
    | _ => false
  | _ => false

/-- The emitted code: of the indexes, then of the right-hand side, then the assignment. -/
structure Emitted (I : Type) where
  indexes : List I
  value : I
  place : Place I

/-- The branch of `lower_assign` for a compound operator. -/
def lowerCompound (p : Target I) (value : I) : Except String (Emitted I) := do
  let (code, place) ← lowerPlace sc p
  let _ ← placeTy sc place
  if isWholeSoaElem sc place then
    throw ("can't slam a whole struct into a soa slot — set the fields one by one " ++
      "(e.g. arr[i].hp = ...).")
  return { indexes := code, value := value, place := place }

end

/-- A machine for emitted code: an expression's code runs where it stands, and its operand is read
where it is used. -/
structure Machine (σ ε E V A : Type) where
  code : E → σ → Except ε σ
  operand : E → σ → V
  address : Nat → List (Proj V) → σ → Except ε A
  load : A → σ → Except ε V
  binop : V → V → Except ε V
  store : A → V → σ → Except ε σ

namespace Machine

variable {σ ε E V A : Type} (m : Machine σ ε E V A)

/-- The code of an expression, and what its operand is when the code has run. -/
def eval (e : E) (s : σ) : Except ε (V × σ) :=
  (fun s' => (m.operand e s', s')) <$> m.code e s

def runIndexes : List E → Comp σ (Event E V A) ε Unit
  | [] => return ()
  | e :: es => do
    let _ ← observe .index m.eval e
    runIndexes es

/-- `place = place op value`: every operand of the place is read in the state of the assignment. -/
def assign (place : Place E) (value : E) : Comp σ (Event E V A) ε Unit := do
  let s ← get
  let a ← ofExcept (m.address place.root (place.proj.map (·.map fun i => m.operand i s)) s)
  let cur ← ofExcept (m.load a s)
  let new ← ofExcept (m.binop cur (m.operand value s))
  report [.operate cur (m.operand value s)]
  update (m.store a new)
  report [.store a new]

def run (em : Emitted E) : Comp σ (Event E V A) ε Unit := do
  m.runIndexes em.indexes
  let _ ← observe .operand m.eval em.value
  m.assign em.place em.value

/-- The projections with the values of their indexes, in order. -/
def fill : List (Proj E) → List V → List (Proj V)
  | [], _ => []
  | .field i :: ps, vs => .field i :: fill ps vs
  | .deref :: ps, vs => .deref :: fill ps vs
  | .index _ :: ps, v :: vs => .index v :: fill ps vs
  | .index _ :: ps, [] => fill ps []

/-- The intended run on the machine: the place is fixed by the values that the indexes had when
they were evaluated. -/
def side (place : Place E) : Side σ ε E V A :=
  { eval := m.eval
    locate := fun q s => m.address place.root (fill place.proj q.indexes) s
    load := m.load, apply := m.binop, store := m.store }

end Machine

end BetLang.Compound
