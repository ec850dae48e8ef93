import BetLang.EvalCall

/-! The execution of statements, and the run of a program. -/

namespace BetLang.Eval

open Collect (Typ RetType)
open Interp (Value RunError)
open Traced

variable {W : Type} (pr : Prims W) (tb : Tables) (ev : Evaluator W)

/-- The right-hand side of a binding: pairwise, or the results of one call. -/
def spread (targets : Nat) (values : List Expr) : Run W (List Value) :=
  if targets = values.length then evalExprs ev values
  else
    match values with
    | [e] => do
      let vals ← evalCallExpr pr tb ev e
      if vals.length ≠ targets then raise (.destructure targets vals.length) else return vals
    | _ => raise (.destructure targets values.length)

def declareTargets (ty : Option Typ) : List String → List Value → Run W Unit
  | name :: names, v :: vs => do
    declareAs name ty v
    declareTargets ty names vs
  | _, _ => pure ()

/-- A name as a target: a local, or a module variable. -/
def assignName (name : String) (val : Value) : Run W Unit := do
  let s ← get
  match s.store.env.get name with
  | some slot =>
    change [.plain slot.declared val] fun st =>
      { st with env := st.env.set name { slot with value := val } }
  | none =>
    match s.store.globals.lookup name with
    | some slot =>
      change [.plain slot.declared val] fun st =>
        { st with globals := Scope.set name { slot with value := val } st.globals }
    | none => raise (.undefined name)

/-- The write of a field, where the place around it is a struct. -/
def assignField (base : Expr) (name : String) (val : Value) : Run W Unit := do
  let p ← placeMut tb ev base
  match p.value with
  | .struct ty fields =>
    if (fields.lookup name).isSome then
      setPlace p [.plain (tb.fieldTy ty name) val] (.struct ty (insertField fields name val))
    else raise (.unknownField ty name)
  | other => raise (.type s!"cannot assign field `{name}` of {other.typeName}")

/-- `vec[i].field = x`: an element of a `vec` is behind the handle. -/
def assignVecField (addr : Nat) (index : Expr) (name : String) (val : Value) : Run W Unit := do
  let v ← ev.expr index
  let i ← indexOf v
  let (declared, xs) ← vecAt addr
  match xs[i]? with
  | none => raise (.type s!"index {i} out of bounds (len {xs.length})")
  | some (.struct ty fields) =>
    if (fields.lookup name).isSome then
      setCell addr [.plain (tb.fieldTy ty name) val]
        (.vec declared (xs.set i (.struct ty (insertField fields name val))))
    else raise (.unknownField ty name)
  | some other => raise (.type s!"cannot assign field `{name}` of {other.typeName}")

def assignIndex (base index : Expr) (val : Value) : Run W Unit := do
  let v ← ev.expr index
  let i ← indexOf v
  let p ← placeMut tb ev base
  match p.value with
  | .array xs =>
    if i < xs.length then setPlace p [.plain (elemTy p.ty) val] (.array (xs.set i val))
    else raise (.type s!"index {i} out of bounds (len {xs.length})")
  | .vec addr => do
    let (declared, xs) ← vecAt addr
    if i < xs.length then setCell addr [.plain declared val] (.vec declared (xs.set i val))
    else raise (.type s!"index {i} out of bounds (len {xs.length})")
  | other => raise (.type s!"cannot index-assign into {other.typeName}")

def assignPlace (target : Expr) (val : Value) : Run W Unit :=
  match target with
  | .name name => assignName name val
  | .field (.index vbase index) name => do
    match ← ev.expr vbase with
    | .vec addr => assignVecField tb ev addr index name val
    | _ => assignField tb ev (.index vbase index) name val
  | .field base name => assignField tb ev base name val
  | .index base index => assignIndex tb ev base index val
  | _ => raise (.type "invalid assignment target")

def assignAll : List Expr → List Value → Run W Unit
  | t :: ts, v :: vs => do
    assignPlace tb ev t v
    assignAll ts vs
  | _, _ => pure ()

def assignCompound (op : AssignOp) (target value : Expr) : Run W Unit := do
  let old ← ev.expr target
  let rhs ← ev.expr value
  let new ← binary pr (compoundBinop op) old rhs
  assignPlace tb ev target new

def execAssign (targets : List Expr) (op : AssignOp) (values : List Expr) : Run W Unit :=
  if op ≠ .eq then
    match targets, values with
    | [t], [v] => assignCompound pr tb ev op t v
    | _, _ => raise (.type "compound assignment takes exactly one target and value")
  else do
    let vals ← spread pr tb ev targets.length values
    assignAll tb ev targets vals

def execStmts (execStmt : Stmt → Run W Flow) : List Stmt → Run W Flow
  | [] => pure .normal
  | stmt :: rest => do
    match ← execStmt stmt with
    | .normal => execStmts execStmt rest
    | flow => return flow

/-- An error of a statement leaves before the scope is popped. -/
def execBlock (execStmt : Stmt → Run W Flow) (block : Block) : Run W Flow := do
  pushScope
  let flow ← execStmts execStmt block
  popScope
  return flow

def execElifs (els : Option Block) : List (Expr × Block) → Run W Flow
  | [] =>
    match els with
    | some body => ev.block body
    | none => pure .normal
  | (cond, body) :: rest => do
    if ← evalBool ev cond then ev.block body else execElifs els rest

def vibin (cond : Expr) (body : Block) : Run W Flow := do
  if ← evalBool ev cond then
    match ← ev.block body with
    | .break_ => return .normal
    | .return_ v => return .return_ v
    | .normal | .continue_ => ev.vibin cond body
  else return .normal

/-- A scope of its own around a computation, left on an error too. -/
def inScope {α : Type} (x : Run W α) : Run W α := do
  pushScope
  let r ← caught x
  popScope
  ofExcept r

def squadLoop (var : String) (body : Block) : List Value → Run W Flow
  | [] => pure .normal
  | item :: items => do
    let flow ← inScope do
      declare var item
      ev.block body
    match flow with
    | .break_ => return .normal
    | .return_ v => return .return_ v
    | .normal | .continue_ => squadLoop var body items

def execSquad (var : String) (iter : Expr) (body : Block) : Run W Flow := do
  match ← ev.expr iter with
  | .array xs => squadLoop ev var body xs
  | .vec addr => do
    -- a snapshot of the current contents
    let (_, xs) ← vecAt addr
    squadLoop ev var body xs
  | other => raise (.type s!"`squad` needs an array to iterate, got {other.typeName}")

def declareAll : List String → List Value → Run W Unit
  | name :: names, v :: vs => do
    declare name v
    declareAll names vs
  | _, _ => pure ()

def execVibe (name : String) (payload : List Value) (default : Option Block) :
    List MatchArm → Run W Flow
  | [] =>
    match default with
    | some body => ev.block body
    | none => raise (.nonExhaustive s!"variant `{name}`")
  | .mk variant bindings body :: rest =>
    if variant = name then
      if bindings.length ≠ payload.length then
        raise (.arity s!"pattern `{variant}`" payload.length bindings.length)
      else inScope do
        declareAll bindings payload
        ev.block body
    else execVibe name payload default rest

/-- What the live arm made of the binding goes back into the slot, if it changed at all. -/
def writeBack (binding : String) (id slot : Nat) (generation : BitVec 64) (snapshot : Value) :
    Run W Unit := do
  let s ← get
  match s.store.env.get binding with
  | none => pure ()
  | some updated =>
    if derivedEq pr s.store.heap updated.value snapshot then pure ()
    else change [] fun st =>
      { st with arenas := st.arenas.modify id (·.writeSlot slot generation updated.value) }

def holdLive (binding : String) (id slot : Nat) (generation : BitVec 64) (val : Value)
    (live : Block) : Run W Flow := do
  pushScope
  declare binding val
  let flow ← caught (ev.block live)
  writeBack pr binding id slot generation val
  popScope
  ofExcept flow

def execHolla (binding : String) (tag crib : Expr) (live ghosted : Block) : Run W Flow := do
  let tagVal ← ev.expr tag
  let id ← evalCrib ev crib
  match tagVal with
  | .tag _ slot generation => do
    let s ← get
    match s.store.arenas[id]?.bind (·.resolve slot generation) with
    | some val => holdLive pr ev binding id slot generation val live
    | none => ev.block ghosted
  | .ghosted => ev.block ghosted
  | other => raise (.type s!"`holla` needs a tag, got {other.typeName}")

/-- The recover arm binds the yeeted value; without one, the panic is swallowed. -/
def recoverWith (v : Value) : Option (String × Block) → Run W Flow
  | some (name, rblock) => inScope do
    declare name v
    ev.block rblock
  | none => pure .normal

def execSheesh (body : Block) (recover : Option (String × Block)) : Run W Flow := do
  match ← caught (ev.block body) with
  | .error (.raise (.yeet v)) => recoverWith ev v recover
  | other => ofExcept other

def defaultValue : Typ → Value
  | .named name _ =>
    if (Interp.intTy name).isSome then .word 0
    else if name = "f32" ∨ name = "f64" ∨ name = "float" then .float 0
    else if name = "bool" then .bool false
    else if name = "str" then .str ""
    else .ghosted
  | _ => .ghosted

/-- The early return of an error, with zeros in the value slots before it. -/
def execBounce (e : Expr) : Run W Flow := do
  match ← ev.expr e with
  | .ghosted => return .normal
  | v => do
    let s ← get
    let leading := (retTypes (s.retStack.headD .none)).dropLast.map defaultValue
    return .return_ (leading ++ [v])

def execEvict (crib : Expr) (tag : Option Expr) : Run W Unit := do
  let id ← evalCrib ev crib
  match tag with
  | none => change [] fun st => { st with arenas := st.arenas.modify id Arena.evict }
  | some t => do
    match ← ev.expr t with
    | .tag _ slot generation =>
      change [] fun st => { st with arenas := st.arenas.modify id (·.evictSlot slot generation) }
    | .ghosted => pure ()
    | other => raise (.type s!"`evict .. in ..` needs a tag, got {other.typeName}")

def execVar (v : VarDecl) : Run W Unit := do
  let vals ← spread pr tb ev v.targets.length v.values
  declareTargets v.ty v.targets vals

def execConst (c : ConstDecl) : Run W Unit := do
  let val ← ev.expr c.value
  declareAs c.name c.ty val

def execCrib (c : CribDecl) : Run W Unit := do
  let id ← newArena c.ty.isSome
  declare c.name (.crib id)

def execYeet (e : Expr) : Run W Flow := do
  let v ← ev.expr e
  raise (.yeet v)

def execBet (exprs : List Expr) : Run W Flow := do
  let vals ← evalExprs ev exprs
  return .return_ vals

def execVibeStmt (scrutinee : Expr) (arms : List MatchArm) (default : Option Block) :
    Run W Flow := do
  match ← ev.expr scrutinee with
  | .variant _ name payload => execVibe ev name payload default arms
  | other => raise (.type s!"`vibe` needs a moods value, got {other.typeName}")

/-- A statement that goes on to the next one. -/
def andThen {α : Type} (x : Run W α) : Run W Flow := do
  let _ ← x
  return .normal

def execStmt (stmt : Stmt) : Run W Flow :=
  match stmt with
  | .var v => andThen (execVar pr tb ev v)
  | .const c => andThen (execConst ev c)
  | .crib c => andThen (execCrib c)
  | .fr cond thenBlock elifs els => execElifs ev els ((cond, thenBlock) :: elifs)
  | .vibin cond body => ev.vibin cond body
  | .squad var iter body => execSquad ev var iter body
  | .vibe scrutinee arms default => execVibeStmt ev scrutinee arms default
  | .holla binding tag crib live ghosted => execHolla pr ev binding tag crib live ghosted
  | .sheesh body recover => execSheesh ev body recover
  | .evict crib tag => andThen (execEvict ev crib tag)
  | .slide call => andThen (evalCallExpr pr tb ev call)
  | .bet exprs => execBet ev exprs
  | .bounce e => execBounce ev e
  | .yeet e => execYeet ev e
  | .dip => pure .break_
  | .skip => pure .continue_
  | .assign targets op values => andThen (execAssign pr tb ev targets op values)
  | .expr e => andThen (evalCallExpr pr tb ev e)

/-- The interpreter that stops below `fuel` levels of nesting. -/
def evaluator : Nat → Evaluator W
  | 0 =>
    { expr := fun _ => fail .stop
      block := fun _ => fail .stop
      vibin := fun _ _ => fail .stop
      zeroDefault := fun _ _ => fail .stop }
  | fuel + 1 =>
    let ev := evaluator fuel
    { expr := evalExpr pr tb ev
      block := execBlock (execStmt pr tb ev)
      vibin := vibin ev
      zeroDefault := zeroDefault tb ev }

/-- A module-level name. -/
def declareGlobal (name : String) (ws : List Write) (slot : Slot) : Run W Unit :=
  change ws fun st => { st with globals := (name, slot) :: st.globals }

def registerCrib : Item → Run W Unit
  | .crib c => do
    let id ← newArena c.ty.isSome
    declareGlobal c.name [] ⟨none, .crib id⟩
  | _ => pure ()

def declareGlobals (ty : Option Typ) : List String → List Value → Run W Unit
  | name :: names, v :: vs => do
    declareGlobal name [.plain ty v] ⟨ty, v⟩
    declareGlobals ty names vs
  | _, _ => pure ()

/-- A module-level constant or variable, whose initializer has an environment of its own. -/
def evalGlobal : Item → Run W Unit
  | .const c => do
    pushFrame
    let val ← ev.expr c.value
    popFrame
    declareGlobal c.name [.coerced c.ty val] ⟨c.ty, coerce val c.ty⟩
  | .var v => do
    pushFrame
    let vals ← spread pr tb ev v.targets.length v.values
    popFrame
    declareGlobals v.ty v.targets vals
  | _ => pure ()

def forItems (f : Item → Run W Unit) : List Item → Run W Unit
  | [] => pure ()
  | item :: items => do
    f item
    forItems f items

def execMain : Run W Unit := do
  match tb.funcs.lookup "main" with
  | none => raise .noMain
  | some main => do
    let _ ← callFn ev main [] none
    return ()

def initial (world : W) (budget : Nat) : State W :=
  { store := { env := [], callers := [], globals := [], arenas := [], heap := [], returned := [] }
    retStack := []
    depth := 0
    out := ""
    world := world
    budget := budget }

def runProgram (p : Program) (fuel : Nat) : Run W Unit := do
  let ev := evaluator pr p.tables fuel
  forItems registerCrib p
  forItems (evalGlobal pr p.tables ev) p
  execMain p.tables ev

end BetLang.Eval
