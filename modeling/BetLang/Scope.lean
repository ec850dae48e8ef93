import Mathlib.Data.List.Basic

/-! Names: how lowering's tables resolve them, and the interpreter's scope stack. Of an expression
the uses of names matter, of a declaration its name and which one it is. -/

namespace BetLang.Scope

inductive UseKind where
  /-- An operand. -/
  | value
  /-- The root of an assigned place. -/
  | target
  /-- The callee of a call. -/
  | callee
  /-- The receiver of a method call. -/
  | receiver
  /-- `spill` in front of a statement. -/
  | spill
  /-- The callee of `slide`. -/
  | slide
  deriving DecidableEq, Repr

/-- A use of a name, with its position in the text. -/
structure Use where
  kind : UseKind
  name : String
  site : Nat
  deriving DecidableEq, Repr

structure Decl where
  name : String
  id : Nat
  deriving DecidableEq, Repr

mutual

inductive Stmt where
  | lowkey (targets : List Decl) (inits : List (List Use))
  | facts (d : Decl)
  | crib (d : Decl)
  /-- An assignment, an expression, `evict` or `slide`. -/
  | eval (uses : List Use)
  | bounce (uses : List Use)
  | bet (uses : List Use)
  | yeet (uses : List Use)
  | dip
  | skip
  | fr (chain : Chain)
  | vibin (cond : List Use) (body : Block)
  | squad (var : Decl) (iter : List Use) (body : Block)
  | vibe (scrutinee : List Use) (arms : Arms)
  | holla (binding : Decl) (operands : List Use) (live ghosted : Block)

/-- `fr .. naw fr .. naw ..`. -/
inductive Chain where
  | done
  | naw (body : Block)
  | fr (cond : List Use) (body : Block) (rest : Chain)

inductive Arms where
  | done
  | naw (body : Block)
  | arm (bindings : List Decl) (body : Block) (rest : Arms)

inductive Block where
  | nil
  | cons (s : Stmt) (rest : Block)

end

/-- The module-level bindings by name, a later one first, and what else a name can be. -/
structure Module where
  facts : List (String × Nat)
  cribs : List (String × Nat)
  isFunc : String → Bool
  isModule : String → Bool

inductive Binding where
  | decl (id : Nat)
  | global (id : Nat)
  /-- A variant, a function or a stdlib module. -/
  | item
  deriving DecidableEq, Repr

abbrev Scopes := List (List (String × Nat))

/-- The innermost binding of a name. -/
def Scopes.get (scopes : Scopes) (name : String) : Option Nat :=
  scopes.findSome? (·.lookup name)

def Scopes.declare : Scopes → Decl → Scopes
  | [], _ => []
  | s :: rest, d => ((d.name, d.id) :: s) :: rest

def Scopes.declareAll (scopes : Scopes) (ds : List Decl) : Scopes :=
  ds.foldl Scopes.declare scopes

namespace Lower

structure State where
  scopes : Scopes
  localConsts : List (String × Nat)
  /-- What each use is resolved to, in order. -/
  resolved : List (Nat × Binding)
  /-- The current block has its terminator. -/
  done : Bool

def lookupConst (m : Module) (st : State) (name : String) : Option Binding :=
  ((st.localConsts.lookup name).map .decl).or ((m.facts.lookup name).map .global)

/-- A name that is no local: a constant, a module-level crib, or an item. -/
def lowerName (m : Module) (st : State) (name : String) : Binding :=
  match lookupConst m st name with
  | some b => b
  | none =>
    match m.cribs.lookup name with
    | some id => .global id
    | none => .item

def resolve (m : Module) (st : State) (u : Use) : Option Binding :=
  match u.kind, st.scopes.get u.name with
  | .slide, _ => some .item
  | _, some id => some (.decl id)
  | .value, none => some (lowerName m st u.name)
  | .target, none => none
  | .callee, none | .spill, none => some .item
  | .receiver, none =>
    if m.isModule u.name && !m.isFunc u.name then some .item else some (lowerName m st u.name)

def lowerUse (m : Module) (st : State) (u : Use) : Option State := do
  let b ← resolve m st u
  return { st with resolved := st.resolved ++ [(u.site, b)] }

def lowerUses (m : Module) (st : State) : List Use → Option State
  | [] => some st
  | u :: us => do lowerUses m (← lowerUse m st u) us

def State.bind (st : State) (d : Decl) : State :=
  { st with scopes := st.scopes.declare d }

/-- One initializer, then its name, and so on. -/
def lowerInits (m : Module) (st : State) : List Decl → List (List Use) → Option State
  | [], [] => some st
  | d :: ds, us :: uss => do lowerInits m ((← lowerUses m st us).bind d) ds uss
  | _, _ => none

def lowerVar (m : Module) (st : State) (targets : List Decl) : List (List Use) → Option State
  | [us] =>
    match targets with
    | [d] => do return (← lowerUses m st us).bind d
    | _ => do
      let st ← lowerUses m st us
      return { st with scopes := st.scopes.declareAll targets }
  | inits => lowerInits m st targets inits

def State.push (st : State) : State :=
  { st with scopes := [] :: st.scopes }

def State.pop (st : State) : State :=
  { st with scopes := st.scopes.tail }

/-- Lowering goes on in a fresh or a selected block. -/
def State.select (st : State) : State :=
  { st with done := false }

def State.terminate (st : State) : State :=
  { st with done := true }

mutual

def lowerStmt (m : Module) (st : State) : Stmt → Option State
  | .lowkey targets inits => lowerVar m st targets inits
  | .facts d => some { st with localConsts := (d.name, d.id) :: st.localConsts }
  | .crib d => some (st.bind d)
  | .eval uses => lowerUses m st uses
  | .bounce uses => do return (← lowerUses m st uses).select
  | .bet uses | .yeet uses => do return (← lowerUses m st uses).terminate
  | .dip | .skip => some st.terminate
  | .fr chain => do return (← lowerChain m st chain).select
  | .vibin cond body => do
    let st ← lowerUses m st cond
    return (← lowerBlock m st.select.push body).pop.select
  | .squad var iter body => do
    let st ← lowerUses m st iter
    return (← lowerBlock m (st.select.push.bind var).push body).pop.pop.select
  | .vibe scrutinee arms => do
    let st ← lowerUses m st scrutinee
    return (← lowerArms m st arms).select
  | .holla binding operands live ghosted => do
    let st ← lowerUses m st operands
    let st := (← lowerBlock m (st.select.push.bind binding).push live).pop.pop
    return (← lowerBlock m st.select.push ghosted).pop.select

def lowerChain (m : Module) (st : State) : Chain → Option State
  | .done => some st
  | .naw body => do return (← lowerBlock m st.select.push body).pop
  | .fr cond body rest => do
    let st ← lowerUses m st cond
    let st := (← lowerBlock m st.select.push body).pop
    lowerChain m st.select rest

def lowerArms (m : Module) (st : State) : Arms → Option State
  | .done => some st
  | .naw body => do return (← lowerBlock m st.select.push body).pop
  | .arm bindings body rest => do
    let st := st.select.push
    let st := (← lowerBlock m ({ st with scopes := st.scopes.declareAll bindings }).push body).pop.pop
    lowerArms m st.select rest

/-- The statements of a block; its scope is opened and closed by the caller. -/
def lowerBlock (m : Module) (st : State) : Block → Option State
  | .nil => some st
  | .cons s rest => do
    if st.done then return st
    else lowerBlock m (← lowerStmt m st s) rest

end

end Lower

structure Func where
  params : List Decl
  body : Block

/-- The scopes in which a body starts: the parameters, and its own. -/
def Func.scopes (f : Func) : Scopes :=
  [] :: Scopes.declareAll [[]] f.params

/-- What lowering resolves each use of a function to. -/
def lowerFunc (m : Module) (f : Func) : Option (List (Nat × Binding)) := do
  let st ← Lower.lowerBlock m ⟨f.scopes, [], [], false⟩ f.body
  return st.resolved

namespace Interp

/-- Module-level constants are inserted after the cribs. -/
def lookupGlobal (m : Module) (name : String) : Option Nat :=
  (m.facts ++ m.cribs).lookup name

def globalOrItem (m : Module) (name : String) : Binding :=
  match lookupGlobal m name with
  | some id => .global id
  | none => .item

def resolve (m : Module) (env : Scopes) (u : Use) : Binding :=
  match env.get u.name with
  | some id => .decl id
  | none =>
    match u.kind with
    | .callee | .slide => .item
    | .value | .target | .receiver | .spill => globalOrItem m u.name

inductive Flow where
  | normal | brk | cont | ret | error
  deriving DecidableEq, Repr

/-- What is executed: the loop of `squad` is apart from its first evaluation. -/
inductive Code where
  | uses (us : List Use)
  | stmt (s : Stmt)
  | rounds (var : Decl) (body : Block)
  | chain (c : Chain)
  | arms (a : Arms)
  /-- The statements of a block in its own scope. -/
  | stmts (b : Block)
  | block (b : Block)

abbrev Event := Use × Binding

/-- The flow of a statement that leaves in its own way after its operands. -/
def Flow.after (leave : Flow) : Flow → Flow
  | .normal => leave
  | fl => fl

/-- A loop ends normally after `dip`. -/
def Flow.caught : Flow → Flow
  | .brk => .normal
  | fl => fl

/-- Executions: the lookups that are performed, the scope stack that is left and how control goes
on. Conditions, element counts, short circuits and failures are open. -/
inductive Exec (m : Module) : Scopes → Code → List Event → Scopes → Flow → Prop where
  | uses {env us fl} {vs : List Use} (hvs : vs.Sublist us) (hfl : fl = .normal ∨ fl = .error) :
      Exec m env (.uses us) (vs.map fun u => (u, resolve m env u)) env fl
  | lowkey {env evs fl} {targets : List Decl} {inits : List (List Use)}
      (hlen : targets.length = inits.length ∨ inits.length = 1)
      (hi : Exec m env (.uses inits.flatten) evs env fl) :
      Exec m env (.stmt (.lowkey targets inits)) evs (env.declareAll targets) fl
  /-- `Destructure`. -/
  | lowkeyFail {env} {targets : List Decl} {inits : List (List Use)}
      (hlen : targets.length ≠ inits.length ∧ inits.length ≠ 1) :
      Exec m env (.stmt (.lowkey targets inits)) [] env .error
  | facts {env d} : Exec m env (.stmt (.facts d)) [] (env.declare d) .normal
  | crib {env d} : Exec m env (.stmt (.crib d)) [] (env.declare d) .normal
  | eval {env us evs fl} (hu : Exec m env (.uses us) evs env fl) :
      Exec m env (.stmt (.eval us)) evs env fl
  | bounce {env us evs fl} {leave : Flow} (hu : Exec m env (.uses us) evs env fl)
      (hleave : leave = .normal ∨ leave = .ret) :
      Exec m env (.stmt (.bounce us)) evs env (leave.after fl)
  | bet {env us evs fl} (hu : Exec m env (.uses us) evs env fl) :
      Exec m env (.stmt (.bet us)) evs env (Flow.after .ret fl)
  | yeet {env us evs fl} (hu : Exec m env (.uses us) evs env fl) :
      Exec m env (.stmt (.yeet us)) evs env (Flow.after .error fl)
  | dip {env} : Exec m env (.stmt .dip) [] env .brk
  | skip {env} : Exec m env (.stmt .skip) [] env .cont
  | fr {env c evs env' fl} (hc : Exec m env (.chain c) evs env' fl) :
      Exec m env (.stmt (.fr c)) evs env' fl
  | vibinEnd {env cond body evs fl} (hc : Exec m env (.uses cond) evs env fl) :
      Exec m env (.stmt (.vibin cond body)) evs env fl
  | vibinLeave {env cond body evs evs' env' fl} (hc : Exec m env (.uses cond) evs env .normal)
      (hb : Exec m env (.block body) evs' env' fl) (hfl : fl ≠ .normal ∧ fl ≠ .cont) :
      Exec m env (.stmt (.vibin cond body)) (evs ++ evs') env' fl.caught
  | vibinAgain {env cond body evs evs' evs'' env' env'' fl fl'}
      (hc : Exec m env (.uses cond) evs env .normal)
      (hb : Exec m env (.block body) evs' env' fl) (hfl : fl = .normal ∨ fl = .cont)
      (hr : Exec m env' (.stmt (.vibin cond body)) evs'' env'' fl') :
      Exec m env (.stmt (.vibin cond body)) (evs ++ evs' ++ evs'') env'' fl'
  | squadFail {env var iter body evs} (hi : Exec m env (.uses iter) evs env .error) :
      Exec m env (.stmt (.squad var iter body)) evs env .error
  | squad {env var iter body evs evs' env' fl} (hi : Exec m env (.uses iter) evs env .normal)
      (hr : Exec m env (.rounds var body) evs' env' fl) :
      Exec m env (.stmt (.squad var iter body)) (evs ++ evs') env' fl
  | roundsEnd {env var body} : Exec m env (.rounds var body) [] env .normal
  | roundsLeave {env var body evs env' fl}
      (hb : Exec m (Scopes.declare ([] :: env) var) (.block body) evs env' fl)
      (hfl : fl ≠ .normal ∧ fl ≠ .cont) :
      Exec m env (.rounds var body) evs env'.tail fl.caught
  | roundsAgain {env var body evs evs' env' env'' fl fl'}
      (hb : Exec m (Scopes.declare ([] :: env) var) (.block body) evs env' fl)
      (hfl : fl = .normal ∨ fl = .cont)
      (hr : Exec m env'.tail (.rounds var body) evs' env'' fl') :
      Exec m env (.rounds var body) (evs ++ evs') env'' fl'
  | vibeFail {env us arms evs} (hs : Exec m env (.uses us) evs env .error) :
      Exec m env (.stmt (.vibe us arms)) evs env .error
  | vibe {env us arms evs evs' env' fl} (hs : Exec m env (.uses us) evs env .normal)
      (ha : Exec m env (.arms arms) evs' env' fl) :
      Exec m env (.stmt (.vibe us arms)) (evs ++ evs') env' fl
  | hollaFail {env binding us live ghosted evs} (ho : Exec m env (.uses us) evs env .error) :
      Exec m env (.stmt (.holla binding us live ghosted)) evs env .error
  | hollaLive {env binding us live ghosted evs evs' env' fl}
      (ho : Exec m env (.uses us) evs env .normal)
      (hb : Exec m (Scopes.declare ([] :: env) binding) (.block live) evs' env' fl) :
      Exec m env (.stmt (.holla binding us live ghosted)) (evs ++ evs') env'.tail fl
  | hollaGhosted {env binding us live ghosted evs evs' env' fl}
      (ho : Exec m env (.uses us) evs env .normal)
      (hb : Exec m env (.block ghosted) evs' env' fl) :
      Exec m env (.stmt (.holla binding us live ghosted)) (evs ++ evs') env' fl
  | chainEnd {env} : Exec m env (.chain .done) [] env .normal
  | chainNaw {env body evs env' fl} (hb : Exec m env (.block body) evs env' fl) :
      Exec m env (.chain (.naw body)) evs env' fl
  | chainFail {env cond body rest evs} (hc : Exec m env (.uses cond) evs env .error) :
      Exec m env (.chain (.fr cond body rest)) evs env .error
  | chainTake {env cond body rest evs evs' env' fl}
      (hc : Exec m env (.uses cond) evs env .normal)
      (hb : Exec m env (.block body) evs' env' fl) :
      Exec m env (.chain (.fr cond body rest)) (evs ++ evs') env' fl
  | chainSkip {env cond body rest evs evs' env' fl}
      (hc : Exec m env (.uses cond) evs env .normal)
      (hr : Exec m env (.chain rest) evs' env' fl) :
      Exec m env (.chain (.fr cond body rest)) (evs ++ evs') env' fl
  /-- `NonExhaustive`. -/
  | armsEnd {env} : Exec m env (.arms .done) [] env .error
  | armsNaw {env body evs env' fl} (hb : Exec m env (.block body) evs env' fl) :
      Exec m env (.arms (.naw body)) evs env' fl
  | armsTake {env bindings body rest evs env' fl}
      (hb : Exec m (Scopes.declareAll ([] :: env) bindings) (.block body) evs env' fl) :
      Exec m env (.arms (.arm bindings body rest)) evs env'.tail fl
  | armsSkip {env bindings body rest evs env' fl} (hr : Exec m env (.arms rest) evs env' fl) :
      Exec m env (.arms (.arm bindings body rest)) evs env' fl
  | stmtsEnd {env} : Exec m env (.stmts .nil) [] env .normal
  | stmtsLeave {env s rest evs env' fl} (hs : Exec m env (.stmt s) evs env' fl)
      (hfl : fl ≠ .normal) : Exec m env (.stmts (.cons s rest)) evs env' fl
  | stmts {env s rest evs evs' env' env'' fl} (hs : Exec m env (.stmt s) evs env' .normal)
      (hr : Exec m env' (.stmts rest) evs' env'' fl) :
      Exec m env (.stmts (.cons s rest)) (evs ++ evs') env'' fl
  | block {env b evs env' fl} (hb : Exec m ([] :: env) (.stmts b) evs env' fl) :
      Exec m env (.block b) evs env'.tail fl

end Interp

end BetLang.Scope
