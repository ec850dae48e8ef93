import BetLang.Dispatch

/-! Lowering's function tables, ids and monomorphization work-list. -/

namespace BetLang.Dispatch.Lower

open Registry

structure FuncSig where
  id : Nat
  params : List Ty
  rets : Ty
  hasReceiver : Bool
  ok : Bool

/-- What `collect` registers: signatures and generic declarations, by bare name. -/
structure Tables where
  funcs : List (String × FuncSig)
  genericFuncs : List (String × (Nat × FnDecl))
  nextMonoFid : Nat

def collectFnSig (prog : Program) (f : FnDecl) (id : Nat) : FuncSig :=
  let types := (f.receiver.toList ++ f.params).map (mapType prog [])
  let ret := mapType prog [] f.ret
  { id
    params := types.reduceOption
    rets := ret.getD .void
    hasReceiver := f.receiver.isSome
    ok := types.all Option.isSome && ret.isSome }

def collectFunc (prog : Program) (tb : Tables) (f : FnDecl) (i : Nat) : Tables :=
  if f.concrete then
    { tb with
      funcs := (f.name, collectFnSig prog f tb.nextMonoFid) :: tb.funcs
      nextMonoFid := tb.nextMonoFid + 1 }
  else
    { tb with genericFuncs := (f.name, (i, f)) :: tb.genericFuncs }

def collect (prog : Program) (funcs : List FnDecl) : Tables :=
  funcs.zipIdx.foldl (fun tb (f, i) => collectFunc prog tb f i) ⟨[], [], 0⟩

structure MonoFnJob where
  name : String
  args : List Ty
  id : Nat

structure Mono where
  nextMonoFid : Nat
  monoFuncs : List ((String × List Ty) × Nat)
  monoSigs : List (Nat × Sig)
  worklist : List MonoFnJob

/-- The callee of an emitted call; a builtin is emitted inline. -/
inductive Callee where
  | direct (id : Nat)
  | indirect (field : String)
  | extern_ (name : String)
  | builtin (method : String)
  deriving DecidableEq, Repr

/-- An emitted function: the declaration whose body it holds, the signature it was lowered
under and its calls in emission order. -/
structure Func where
  decl : Nat
  args : List Ty
  sig : Sig
  calls : List Callee
  deriving DecidableEq, Repr

abbrev Result (α : Type) := Except String α

def monoFn (prog : Program) (tb : Tables) (subst : List (String × Ty)) (name : String)
    (generics : List Typ) (st : Mono) : Result (Nat × Sig × Mono) := do
  match tb.genericFuncs.lookup name with
  | none => .error s!"unknown generic function {name}"
  | some (_, decl) =>
    match generics.mapM (mapType prog subst) with
    | none => .error "unknown type"
    | some args =>
      if decl.generics.length ≠ args.length then
        .error s!"generic function {name} expects {decl.generics.length} type arg(s), got {args.length}"
      else
        match st.monoFuncs.lookup (name, args) with
        | some id =>
          match st.monoSigs.lookup id with
          | none => .error "unsigned instance"
          | some sig => return (id, sig, st)
        | none =>
          match declSig prog decl args with
          | none => .error "unknown type"
          | some sig =>
            let id := st.nextMonoFid
            return (id, sig,
              { nextMonoFid := id + 1
                monoFuncs := ((name, args), id) :: st.monoFuncs
                monoSigs := (id, sig) :: st.monoSigs
                worklist := st.worklist ++ [⟨name, args, id⟩] })

mutual
def lowerExpr (prog : Program) (tb : Tables) (subst : List (String × Ty)) (env : List Ty) :
    Expr → Mono → Result (Ty × List Callee × Mono)
  | .value ty, st =>
    match mapType prog subst ty with
    | some t => return (t, [], st)
    | none => .error "unknown type"
  | .var i, st =>
    match env[i]? with
    | some t => return (t, [], st)
    | none => .error "unknown name"
  | .call name generics args, st =>
    if generics.isEmpty then
      match tb.funcs.lookup name with
      | some sig =>
        if !sig.ok then .error s!"{name} is generic and not yet lowerable"
        else do
          let (_, calls, st) ← lowerArgs prog tb subst env args st
          return (sig.rets, calls ++ [.direct sig.id], st)
      | none =>
        match prog.externs.reverse.find? (·.name = name) with
        | none => .error s!"call to unknown function {name}"
        | some e =>
          match mapType prog [] e.ret with
          | none => .error "unknown type"
          | some ret => do
            let (_, calls, st) ← lowerArgs prog tb subst env args st
            return (ret, calls ++ [.extern_ name], st)
    else do
      let (id, sig, st) ← monoFn prog tb subst name generics st
      let (_, calls, st) ← lowerArgs prog tb subst env args st
      return (sig.rets, calls ++ [.direct id], st)
  | .method receiver method args, st =>
    match tb.funcs.lookup method with
    | some sig =>
      if !sig.ok || !sig.hasReceiver then .error s!"{method} is not a lowerable method"
      else do
        let (_, recvCalls, st) ← lowerExpr prog tb subst env receiver st
        let (_, calls, st) ← lowerArgs prog tb subst env args st
        return (sig.rets, recvCalls ++ calls ++ [.direct sig.id], st)
    | none => do
      let (bty, recvCalls, st) ← lowerExpr prog tb subst env receiver st
      if builtinNames bty ≠ [] then
        let (ts, calls, st) ← lowerArgs prog tb subst env args st
        match builtinRet bty method ts with
        | some t => return (t, recvCalls ++ calls ++ [.builtin method], st)
        | none => .error s!"unknown method {method}"
      else
        match fnFieldRet prog bty method with
        | none => .error s!"unknown method {method}"
        | some ret =>
          let (_, calls, st) ← lowerArgs prog tb subst env args st
          return (ret, recvCalls ++ calls ++ [.indirect method], st)
def lowerArgs (prog : Program) (tb : Tables) (subst : List (String × Ty)) (env : List Ty) :
    Args → Mono → Result (List Ty × List Callee × Mono)
  | .nil, st => return ([], [], st)
  | .cons e rest, st => do
    let (t, calls, st) ← lowerExpr prog tb subst env e st
    let (ts, restCalls, st) ← lowerArgs prog tb subst env rest st
    return (t :: ts, calls ++ restCalls, st)
end

def lowerBlock (prog : Program) (tb : Tables) (subst : List (String × Ty)) :
    List Ty → List Expr → Mono → Result (List Callee × Mono)
  | _, [], st => return ([], st)
  | env, e :: rest, st => do
    let (t, calls, st) ← lowerExpr prog tb subst env e st
    let (restCalls, st) ← lowerBlock prog tb subst (env ++ [t]) rest st
    return (calls ++ restCalls, st)

def lowerFnCore (prog : Program) (tb : Tables) (decl : Nat) (args : List Ty) (sig : Sig)
    (subst : List (String × Ty)) (body : List Expr) (st : Mono) : Result (Func × Mono) := do
  let (calls, st) ← lowerBlock prog tb subst sig.params body st
  return (⟨decl, args, sig, calls⟩, st)

def lowerFunc (prog : Program) (tb : Tables) (i : Nat) (f : FnDecl) (st : Mono) :
    Result (Func × Mono) :=
  match tb.funcs.lookup f.name with
  | none => .error s!"function {f.name} was not collected"
  | some sig =>
    if !sig.ok then .error s!"function {f.name} has a signature that is not yet lowerable"
    else lowerFnCore prog tb i [] ⟨sig.params, sig.rets⟩ [] f.body st

def lowerMonoFn (prog : Program) (tb : Tables) (job : MonoFnJob) (st : Mono) :
    Result (Func × Mono) :=
  match tb.genericFuncs.lookup job.name, st.monoSigs.lookup job.id with
  | some (i, decl), some sig =>
    lowerFnCore prog tb i job.args sig (decl.generics.zip job.args) decl.body st
  | _, _ => .error "unknown instance"

/-- Pass 2: the concrete bodies, in declaration order. -/
def lowerConcrete (prog : Program) (tb : Tables) :
    List (FnDecl × Nat) → Mono → Result (List Func × Mono)
  | [], st => return ([], st)
  | (f, i) :: rest, st =>
    if f.concrete then do
      let (e, st) ← lowerFunc prog tb i f st
      let (out, st) ← lowerConcrete prog tb rest st
      return (e :: out, st)
    else lowerConcrete prog tb rest st

/-- Pass 3: the work-list from position `i` on; instances may enqueue more. -/
def drainWorklist (prog : Program) (tb : Tables) : Nat → Nat → Mono → Result (List Func × Mono)
  | fuel, i, st =>
    match st.worklist[i]? with
    | none => return ([], st)
    | some job =>
      match fuel with
      | 0 => .error "out of fuel"
      | fuel + 1 => do
        let (e, st) ← lowerMonoFn prog tb job st
        let (out, st) ← drainWorklist prog tb fuel (i + 1) st
        return (e :: out, st)

/-- `lower_items`: the module's functions, in the order of their ids. -/
def lowerItems (fuel : Nat) (prog : Program) : Result (List Func) := do
  let tb := collect prog prog.funcs
  let (concrete, st) ← lowerConcrete prog tb prog.funcs.zipIdx ⟨tb.nextMonoFid, [], [], []⟩
  let (instances, _) ← drainWorklist prog tb fuel 0 st
  return concrete ++ instances

end BetLang.Dispatch.Lower
