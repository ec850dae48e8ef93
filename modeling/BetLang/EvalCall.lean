import BetLang.EvalExpr

/-! Places, calls and the forms of an expression. -/

namespace BetLang.Eval

open Collect (Typ RetType)
open Interp (Value RunError)
open Traced

variable {W : Type} (pr : Prims W) (tb : Tables) (ev : Evaluator W)

/-- A mutable borrow: the binding that it goes into, the way from there, and what is there. -/
structure Place where
  root : String
  slot : Slot
  steps : List PathStep
  ty : Option Typ
  value : Value

def raised {α : Type} : Except RunError α → Run W α
  | .ok a => pure a
  | .error e => raise e

/-- The root of a place and the steps from there; the indices are evaluated from the leaf on. -/
def flatten : Expr → Run W (String × List PathStep)
  | .name name => pure (name, [])
  | .field base name => do
    let (root, steps) ← flatten base
    return (root, steps ++ [.field name])
  | .index base index => do
    let v ← ev.expr index
    let i ← indexOf v
    let (root, steps) ← flatten base
    return (root, steps ++ [.index i])
  | _ => raise (.type "invalid place expression")

def placeMut (e : Expr) : Run W Place := do
  let (root, steps) ← flatten ev e
  let s ← get
  match s.store.env.get root with
  | none => raise (.undefined root)
  | some slot => do
    let (ty, value) ← raised (walk tb slot.declared slot.value steps)
    return ⟨root, slot, steps, ty, value⟩

def Place.put (p : Place) (new : Value) : Slot :=
  { p.slot with value := replace p.slot.value p.steps new }

/-- Nothing is evaluated between the borrow and the write through it. -/
def setPlace (p : Place) (ws : List Write) (new : Value) : Run W Unit :=
  change ws fun st => { st with env := st.env.set p.root (p.put new) }

def arrayStackPop (p : Place) (xs : List Value) (method : String) (argVals : List Value) :
    Run W (List Value) :=
  if method = "stack" then
    match argVals with
    | v :: _ => do
      setPlace p [.plain (elemTy p.ty) v] (.array (xs ++ [v]))
      return []
    | [] => raise (.type "`stack` takes a value")
  else
    match xs.getLast? with
    | some v => do
      setPlace p [] (.array xs.dropLast)
      return [v]
    | none => raise (.type "`pop` on an empty array")

def vecStackPop (addr : Nat) (method : String) (argVals : List Value) : Run W (List Value) := do
  let (declared, xs) ← vecAt addr
  if method = "stack" then
    match argVals with
    | v :: _ => do
      setCell addr [.plain declared v] (.vec declared (xs ++ [v]))
      return []
    | [] => raise (.type "`stack` takes a value")
  else if method = "pop" then
    match xs.getLast? with
    | some v => do
      setCell addr [] (.vec declared xs.dropLast)
      return [v]
    | none => raise (.type "`pop` on an empty vec")
  else raise (.undefined s!"vec.{method}")

def oneFnArg (method : String) : List Arg → Run W Value
  | [a] => ev.expr a.value
  | _ => raise (.type s!"`{method}` takes one `finna` argument")

def isTrue : Value → Bool
  | .bool b => b
  | _ => false

def vibeCheckLoop (f : Value) : List Value → Run W (List Value)
  | [] => pure []
  | x :: xs => do
    let keep ← applyFnValue tb ev f [x]
    let rest ← vibeCheckLoop f xs
    return if isTrue keep then x :: rest else rest

def glowUpLoop (f : Value) : List Value → Run W (List Value)
  | [] => pure []
  | x :: xs => do
    let y ← applyFnValue tb ev f [x]
    let rest ← glowUpLoop f xs
    return y :: rest

def callArrayMethod (xs : List Value) (method : String) (args : List Arg) : Run W (List Value) :=
  if method = "gang" then return [.word (.ofNat 64 xs.length)]
  else if method = "vibeCheck" then do
    let f ← oneFnArg ev method args
    let out ← vibeCheckLoop tb ev f xs
    return [.array out]
  else if method = "glowUp" then do
    let f ← oneFnArg ev method args
    let out ← glowUpLoop tb ev f xs
    return [.array out]
  else raise (.undefined s!"array.{method}")

/-- The bytes of a `[]u8`. -/
def bytesOf : List Value → Except RunError (List (BitVec 8))
  | [] => .ok []
  | .byte b :: vs => (bytesOf vs).map (b :: ·)
  | .int i _ :: vs => (bytesOf vs).map (i.setWidth 8 :: ·)
  | _ :: _ => .error (.type "str.fromBytes* needs a []u8 (byte-valued elements)")

def utf8 (s : String) : List Value := s.toUTF8.toList.map fun b => .byte b.toBitVec

def callVec (addr : Nat) (method : String) (args : List Arg) : Run W (List Value) :=
  if method = "stack" ∨ method = "pop" then do
    let argVals ← evalArgs ev args
    vecStackPop addr method argVals
  else if method = "append" then do
    let argVals ← evalArgs ev args
    match argVals with
    | [.str s] => do
      let (declared, xs) ← vecAt addr
      setCell addr ((utf8 s).map (.plain declared)) (.vec declared (xs ++ utf8 s))
      return []
    | _ => raise (.type "`vec.append` takes a single str")
  else if method = "str" then
    if args.isEmpty then do
      let (_, xs) ← vecAt addr
      let bytes ← raised (bytesOf xs)
      return [.str (pr.lossy bytes)]
    else raise (.type "`vec.str` takes no arguments")
  else do
    let (_, xs) ← vecAt addr
    callArrayMethod tb ev xs method args

/-- `put` into the entries, where a key that is there keeps its entry. -/
def putEntry (eq : Value → Value → Bool) (k v : Value) :
    List (Value × Value) → List (Value × Value)
  | [] => [(k, v)]
  | (k', v') :: rest => if eq k' k then (k', v) :: rest else (k', v') :: putEntry eq k v rest

def callStash (addr : Nat) (method : String) (args : List Arg) : Run W (List Value) := do
  let argVals ← evalArgs ev args
  let s ← get
  let eq := derivedEq pr s.store.heap
  let entries ← stashAt addr
  if method = "put" then
    match argVals with
    | [k, v] => do
      setCell addr [] (.stash (putEntry eq k v entries))
      return []
    | _ => raise (.type "`stash.put` takes a key and a value")
  else if method = "peep" then
    match argVals with
    | [k] =>
      match entries.find? fun e => eq e.1 k with
      | some e => return [e.2, .bool true]
      | none => return [.ghosted, .bool false]
    | _ => raise (.type "`stash.peep` takes a single key")
  else if method = "yeet" then
    match argVals with
    | [k] => do
      let kept := entries.filter fun e => !eq e.1 k
      setCell addr [] (.stash kept)
      return [.bool (kept.length != entries.length)]
    | _ => raise (.type "`stash.yeet` takes a single key")
  else if method = "gang" then return [.word (.ofNat 64 entries.length)]
  else raise (.undefined s!"stash.{method}")

/-- A module outside the program, or a generator. -/
def outside {α : Type} (f : W → Except Fault α × W) : Run W α := do
  let s ← get
  modify fun s => { s with world := (f s.world).2 }
  match (f s.world).1 with
  | .ok a => return a
  | .error e => fail e.halt

def callMethod (recv : Value) (method : String) (args : List Arg) : Run W (List Value) :=
  match recv with
  | .yikes msg =>
    if method = "tea" then do
      match ← evalArgs ev args with
      | [.str c] => return [.yikes s!"{c}: {msg}"]
      | _ => raise (.type "`.tea` takes a single str context")
    else raise (.undefined s!"yikes.{method}")
  | .stash addr => callStash pr ev addr method args
  | .vec addr => callVec pr tb ev addr method args
  | .rng addr => do
    let vals ← evalArgs ev args
    let drawn ← outside (pr.draw addr method vals)
    return [drawn.value]
  | .array xs => callArrayMethod tb ev xs method args
  | .struct ty fields =>
    match tb.methods.lookup (ty, method) with
    | some f => do
      let argVals ← evalArgs ev args
      callFn ev f argVals (some (.struct ty fields))
    | none =>
      -- a function in a field is called without the receiver
      match fields.lookup method with
      | some (.fn fname) => callNamedFn tb ev fname args
      | _ => raise (.undefined s!"{ty}.{method}")
  | other => raise (.type s!"no method `{method}` on {other.typeName}")

def emit (text : String) : Run W Unit := modify fun s => { s with out := s.out ++ text }

def callSpill (method : String) (args : List Arg) : Run W Unit :=
  if method = "it" then
    match args with
    | [a] => do
      let v ← ev.expr a.value
      let s ← get
      emit (pr.display s.store.heap v ++ "\n")
    | _ => raise (.arity "spill.it" 1 args.length)
  else if method = "f" then
    match args with
    | [] => raise (.arity "spill.f" 1 0)
    | fmtArg :: rest => do
      match ← ev.expr fmtArg.value with
      | .str fmt => do
        let vals ← evalArgs ev rest
        let s ← get
        match pr.formatStr s.store.heap fmt vals with
        | .ok text => emit text
        | .error msg => fail (.badFormat msg)
      | other => raise (.type s!"spill.f format must be a str, got {other.typeName}")
  else raise (.unsupported s!"spill.{method}")

def callYikes (method : String) (args : List Arg) : Run W Value :=
  if method = "new" then do
    match ← evalArgs ev args with
    | [.str m] => return .yikes m
    | _ => raise (.type "`yikes.new` takes a single str message")
  else raise (.unsupported s!"yikes.{method}")

/-- The optional `in: <crib>` of a collection constructor. -/
def evalAllocCtxArg : List Arg → Run W Unit
  | [] => pure ()
  | [.mk (some "in") value] => do
    match ← ev.expr value with
    | .crib _ => pure ()
    | other => raise (.type s!"`in:` needs a crib allocator context, got {other.typeName}")
  | _ => raise (.type "collection constructor takes only an optional `in: <crib>`")

/-- The zero of a slab's elements. -/
def slabZero : List Typ → Run W Value
  | .named n args :: _ =>
    if (tb.drips.lookup n).isSome then ev.zeroDefault (.named n args) [] else pure (.word 0)
  | _ => pure (.word 0)

def memSlab (generics : List Typ) (args : List Arg) : Run W Value := do
  let vals ← evalArgs ev args
  match vals with
  | [.int n _] =>
    if 0 ≤ n.toInt then do
      let zero ← slabZero tb ev generics
      checkedAlloc (n.toNat * valueCells zero)
      return .array (List.replicate n.toNat zero)
    else raise (.type "`mem.slab` takes a single non-negative length")
  | _ => raise (.type "`mem.slab` takes a single non-negative length")

inductive ModuleFn where
  | spill
  | yikes
  | stashNew
  | vecNew
  | scratch
  | receipts
  | slab
  | other

def moduleFn (modname method : String) : Option ModuleFn :=
  if modname = "spill" then some .spill
  else if modname = "yikes" then some .yikes
  else if modname = "stash" ∧ method = "new" then some .stashNew
  else if modname = "vec" ∧ method = "new" then some .vecNew
  else if modname = "mem" ∧ method = "scratch" then some .scratch
  else if modname = "mem" ∧ method = "receipts" then some .receipts
  else if modname = "mem" ∧ method = "slab" then some .slab
  else if modname ∈ ["str", "bytes", "math", "sys", "fs", "gg"] then some .other
  else none

def callModule (fn : ModuleFn) (modname method : String) (generics : List Typ) (args : List Arg) :
    Run W (List Value) :=
  match fn with
  | .spill => do
    callSpill pr ev method args
    return []
  | .yikes => do
    let v ← callYikes ev method args
    return [v]
  | .stashNew => do
    evalAllocCtxArg ev args
    let addr ← newCell (.stash [])
    return [.stash addr]
  | .vecNew => do
    let addr ← newCell (.vec generics.head? [])
    return [.vec addr]
  | .scratch => do
    let id ← newArena false
    return [.crib id]
  | .receipts => return [.word 0]
  | .slab => do
    let v ← memSlab tb ev generics args
    return [v]
  | .other => do
    let vals ← evalArgs ev args
    let out ← outside (pr.call modname method vals)
    return out.map Plain.value

/-- The module that a receiver names, unless a binding shadows it. -/
def moduleOf (receiver : Expr) (method : String) : Run W (Option (ModuleFn × String)) :=
  match receiver with
  | .name modname => do
    let s ← get
    if (s.store.env.get modname).isSome || (s.store.globals.lookup modname).isSome then return none
    else return (moduleFn modname method).map (·, modname)
  | _ => return none

def callOn (receiver : Expr) (method : String) (args : List Arg) : Run W (List Value) := do
  let recvVal ← ev.expr receiver
  callMethod pr tb ev recvVal method args

/-- `stack` and `pop` on an array mutate the place of the receiver. -/
def callOnPlace (receiver : Expr) (method : String) (args : List Arg) : Run W (List Value) := do
  let argVals ← evalArgs ev args
  match ← caught (placeMut tb ev receiver) with
  | .ok p =>
    match p.value with
    | .array xs => arrayStackPop p xs method argVals
    | .vec addr => vecStackPop addr method argVals
    | _ => callOn pr tb ev receiver method args
  | .error _ => callOn pr tb ev receiver method args

def evalMethodCall (receiver : Expr) (method : String) (generics : List Typ) (args : List Arg) :
    Run W (List Value) := do
  match ← moduleOf receiver method with
  | some (fn, modname) => callModule pr tb ev fn modname method generics args
  | none =>
    if method = "stack" ∨ method = "pop" then callOnPlace pr tb ev receiver method args
    else callOn pr tb ev receiver method args

def callExternShim (name : String) (args : List Arg) : Run W (List Value) := do
  let vals ← evalArgs ev args
  match name, vals with
  | "abs", [.int x _] => return [.word (if x.toInt < 0 then -x else x)]
  | other, _ => raise (.unsupported s!"no interpreter shim for extern `{other}`")

/-- A call through a value. -/
def callValue (args : List Arg) : Value → Run W (List Value)
  | .fn fname => callNamedFn tb ev fname args
  | other => raise (.notCallable other.typeName)

def evalPlainCall (callee : Expr) (args : List Arg) : Run W (List Value) :=
  match callee with
  | .name name => do
    let s ← get
    match s.store.env.get name with
    | some slot => callValue tb ev args slot.value
    | none =>
      match tb.variants.lookup name with
      | some info => do
        let v ← constructVariant ev name info.moods info.arity args
        return [v]
      | none =>
        if (tb.funcs.lookup name).isSome then callNamedFn tb ev name args
        else if name ∈ tb.externs then callExternShim ev name args
        else raise (.undefined name)
  | callee => do
    let v ← ev.expr callee
    callValue tb ev args v

def evalCallExpr (e : Expr) : Run W (List Value) :=
  match e with
  | .method receiver method generics args => evalMethodCall pr tb ev receiver method generics args
  | .call callee args => evalPlainCall tb ev callee args
  | e => do
    let v ← ev.expr e
    return [v]

def evalField (base : Expr) (name : String) : Run W Value := do
  match ← ev.expr base with
  | .struct ty fields =>
    match fields.lookup name with
    | some v => return v
    | none => raise (.unknownField ty name)
  | other => raise (.type s!"cannot read field `{name}` of {other.typeName}")

def elemAt (xs : List Value) (i : Nat) : Run W Value :=
  match xs[i]? with
  | some v => pure v
  | none => raise (.type s!"index {i} out of bounds (len {xs.length})")

def evalIndex (base index : Expr) : Run W Value := do
  let base ← ev.expr base
  let idx ← ev.expr index
  let i ← indexOf idx
  match base with
  | .array xs => elemAt xs i
  | .vec addr => do
    let (_, xs) ← vecAt addr
    elemAt xs i
  | other => raise (.type s!"cannot index {other.typeName}")

def evalTrust (tag crib : Expr) : Run W Value := do
  let tagVal ← ev.expr tag
  let id ← evalCrib ev crib
  match tagVal with
  | .tag _ slot _ => do
    let s ← get
    match s.store.arenas[id]?.bind (·.resolveUnchecked slot) with
    | some v => return v
    | none => raise (.type "`trust` on an out-of-range tag")
  | other => raise (.type s!"`trust` needs a tag, got {other.typeName}")

def evalCast (e : Expr) (ty : Typ) : Run W Value := do
  let v ← ev.expr e
  raised (cast pr v ty)

def evalUnary (op : Ast.UnOp) (operand : Expr) : Run W Value := do
  let v ← ev.expr operand
  raised (unaryOp pr op v)

def evalCallOne (e : Expr) : Run W Value := do
  let vals ← evalCallExpr pr tb ev e
  exactlyOne vals

def evalArray (elems : List Expr) : Run W Value := do
  let xs ← evalExprs ev elems
  return .array xs

def evalExprInner (e : Expr) : Run W Value :=
  match e with
  | .int i => pure (.word (.ofInt 64 i))
  | .float f => pure (.float f)
  | .str s => pure (.str s)
  | .byte b => pure (.byte b)
  | .bool b => pure (.bool b)
  | .ghosted => pure .ghosted
  | .name name => evalName tb name
  | .field base name => evalField ev base name
  | .index base index => evalIndex ev base index
  | .call .. | .method .. => evalCallOne pr tb ev e
  | .unary op operand => evalUnary pr ev op operand
  | .binary op lhs rhs => evalBinary pr ev op lhs rhs
  | .cast e ty => evalCast pr ev e ty
  | .struct lit => evalStructLit tb ev lit
  | .array elems => evalArray ev elems
  | .cop init crib => evalCop tb ev init crib
  | .trust tag crib => evalTrust ev tag crib

def evalExpr (e : Expr) : Run W Value := deeper (evalExprInner pr tb ev e)

end BetLang.Eval
