import BetLang.Ir
import BetLang.Registry

/-! Calls as the interpreter resolves them, by (type, name), and as lowering resolves them, by
bare name. Everything of a body that is no call is a value of some type. -/

namespace BetLang.Dispatch

open Ir (IntWidth)
open Registry

/-- Surface types. Parameter, result and type argument lists are tuples that end in `nada`. -/
inductive Typ where
  | named (name : String)
  | inst (name : String) (args : Typ)
  | vec (elem : Typ)
  | stash (key val : Typ)
  | slice (elem : Typ)
  | array (elem : Typ) (n : Nat)
  | tag (elem : Typ)
  | crib (elem : Typ)
  | soa (inner : Typ)
  | finna (params ret : Typ)
  | rawptr
  | nada
  | tuple (a b : Typ)

/-- Lowered types. -/
inductive Ty where
  | bool | f32 | f64 | str | void | rawPtr | rng | yikes
  | int (width : IntWidth) (signed : Bool)
  | simd (elem : Ty) (lanes : Nat)
  | struct (name : String)
  | inst (name : String) (args : Ty)
  | sum (name : String)
  | ref (t : Ty)
  | slice (t : Ty)
  | array (t : Ty) (n : Nat)
  | tag (t : Ty)
  | crib (t : Ty)
  | map (k v : Ty)
  | vec (t : Ty)
  | soa (t : Ty)
  | fnPtr (params rets : Ty)
  | tuple (a b : Ty)
  deriving DecidableEq, Repr

mutual
inductive Expr where
  | value (ty : Typ)
  | var (i : Nat)
  | call (name : String) (generics : List Typ) (args : Args)
  | method (receiver : Expr) (method : String) (args : Args)
inductive Args where
  | nil
  | cons (e : Expr) (rest : Args)
end

/-- A function or method; statement `k` of the body names its value `params + k`. -/
structure FnDecl where
  receiver : Option Typ
  name : String
  generics : List String
  params : List Typ
  ret : Typ
  body : List Expr

structure Drip where
  name : String
  generics : List String
  fields : List (String × Typ)

structure Extern where
  name : String
  params : List Typ
  ret : Typ

structure Program where
  drips : List Drip
  moods : List String
  externs : List Extern
  funcs : List FnDecl

/-- The drip or type name that a receiver's method is registered under. -/
def typeHead : Typ → String
  | .named name | .inst name _ => name
  | .vec _ => "vec"
  | .stash _ _ => "stash"
  | .slice inner | .tag inner | .crib inner | .soa inner => typeHead inner
  | .array elem _ => typeHead elem
  | .finna _ _ => "finna"
  | .rawptr => "rawptr"
  | .nada | .tuple _ _ => "nada"

def scalarType : String → Option Ty
  | "int" | "i64" => some (.int .w64 true)
  | "i8" => some (.int .w8 true)
  | "i16" => some (.int .w16 true)
  | "i32" => some (.int .w32 true)
  | "uint" | "u64" => some (.int .w64 false)
  | "u8" => some (.int .w8 false)
  | "u16" => some (.int .w16 false)
  | "u32" => some (.int .w32 false)
  | "bool" => some .bool
  | "float" | "f64" => some .f64
  | "f32" => some .f32
  | "str" => some .str
  | "void" | "nada" => some .void
  | "rawptr" => some .rawPtr
  | "rng" => some .rng
  | _ => none

def simdLanes (rest : List Char) : Option Nat :=
  let lanes := rest.foldl (fun n c => 10 * n + (c.toNat - 48)) 0
  if rest.all Char.isDigit ∧ 2 ≤ lanes ∧ lanes ≤ 4 then some lanes else none

def simdTypeName (name : String) : Option (String × Nat) :=
  match name with
  | "vec2" => some ("f32", 2)
  | "vec3" => some ("f32", 3)
  | "vec4" => some ("f32", 4)
  | _ =>
    let cs := name.toList.reverse
    let elem := String.ofList (cs.dropWhile (· ≠ 'x')).tail.reverse
    match simdLanes (cs.takeWhile (· ≠ 'x')).reverse with
    | none => none
    | some lanes =>
      if elem ∈ ["f32", "f64", "i8", "i16", "i32", "i64", "u8", "u16", "u32", "u64", "int", "uint"]
      then some (elem, lanes) else none

/-- The elements of a tuple that ends in `void`. -/
def Ty.list : Ty → List Ty
  | .tuple a b => a :: b.list
  | _ => []

def Program.genericDrip (prog : Program) (name : String) : Option Drip :=
  prog.drips.reverse.find? fun d => d.name = name ∧ d.generics ≠ []

def Program.concreteDrip (prog : Program) (name : String) : Option Drip :=
  prog.drips.reverse.find? fun d => d.name = name ∧ d.generics = []

/-- `subst` is the active type-parameter substitution. -/
def namedType (prog : Program) (subst : List (String × Ty)) (name : String) : Option Ty :=
  match subst.lookup name with
  | some t => some t
  | none =>
    if name = "yikes" then some .yikes else
    match scalarType name with
    | some t => some t
    | none =>
      match simdTypeName name with
      | some (elem, lanes) =>
        ((subst.lookup elem).or (scalarType elem)).map (.simd · lanes)
      | none =>
        if prog.drips.any (fun d => d.name = name ∧ d.generics = []) then some (.struct name)
        else if name ∈ prog.moods then some (.sum name)
        else none

def mapType (prog : Program) (subst : List (String × Ty)) : Typ → Option Ty
  | .named name => namedType prog subst name
  | .inst name args => do
    let d ← prog.genericDrip name
    let args ← mapType prog subst args
    if d.generics.length = args.list.length then some (.inst name args) else none
  | .vec elem => (mapType prog subst elem).map .vec
  | .stash k v => do return .map (← mapType prog subst k) (← mapType prog subst v)
  | .slice elem => (mapType prog subst elem).map .slice
  | .array elem n => (mapType prog subst elem).map (.array · n)
  | .tag elem => (mapType prog subst elem).map .tag
  | .crib elem => (mapType prog subst elem).map .crib
  | .soa inner => (mapType prog subst inner).map .soa
  | .finna params ret => do return .fnPtr (← mapType prog subst params) (← mapType prog subst ret)
  | .rawptr => some .rawPtr
  | .nada => some .void
  | .tuple a b => do return .tuple (← mapType prog subst a) (← mapType prog subst b)

/-- The parameter types, receiver first, and the result type. -/
structure Sig where
  params : List Ty
  rets : Ty
  deriving DecidableEq, Repr

def declSig (prog : Program) (f : FnDecl) (args : List Ty) : Option Sig := do
  let subst := f.generics.zip args
  let params ← (f.receiver.toList ++ f.params).mapM (mapType prog subst)
  return ⟨params, ← mapType prog subst f.ret⟩

def FnDecl.concrete (f : FnDecl) : Bool := f.generics.isEmpty

/-- The method names that each builtin receiver type answers to. -/
def builtinNames : Ty → List String
  | .map _ _ => ["put", "peep", "yeet", "gang"]
  | .soa (.vec _) => ["stack", "gang"]
  | .vec _ => ["stack", "pop", "gang", "append", "str", "vibeCheck", "glowUp"]
  | .array _ _ => ["gang", "vibeCheck", "glowUp"]
  | .rng => ["roll", "frac", "upTo"]
  | .simd _ _ => ["min", "max", "abs", "dot", "sum", "scale", "length", "norm"]
  | .yikes => ["tea"]
  | _ => []

def filterRet (elem : Ty) : Ty → Option Ty
  | .fnPtr p r => if p = elem ∧ r = .bool then some (.vec elem) else none
  | _ => none

def mapRet (elem : Ty) : Ty → Option Ty
  | .fnPtr p r => if p = elem ∧ r ≠ .void then some (.vec r) else none
  | _ => none

/-- The result type of a builtin method, when the arguments fit. -/
def builtinRet : Ty → String → List Ty → Option Ty
  | .map _ _, "put", [_, _] => some .void
  | .map _ v, "peep", [_] => some (.tuple v .bool)
  | .map _ _, "yeet", [_] => some .bool
  | .map _ _, "gang", [] => some (.int .w64 false)
  | .soa (.vec _), "stack", [_] => some .void
  | .soa (.vec _), "gang", [] => some (.int .w64 false)
  | .vec _, "stack", [_] => some .void
  | .vec e, "pop", [] => some e
  | .vec _, "gang", [] => some (.int .w64 false)
  | .vec (.int .w8 false), "append", [_] => some .void
  | .vec (.int .w8 false), "str", [] => some .str
  | .vec e, "vibeCheck", [f] => filterRet e f
  | .vec e, "glowUp", [f] => mapRet e f
  | .array _ _, "gang", [] => some (.int .w64 false)
  | .array e _, "vibeCheck", [f] => filterRet e f
  | .array e _, "glowUp", [f] => mapRet e f
  | .rng, "roll", [] => some (.int .w64 true)
  | .rng, "frac", [] => some .f64
  | .rng, "upTo", [_] => some (.int .w64 true)
  | .simd e n, "min", [_] => some (.simd e n)
  | .simd e n, "max", [_] => some (.simd e n)
  | .simd e n, "abs", [] => some (.simd e n)
  | .simd e _, "dot", [_] => some e
  | .simd e _, "sum", [] => some e
  | .simd e n, "scale", [_] => some (.simd e n)
  | .simd e _, "length", [] => some e
  | .simd e n, "norm", [] => some (.simd e n)
  | .yikes, "tea", [_] => some .yikes
  | _, _, _ => none

/-- The drip a receiver holds, through a direct reference too. -/
def dripOf (prog : Program) : Ty → Option (Drip × List (String × Ty))
  | .struct name | .ref (.struct name) => (prog.concreteDrip name).map (·, [])
  | .inst name args | .ref (.inst name args) =>
    (prog.genericDrip name).map fun d => (d, d.generics.zip args.list)
  | _ => none

/-- The result type of the function-pointer field `field` of the drip a receiver holds. -/
def fnFieldRet (prog : Program) (t : Ty) (field : String) : Option Ty := do
  let (d, subst) ← dripOf prog t
  let ty ← d.fields.lookup field
  match ← mapType prog subst ty with
  | .fnPtr _ rets => some rets
  | _ => none

/-! The interpreter's tables and lookups. -/

namespace Interp

def funcKey (f : FnDecl) : Option String :=
  match f.receiver with
  | none => some f.name
  | some _ => none

def methodKey (f : FnDecl) : Option (String × String) :=
  f.receiver.map fun r => (typeHead r, f.name)

/-- `register_fn` over every item: free functions by name. -/
def funcs (prog : Program) : List (String × Nat) := insertAll funcKey prog.funcs

/-- `register_fn` over every item: methods by (type, name). -/
def methods (prog : Program) : List ((String × String) × Nat) := insertAll methodKey prog.funcs

/-- Methods on a type that is no drip, by that type. -/
def typedMethods (prog : Program) : List ((Ty × String) × Nat) :=
  insertAll (fun f => do
    let t ← mapType prog [] (← f.receiver)
    return (t, f.name)) prog.funcs

def methodFor (prog : Program) (t : Ty) (method : String) : Option Nat :=
  match dripOf prog t with
  | some (d, _) => (methods prog).lookup (d.name, method)
  | none => (typedMethods prog).lookup (t, method)

/-- What a call means: a declaration at concrete type arguments, or no function of the program. -/
inductive Target where
  | fn (decl : Nat) (args : List Ty)
  | builtin (method : String)
  | field (name : String)
  | extern_ (name : String)
  deriving DecidableEq, Repr

inductive Form where
  | free | generic | method
  deriving DecidableEq, Repr

structure Site where
  form : Form
  name : String
  target : Target
  deriving DecidableEq, Repr

/-- The result type of a declaration at its type arguments. -/
def retType (prog : Program) (decl : Nat) (args : List Ty) : Option Ty := do
  let f ← prog.funcs[decl]?
  mapType prog (f.generics.zip args) f.ret

/-- `call_method`: a builtin of the receiver's type, its own method, or a function field. -/
def callMethod (prog : Program) (t : Ty) (method : String) (args : List Ty) :
    Option (Ty × Target) :=
  if method ∈ builtinNames t then
    (builtinRet t method args).map (·, .builtin method)
  else
    match methodFor prog t method with
    | some d => (retType prog d []).map (·, .fn d [])
    | none => (fnFieldRet prog t method).map (·, .field method)

/-- `eval_plain_call`: type arguments play no part in the choice. -/
def plainCall (prog : Program) (name : String) (args : List Ty) : Option (Ty × Target) :=
  match (funcs prog).lookup name with
  | some d => (retType prog d args).map (·, .fn d args)
  | none => do
    let e ← prog.externs.reverse.find? (·.name = name)
    return (← mapType prog [] e.ret, .extern_ name)

mutual
/-- The type of an expression and its calls, in evaluation order. -/
def evalExpr (prog : Program) (subst : List (String × Ty)) (env : List Ty) :
    Expr → Option (Ty × List Site)
  | .value ty => (mapType prog subst ty).map (·, [])
  | .var i => env[i]?.map (·, [])
  | .call name generics args => do
    let targs ← generics.mapM (mapType prog subst)
    let (_, sites) ← evalArgs prog subst env args
    let (t, target) ← plainCall prog name targs
    return (t, sites ++ [⟨if generics.isEmpty then .free else .generic, name, target⟩])
  | .method receiver method args => do
    let (r, sites) ← evalExpr prog subst env receiver
    let (ts, argSites) ← evalArgs prog subst env args
    let (t, target) ← callMethod prog r method ts
    return (t, sites ++ argSites ++ [⟨.method, method, target⟩])
def evalArgs (prog : Program) (subst : List (String × Ty)) (env : List Ty) :
    Args → Option (List Ty × List Site)
  | .nil => some ([], [])
  | .cons e rest => do
    let (t, sites) ← evalExpr prog subst env e
    let (ts, restSites) ← evalArgs prog subst env rest
    return (t :: ts, sites ++ restSites)
end

def evalBlock (prog : Program) (subst : List (String × Ty)) :
    List Ty → List Expr → Option (List Site)
  | _, [] => some []
  | env, e :: rest => do
    let (t, sites) ← evalExpr prog subst env e
    return sites ++ (← evalBlock prog subst (env ++ [t]) rest)

/-- The calls of a declaration's body at concrete type arguments, under its own signature. -/
def callFn (prog : Program) (decl : Nat) (args : List Ty) : Option (List Site) := do
  let f ← prog.funcs[decl]?
  let sig ← declSig prog f args
  evalBlock prog (f.generics.zip args) sig.params f.body

end Interp

end BetLang.Dispatch
