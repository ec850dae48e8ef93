import BetLang.EvalExpr
import BetLang.Ir
import BetLang.OrderedCalls

/-! The zero value of a type, twice: `zero_default` of the interpreter and `zero_value` of
lowering. -/

namespace BetLang.Zero

open OrderedCalls
open Collect (Typ DripDecl FieldDecl)
open Eval (Halt insertField valueCells maxAllocElems zeroScalar)
open Interp (Value RunError)
open Ir (Ty StructDef Const AggKind)

/-- The drips of the program by name. -/
abbrev Drips := List (String × DripDecl)

/-- The type parameters of the drip around; a later insertion stands first. -/
abbrev Subst := List (String × Typ)

def bindParams (decl : DripDecl) (args : List Typ) : Subst := (decl.generics.zip args).reverse

def zeroFields (zero : Typ → Fueled Halt Value) (acc : List (String × Value)) :
    List FieldDecl → Fueled Halt (List (String × Value))
  | [] => some (.ok acc)
  | fd :: rest => andThen (zero fd.ty) fun v => zeroFields zero (insertField acc fd.name v) rest

/-- `n` copies of a zero, if there is room for them. -/
def zeroArray (n : Nat) (z : Value) : Except Halt Value :=
  if n * valueCells z > maxAllocElems then .error (.allocLimit (n * valueCells z))
  else .ok (.array (List.replicate n z))

def noZero (name : String) : Halt := .raise (.type s!"`{name}` has no zero value")

def zeroDefault (drips : Drips) : Nat → Typ → Subst → Fueled Halt Value
  | 0, _, _ => none
  | fuel + 1, .named name args, subst =>
    match subst.lookup name with
    | some sub => zeroDefault drips fuel sub []
    | none =>
      match zeroScalar name with
      | some v => some (.ok v)
      | none =>
        match drips.lookup name with
        | none => some (.error (noZero name))
        | some decl =>
          andThen (zeroFields (fun ty => zeroDefault drips fuel ty (bindParams decl args)) []
            decl.fields) fun fields => some (.ok (.struct name fields))
  | _ + 1, .slice _, _ => some (.ok (.array []))
  | fuel + 1, .array elem n, subst =>
    andThen (zeroDefault drips fuel elem subst) fun z => some (zeroArray n z)
  | _ + 1, .tag _, _ | _ + 1, .crib _, _ | _ + 1, .fn _ _, _ => some (.ok .ghosted)
  | fuel + 1, .soa inner, subst => zeroDefault drips fuel inner subst
  | _ + 1, .rawPtr, _ => some (.ok (.word 0))

/-- The operand of a zero, with the temporaries that are made for it. -/
inductive ZeroOperand where
  | const (c : Const)
  | emptySlice (elem : Ty)
  | aggregate (kind : AggKind) (ops : List ZeroOperand)

def zeroOps (zero : Ty → Fueled String ZeroOperand) : List Ty → Fueled String (List ZeroOperand)
  | [] => some (.ok [])
  | ty :: rest => andThen (zero ty) fun op => andThen (zeroOps zero rest) fun ops =>
    some (.ok (op :: ops))

def zeroValue (structs : List StructDef) : Nat → Ty → Fueled String ZeroOperand
  | 0, _ => none
  | fuel + 1, ty =>
    match ty with
    | .int _ _ => some (.ok (.const (.int 0 ty)))
    | .f32 | .f64 => some (.ok (.const (.float 0 ty)))
    | .bool => some (.ok (.const (.bool false)))
    | .str => some (.ok (.const (.str "")))
    | .tag _ => some (.ok (.const .ghosted))
    | .fnPtr _ _ | .map _ _ | .vec _ | .rng | .rawPtr | .crib _ => some (.ok (.const .nullPtr))
    | .slice elem => some (.ok (.emptySlice elem))
    | .struct sid =>
      match structs[sid]? with
      | none => some (.error "bad struct")
      | some d =>
        andThen (zeroOps (zeroValue structs fuel) (d.fields.map (·.ty))) fun ops =>
          some (.ok (.aggregate (.struct sid) ops))
    | .array elem n =>
      andThen (zeroValue structs fuel elem) fun z =>
        some (.ok (.aggregate (.array elem) (List.replicate n z)))
    | .simd elem lanes =>
      andThen (zeroValue structs fuel elem) fun z =>
        some (.ok (.aggregate (.simd elem) (List.replicate lanes z)))
    | _ => some (.error "no zero value; initialize it explicitly")

end BetLang.Zero
