import BetLang.EvalStmt

/-! Constructors and `vibe` in lowering: which variant of which moods a use names, and the switch
that an arm is a case of. -/

namespace BetLang.Vibe

open Registry
open Ir (Ty SumDef Variant Proj)
open Collect (Typ MoodsDecl)
open Eval (Arg Block MatchArm)

def variantIndex (d : SumDef) (name : String) : Option Nat := d.variants.findIdx? (·.name == name)

/-- Steps 1a and 1b of `collect`, for the moods. -/
def sumIds (moods : List MoodsDecl) : List (String × Nat) := insertAll (fun m => some m.name) moods

def mapMoods (mapType : Typ → Except String Ty) (m : MoodsDecl) : Except String SumDef := do
  let variants ← m.variants.mapM fun v => do
    return { name := v.name, payload := ← v.payload.mapM mapType }
  return { name := m.name, variants := variants }

/-- What lowering knows of the declarations. `order` is the map of the moods' names in the order in
which its entries come. -/
structure Decls where
  defs : List SumDef
  order : List (String × Nat)
  funcs : String → Bool
  externs : String → Bool

/-- What a use with the name of a variant is resolved to. -/
inductive Resolved where
  | variant (sum index : Nat)
  | func
  | extern_

/-- A use of a name for a value: alone, called, or after `cop`. -/
inductive Use where
  | bare (name : String)
  | call (name : String) (args : List Arg)
  | cop (name : String) (args : List Arg)

def Use.name : Use → String
  | bare name | call name _ | cop name _ => name

def Use.args : Use → List Arg
  | bare _ => []
  | call _ args | cop _ args => args

def Use.isCall : Use → Bool
  | call _ _ => true
  | _ => false

namespace Decls

variable (l : Decls)

def variantsOf (sid : Nat) : List Variant := ((l.defs[sid]?).map SumDef.variants).getD []

/-- What step 1c enters under a variant name for one moods. -/
def candidatesIn (name : String) (sid : Nat) : List (Nat × Nat) :=
  ((l.variantsOf sid).zipIdx.filter (·.1.name == name)).map fun x => (sid, x.2)

/-- Step 1c: the moods that have a variant of the name. -/
def candidates (name : String) : List (Nat × Nat) :=
  l.order.flatMap fun x => l.candidatesIn name x.2

def fields (sid variant : Nat) : Nat :=
  (((l.variantsOf sid)[variant]?).map fun v => v.payload.length).getD 0

def resolveVariant (name : String) (hint : Option Ty) : Except String (Nat × Nat) :=
  match l.candidates name with
  | [] => .error s!"unknown variant `{name}`"
  | c :: cs =>
    let hinted := match hint with
      | some (.sum sid) => (c :: cs).find? (·.1 == sid)
      | _ => none
    match hinted, cs with
    | some (s, v), _ => .ok (s, v)
    | none, [] => .ok c
    | none, _ => .error s!"ambiguous variant `{name}` — annotate the expected sum type"

/-- A name that is no variable and no module crib or constant. -/
def lowerBare (name : String) (hint : Option Ty) : Except String Resolved :=
  if l.candidates name ≠ [] then do
    let (sid, variant) ← l.resolveVariant name hint
    if l.fields sid variant = 0 then return .variant sid variant
    else throw s!"variant `{name}` takes {l.fields sid variant} field(s); use `{name}(..)`"
  else if l.funcs name then .ok .func
  else .error s!"unresolved name `{name}`"

/-- A call of a name that is no variable and no SIMD type. -/
def lowerCall (name : String) (args : List Arg) (hint : Option Ty) : Except String Resolved :=
  if l.candidates name ≠ [] ∧ l.funcs name = false then do
    let (sid, variant) ← l.resolveVariant name hint
    if args.length = l.fields sid variant then return .variant sid variant
    else throw (s!"variant `{name}` takes {l.fields sid variant} field(s), " ++
      s!"got {args.length}")
  else if l.funcs name then .ok .func
  else if l.externs name then .ok .extern_
  else .error s!"call to unknown function `{name}`"

/-- The element of the crib says which moods it is. -/
def lowerCop (name : String) (args : List Arg) (elem : Option Ty) : Except String Resolved :=
  match elem with
  | some (.sum sid) =>
    match l.defs[sid]? with
    | none => .error "bad sum"
    | some d =>
      match variantIndex d name with
      | none => .error s!"sum `{d.name}` has no variant `{name}`"
      | some variant =>
        if args.length = l.fields sid variant then .ok (.variant sid variant)
        else .error s!"`cop` variant `{name}` has the wrong arity"
  | _ => .error "`cop` of a variant into a non-sum crib"

def lowerUse (hint : Option Ty) : Use → Except String Resolved
  | .bare name => l.lowerBare name hint
  | .call name args => l.lowerCall name args hint
  | .cop name args => l.lowerCop name args hint

end Decls

/-- The block of an arm: what it binds, by projections of the scrutinee, and its body. -/
structure ArmBlock where
  binds : List (String × List Proj)
  body : Block

/-- The switch with the numbers of its blocks; without a `naw` the default is unreachable. -/
structure Emitted where
  cases : List (Nat × Nat)
  blocks : List ArmBlock
  default : Option Block

def bindingPlaces (variant : Nat) (bindings : List String) : List (String × List Proj) :=
  bindings.zipIdx.map fun (x, j) => (x, [.downcast variant, .field j])

def lowerArm (d : SumDef) : MatchArm → Except String (Nat × ArmBlock)
  | .mk name bindings body =>
    match variantIndex d name with
    | none => .error s!"sum `{d.name}` has no variant `{name}`"
    | some variant =>
      let fields := (((d.variants)[variant]?).map fun v => v.payload.length).getD 0
      if bindings.length = fields then .ok (variant, ⟨bindingPlaces variant bindings, body⟩)
      else .error (s!"`vibe` arm `{name}` binds {bindings.length} field(s) " ++
        s!"but the variant has {fields}")

/-- The blocks of the arms are numbered as they come. -/
def lowerVibe (d : SumDef) (arms : List MatchArm) (default : Option Block) :
    Except String Emitted := do
  let lowered ← arms.mapM (lowerArm d)
  return { cases := (lowered.map Prod.fst).zipIdx, blocks := lowered.map Prod.snd
           default := default }

/-- The arm that runs, with the values it binds, the `naw` block, or no block at all. -/
inductive Taken (V : Type) where
  | arm (number : Nat) (bound : List (String × V))
  | naw
  | stuck

section

variable {V : Type}

/-- A field behind a downcast to the variant that the value is of. -/
def readProj (tag : Nat) (payload : List V) : List Proj → Option V
  | [.downcast variant, .field j] => if variant = tag then payload[j]? else none
  | _ => none

def ArmBlock.bound (tag : Nat) (payload : List V) (b : ArmBlock) : Option (List (String × V)) :=
  b.binds.mapM fun (x, proj) => (x, ·) <$> readProj tag payload proj

def takeBlock (blocks : List ArmBlock) (default : Option Block) (tag : Nat) (payload : List V) :
    Option Nat → Option (Taken V)
  | some k => do
    let b ← blocks[k]?
    return .arm k (← b.bound tag payload)
  | none => if default.isSome then some .naw else some .stuck

/-- The run of the switch on a value: a case that comes twice is taken where it comes first. -/
def Emitted.take (em : Emitted) (tag : Nat) (payload : List V) : Option (Taken V) :=
  takeBlock em.blocks em.default tag payload (em.cases.lookup tag)

/-- The same block behind one more arm. -/
def Taken.later : Taken V → Taken V
  | .arm k bound => .arm (k + 1) bound
  | t => t

/-- The first arm that names the variant, else the `naw` block. -/
def firstArm (arms : List MatchArm) (default : Option Block) (name : String) (payload : List V) :
    Taken V :=
  match arms with
  | [] => if default.isSome then .naw else .stuck
  | .mk variant bindings _ :: rest =>
    if variant = name then .arm 0 (bindings.zip payload)
    else (firstArm rest default name payload).later

end

end BetLang.Vibe
