import BetLang.Dispatch
import BetLang.Stateful
import BetLang.TyEq

/-! Lowering's collection pass: the ids of the aggregates by appearance, then their field types,
which may intern further structs. -/

namespace BetLang.Collect

open Ir Registry Stateful

inductive Typ where
  | slice (elem : Typ)
  | array (elem : Typ) (n : Nat)
  | tag (elem : Typ)
  | crib (elem : Typ)
  | soa (inner : Typ)
  | fn (params : List Typ) (ret : Typ)
  | rawPtr
  | named (name : String) (generics : List Typ)

structure FieldDecl where
  vis : Option Vis
  name : String
  ty : Typ

structure DripDecl where
  name : String
  generics : List String
  fields : List FieldDecl

structure VariantDecl where
  name : String
  payload : List Typ

structure MoodsDecl where
  name : String
  variants : List VariantDecl

inductive RetType where
  | none
  | single (t : Typ)
  | multi (ts : List Typ)

structure ExternDecl where
  abi : String
  name : String
  params : List Typ
  ret : RetType

/-- A function without its body. -/
structure FnDecl where
  receiver : Option Typ
  name : String
  generics : List String
  params : List Typ
  ret : RetType

/-- The form of a `facts` initializer; negated number literals are literals. -/
inductive ConstForm where
  | literal
  | negation
  | expr

structure ConstDecl where
  name : String
  ty : Option Typ
  form : ConstForm

/-- The items that the pass reads. -/
inductive Item where
  | func (f : FnDecl)
  | drip (d : DripDecl)
  | moods (m : MoodsDecl)
  | const (c : ConstDecl)
  | extern_ (e : ExternDecl)
  | other

structure FuncSig where
  id : Nat
  sig : Sig
  hasReceiver : Bool
  ok : Bool

/-- A message of the compiler, or the end of its process: an index out of range, or the stack. -/
inductive Fail where
  | message (s : String)
  | abort

structure Ctx where
  structs : List (String × Nat)
  sums : List (String × Nat)
  genericStructs : List (String × DripDecl)
  monoStructs : List ((String × List Ty) × Nat)
  subst : List (String × Ty)
  yikesSid : Option Nat
  structDefs : List StructDef
  sumDefs : List SumDef
  externDefs : List Extern
  externs : List (String × (Nat × Sig))
  funcs : List (String × FuncSig)
  genericFuncs : List (String × FnDecl)
  nextMonoFid : Nat
  /-- The types of the `facts` constants that have one. -/
  globals : List (String × Option Ty)
  /-- The number of an interned type. -/
  tyNumber : Ty → Nat

abbrev M := Comp Ctx Fail

def message {α : Type} (s : String) : M α := fail (.message s)

def addStruct (d : StructDef) : M Nat := do
  let c ← get
  modify fun c => { c with structDefs := c.structDefs ++ [d] }
  return c.structDefs.length

def addSum (d : SumDef) : M Unit :=
  modify fun c => { c with sumDefs := c.sumDefs ++ [d] }

def structDef (sid : Nat) : M StructDef := do
  let c ← get
  match c.structDefs[sid]? with
  | some d => return d
  | none => fail .abort

def sumDef (sid : Nat) : M SumDef := do
  let c ← get
  match c.sumDefs[sid]? with
  | some d => return d
  | none => fail .abort

def yikesDef : StructDef :=
  { name := "__yikes"
    fields :=
      [{ name := "present", ty := .bool, vis := .hush }, { name := "msg", ty := .str, vis := .hush }] }

/-- The struct of the error type, created by its first use. -/
def yikesStruct : M Nat := do
  let c ← get
  match c.yikesSid with
  | some sid => return sid
  | none =>
    let sid ← addStruct yikesDef
    modify fun c => { c with yikesSid := some sid }
    return sid

def scalarKind : String → Option Ty
  | "int" | "i64" => some (.int .w64 true)
  | "i8" => some (.int .w8 true)
  | "i16" => some (.int .w16 true)
  | "i32" => some (.int .w32 true)
  | "uint" | "u64" => some (.int .w64 false)
  | "u8" => some (.int .w8 false)
  | "u16" => some (.int .w16 false)
  | "u32" => some (.int .w32 false)
  | "bool" => some .bool
  | "float" | "f64" => some .f64
  | "f32" => some .f32
  | "str" => some .str
  | "void" | "nada" => some .void
  | "rawptr" => some .rawPtr
  | "rng" => some .rng
  | _ => none

/-- The element of a SIMD type is the name of a scalar, or of a type parameter. -/
def simdElem (c : Ctx) (elem : String) : Option Ty :=
  (c.subst.lookup elem).or (scalarKind elem)

/-- A name that is neither a type parameter nor `yikes`. -/
def plainNamed (c : Ctx) (name : String) : Option Ty :=
  match scalarKind name with
  | some t => some t
  | none =>
    match Dispatch.simdTypeName name with
    | some (elem, lanes) => (simdElem c elem).map (.simd · lanes)
    | none => ((c.structs.lookup name).map .struct).or ((c.sums.lookup name).map .sum)

def namedType (name : String) : M Ty := do
  let c ← get
  match c.subst.lookup name with
  | some t => return t
  | none =>
    if name = "yikes" then return .struct (← yikesStruct)
    else
      match plainNamed c name with
      | some t => return t
      | none => message s!"unknown type `{name}`"

def mangleTy : Ty → M String
  | .bool => return "bool"
  | .int width signed => return (if signed then "i" else "u") ++ toString width.bits
  | .f32 => return "f32"
  | .f64 => return "f64"
  | .str => return "str"
  | .void => return "void"
  | .rawPtr => return "rawptr"
  | .struct sid => return (← structDef sid).name
  | .sum sid => return (← sumDef sid).name
  | .slice e => return "slice_" ++ (← mangleTy e)
  | .array e n => return "arr" ++ toString n ++ "_" ++ (← mangleTy e)
  | .tag e => return "tag_" ++ (← mangleTy e)
  | .crib e => return "crib_" ++ (← mangleTy e)
  | .ref e => return "ref_" ++ (← mangleTy e)
  | t => return "t" ++ toString ((← get).tyNumber t)

def mangle (base : String) (args : List Ty) : M String := do
  let parts ← args.mapM mangleTy
  return base ++ "$" ++ "$".intercalate parts

def soaElem : Ty → Option Ty
  | .array e _ | .slice e | .vec e => some e
  | _ => none

def isSoa : Ty → Bool
  | .soa _ => true
  | _ => false

/-- The container of `soa` holds drips, and those no `soa` field. -/
def checkSoa (inner : Ty) : M Unit :=
  match soaElem inner with
  | none => message ("nah — soa only wraps a container of a drip: " ++
      "`soa Enemy[N]`, `soa []Enemy`, or `soa vec[Enemy]`.")
  | some (.struct sid) => do
    let d ← structDef sid
    match d.fields.find? fun f => isSoa f.ty with
    | some f =>
      message s!"no soa inside soa, fam — drip `{d.name}` has a nested soa field `{f.name}`."
    | none => return ()
  | some _ => message
      "soa only vibes with a drip (struct) element — that container's element ain't a drip."

def fieldVis : Option Vis → Vis
  | some .flex => .flex
  | _ => .hush

def mapField (mapType : Typ → M Ty) (f : FieldDecl) : M Field := do
  return { name := f.name, ty := ← mapType f.ty, vis := fieldVis f.vis }

/-- The fields of a generic drip under the substitution of its arguments, which then ends. -/
def monoFields (mapType : Typ → M Ty) (decl : DripDecl) (argTys : List Ty) : M (List Field) := do
  let c ← get
  modify fun c => { c with subst := (decl.generics.zip argTys).reverse }
  let fields ← attempt (decl.fields.mapM (mapField mapType))
  modify fun c' => { c' with subst := c.subst }
  ofExcept fields

/-- A new instance of a generic drip. -/
def instantiate (mapType : Typ → M Ty) (name : String) (decl : DripDecl) (argTys : List Ty) :
    M Nat := do
  let mangled ← mangle name argTys
  let fields ← monoFields mapType decl argTys
  let sid ← addStruct { name := mangled, fields := fields }
  modify fun c => { c with monoStructs := ((name, argTys), sid) :: c.monoStructs }
  return sid

/-- The instance of a generic drip, created by its first use. -/
def monoStruct (mapType : Typ → M Ty) (name : String) (args : List Typ) : M Nat := do
  let argTys ← args.mapM mapType
  let c ← get
  match c.monoStructs.lookup (name, argTys), c.genericStructs.lookup name with
  | some sid, _ => return sid
  | none, none => message s!"unknown generic struct `{name}`"
  | none, some decl =>
    if decl.generics.length = argTys.length then instantiate mapType name decl argTys
    else message (s!"generic struct `{name}` expects {decl.generics.length} type arg(s), " ++
      s!"got {argTys.length}")

/-- A hash map handle. -/
def stashType (mapType : Typ → M Ty) : List Typ → M Ty
  | [k, v] => do return .map (← mapType k) (← mapType v)
  | _ => message "`stash` takes two type arguments `[K, V]`"

/-- A growable-array handle. -/
def vecType (mapType : Typ → M Ty) : List Typ → M Ty
  | [e] => do return .vec (← mapType e)
  | _ => message "`vec` takes one type argument `[T]`"

/-- A `finna` type that returns nothing. -/
def Typ.isVoid : Typ → Bool
  | .named name _ => name = "void" || name = "nada"
  | _ => false

def mapType : Nat → Typ → M Ty
  | 0, _ => fail .abort
  | fuel + 1, .slice e => return .slice (← mapType fuel e)
  | fuel + 1, .array e n => return .array (← mapType fuel e) n
  | fuel + 1, .tag e => return .tag (← mapType fuel e)
  | fuel + 1, .crib e => return .crib (← mapType fuel e)
  | fuel + 1, .soa inner => do
    let inner ← mapType fuel inner
    checkSoa inner
    return .soa inner
  | _ + 1, .rawPtr => return .rawPtr
  | fuel + 1, .fn params ret => do
    let params ← params.mapM (mapType fuel)
    if ret.isVoid then return .fnPtr params []
    else return .fnPtr params [← mapType fuel ret]
  | fuel + 1, .named name generics =>
    if generics.isEmpty then namedType name
    else if name = "stash" then stashType (mapType fuel) generics
    else if name = "vec" then vecType (mapType fuel) generics
    else do return .struct (← monoStruct (mapType fuel) name generics)

def retTypes (fuel : Nat) : RetType → M (List Ty)
  | .none => return []
  | .single t => return [← mapType fuel t]
  | .multi ts => ts.mapM (mapType fuel)

/-- A drip that gets an id by appearance. -/
def Item.concrete : Item → Option DripDecl
  | .drip d => if d.generics.isEmpty then some d else none
  | _ => none

def Item.generic : Item → Option DripDecl
  | .drip d => if d.generics.isEmpty then none else some d
  | _ => none

def Item.asMoods : Item → Option MoodsDecl
  | .moods m => some m
  | _ => none

def concreteDrips (items : List Item) : List DripDecl :=
  items.filterMap Item.concrete

/-- Step 1a: ids by appearance. -/
def assignIds (items : List Item) : M Unit :=
  modify fun c =>
    { c with
      structs := insertAll (fun d => some d.name) (concreteDrips items)
      sums := insertAll (fun m => some m.name) (items.filterMap Item.asMoods)
      genericStructs := ((items.filterMap Item.generic).map fun d => (d.name, d)).reverse }

def mapVariants (fuel : Nat) (vs : List VariantDecl) : M (List Variant) :=
  vs.mapM fun v => do return { name := v.name, payload := ← v.payload.mapM (mapType fuel) }

/-- Step 1b: the definition of an aggregate. -/
def collectItem (fuel : Nat) : Item → M Unit
  | .drip d =>
    if d.generics.isEmpty then do
      let fields ← d.fields.mapM (mapField (mapType fuel))
      let _ ← addStruct { name := d.name, fields := fields }
    else return ()
  | .moods m => do
    let variants ← mapVariants fuel m.variants
    addSum { name := m.name, variants := variants }
  | _ => return ()

/-- Step 2: FFI imports. -/
def collectExtern (fuel : Nat) : Item → M Unit
  | .extern_ e => do
    let params ← e.params.mapM (mapType fuel)
    let rets ← retTypes fuel e.ret
    modify fun c =>
      { c with
        externDefs := c.externDefs ++
          [{ name := e.name, abi := e.abi, sig := { params := params, rets := rets } }]
        externs := (e.name, (c.externDefs.length, ⟨params, rets⟩)) :: c.externs }
  | _ => return ()

/-- A type of a signature; a message is no failure of the pass. -/
def sigType {α : Type} (x : M α) : M (Option α) := do
  match ← attempt x with
  | .ok a => return some a
  | .error (.message _) => return none
  | .error .abort => fail .abort

def collectFnSig (fuel : Nat) (f : FnDecl) (id : Nat) : M FuncSig := do
  let params ← (f.receiver.toList ++ f.params).mapM fun t => sigType (mapType fuel t)
  let rets ← sigType (retTypes fuel f.ret)
  return {
    id := id
    sig := { params := params.reduceOption, rets := rets.getD [] }
    hasReceiver := f.receiver.isSome
    ok := params.all Option.isSome && rets.isSome }

/-- Step 3: a signature for each concrete function, with the next id. -/
def collectFunc (fuel : Nat) : Item → M Unit
  | .func f =>
    if f.generics.isEmpty then do
      let c ← get
      let sig ← collectFnSig fuel f c.nextMonoFid
      modify fun c =>
        { c with funcs := (f.name, sig) :: c.funcs, nextMonoFid := c.nextMonoFid + 1 }
    else modify fun c => { c with genericFuncs := (f.name, f) :: c.genericFuncs }
  | _ => return ()

def constHint (fuel : Nat) : Option Typ → M (Option Ty)
  | some t => return some (← mapType fuel t)
  | none => return none

/-- Step 4: module-level constants. -/
def collectConst (fuel : Nat) : Item → M Unit
  | .const d => do
    let hint ← constHint fuel d.ty
    match d.form with
    | .literal => modify fun c => { c with globals := (d.name, hint) :: c.globals }
    | .negation => message "`facts` initializer must be a literal"
    | .expr => message "`facts` initializer must be a literal (constant folding is minimal)"
  | _ => return ()

def collectSignatures (fuel : Nat) (items : List Item) : M Unit := do
  items.forM (collectExtern fuel)
  items.forM (collectFunc fuel)
  items.forM (collectConst fuel)

def collect (fuel : Nat) (items : List Item) : M Unit := do
  assignIds items
  items.forM (collectItem fuel)
  collectSignatures fuel items

/-- The state that lowering starts in, up to the type table. -/
def Ctx.new (tyNumber : Ty → Nat) : Ctx where
  structs := []
  sums := []
  genericStructs := []
  monoStructs := []
  subst := []
  yikesSid := none
  structDefs := []
  sumDefs := []
  externDefs :=
    [{ name := "bet_print", abi := "C", sig := { params := [.rawPtr, .int .w64 false], rets := [] } }]
  externs := []
  funcs := []
  genericFuncs := []
  nextMonoFid := 0
  globals := []
  tyNumber := tyNumber

end BetLang.Collect
