import BetLang.Dispatch
import BetLang.Stateful

/-! Lowering's specialization of generics: an instance of a drip is recorded when its fields are
mapped, the instances of functions wait in a work-list. -/

namespace BetLang.Specialize

open Dispatch (Drip Ty Typ)
open Stateful

/-- What a body asks of specialization: the type of something in it, or a call with type arguments.
A type that is only tried may be wrong. -/
inductive Demand where
  | type (t : Typ)
  | tried (t : Typ)
  | call (name : String) (args : List Typ)

/-- A generic function: the types of its signature, and what its body asks for, in order. -/
structure GenericFn where
  name : String
  generics : List String
  sig : List Typ
  body : List Demand

/-- `roots` are the demands of everything that is not generic; `plain` is what a name stands for
that is no type parameter, `soaField` the `soa` field of a concrete drip. -/
structure Program where
  drips : List Drip
  fns : List GenericFn
  roots : List Demand
  plain : String → Option Ty
  soaField : String → Option String
  structName : Ty → String

def Program.genericDrip (prog : Program) (name : String) : Option Drip :=
  prog.drips.reverse.find? fun d => d.name = name

def Program.genericFn (prog : Program) (name : String) : Option GenericFn :=
  prog.fns.reverse.find? fun f => f.name = name

/-- A message of the compiler, or more instances than the fuel is for. -/
inductive Fail where
  | message (s : String)
  | unfinished

/-- An instance of a drip, with the names and types of its fields. -/
structure Instance where
  name : String
  args : Ty
  fields : List (String × Ty)

abbrev Job := String × List Ty

/-- `mono_structs`, and the work-list, whose jobs are the keys of `mono_funcs`; `erred` tells of
messages that were dropped. -/
structure State where
  structs : List Instance
  worklist : List Job
  erred : Bool

def State.start : State := ⟨[], [], false⟩

/-- The keys of `mono_structs`. -/
def State.keys (s : State) : List (String × Ty) := s.structs.map fun i => (i.name, i.args)

def State.push (s : State) (i : Instance) : State := { s with structs := s.structs ++ [i] }

@[simp] theorem push_keys (s : State) (i : Instance) :
    (s.push i).keys = s.keys ++ [(i.name, i.args)] := by
  rw [State.keys, State.push, List.map_append, State.keys]
  rfl

abbrev M := Comp State Fail

def message {α : Type} (s : String) : M α := fail (.message s)

/-- `build_subst`: of two parameters of one name the last counts. -/
def bindArgs {α : Type} (generics : List String) (args : List α) : List (String × α) :=
  (generics.zip args).reverse

def namedType (prog : Program) (subst : List (String × Ty)) (name : String) : M Ty :=
  match (subst.lookup name).or (prog.plain name) with
  | some t => return t
  | none => message s!"unknown type `{name}`"

def isSoa : Ty → Bool
  | .soa _ => true
  | _ => false

/-- The `soa` field of a struct. -/
def soaFieldOf (prog : Program) (s : State) : Ty → Option String
  | .struct name => prog.soaField name
  | .inst name args => do
    let i ← s.structs.find? fun i => i.name = name ∧ i.args = args
    let f ← i.fields.find? fun f => isSoa f.2
    return f.1
  | _ => none

def isStruct : Ty → Bool
  | .struct _ | .inst _ _ | .yikes => true
  | _ => false

def soaElem : Ty → Option Ty
  | .array e _ | .slice e | .vec e => some e
  | _ => none

/-- The container of `soa` holds drips, and those no `soa` field. -/
def checkSoa (prog : Program) (inner : Ty) : M Unit :=
  match soaElem inner with
  | none => message ("nah — soa only wraps a container of a drip: " ++
      "`soa Enemy[N]`, `soa []Enemy`, or `soa vec[Enemy]`.")
  | some e =>
    if isStruct e then do
      match soaFieldOf prog (← get) e with
      | some field => message (s!"no soa inside soa, fam — drip `{prog.structName e}` has a " ++
          s!"nested soa field `{field}`.")
      | none => return ()
    else message
      "soa only vibes with a drip (struct) element — that container's element ain't a drip."

/-- A result type that returns nothing. -/
def isVoid : Typ → Bool
  | .named name => name = "void" || name = "nada"
  | _ => false

/-- `map_type`, over what makes an instance of a drip. -/
def mapType (prog : Program) (mono : String → Ty → M Unit) (subst : List (String × Ty)) :
    Typ → M Ty
  | .named name => namedType prog subst name
  | .inst name args => do
    let args ← mapType prog mono subst args
    mono name args
    return .inst name args
  | .vec e => do return .vec (← mapType prog mono subst e)
  | .stash k v => do return .map (← mapType prog mono subst k) (← mapType prog mono subst v)
  | .slice e => do return .slice (← mapType prog mono subst e)
  | .array e n => do return .array (← mapType prog mono subst e) n
  | .tag e => do return .tag (← mapType prog mono subst e)
  | .crib e => do return .crib (← mapType prog mono subst e)
  | .soa inner => do
    let inner ← mapType prog mono subst inner
    checkSoa prog inner
    return .soa inner
  | .finna params ret => do
    let params ← mapType prog mono subst params
    if isVoid ret then return .fnPtr params .void
    else return .fnPtr params (.tuple (← mapType prog mono subst ret) .void)
  | .rawptr => return .rawPtr
  | .nada => return .void
  | .tuple a b => do return .tuple (← mapType prog mono subst a) (← mapType prog mono subst b)

def mapFields (prog : Program) (mono : String → Ty → M Unit) (d : Drip) (args : Ty) :
    M (List (String × Ty)) :=
  d.fields.mapM fun f => do
    return (f.1, ← mapType prog mono (bindArgs d.generics args.list) f.2)

def newInstance (prog : Program) (mono : String → Ty → M Unit) (name : String) (args : Ty) :
    M Unit :=
  match prog.genericDrip name with
  | none => message s!"unknown generic struct `{name}`"
  | some d =>
    if d.generics.length = args.list.length then do
      let fields ← mapFields prog mono d args
      modify fun s => s.push ⟨name, args, fields⟩
    else message (s!"generic struct `{name}` expects {d.generics.length} type arg(s), " ++
      s!"got {args.list.length}")

/-- `mono_struct`, from the mapped arguments on. The fuel is for the instances whose fields are
being mapped, one inside the other. -/
def monoStruct (prog : Program) : Nat → String → Ty → M Unit
  | 0, _, _ => fail .unfinished
  | fuel + 1, name, args => do
    let s ← get
    if (name, args) ∈ s.keys then return ()
    else newInstance prog (monoStruct prog fuel) name args

def State.enqueue (s : State) (job : Job) : State := { s with worklist := s.worklist ++ [job] }

/-- `mono_fn`, from the mapped arguments on: a new instance is signed, and put on the work-list. -/
def signFn (prog : Program) (fuel : Nat) (f : GenericFn) (name : String) (args : List Ty) :
    M Unit :=
  if f.generics.length = args.length then do
    let s ← get
    if (name, args) ∈ s.worklist then return ()
    else do
      let _ ← f.sig.mapM (mapType prog (monoStruct prog fuel) (bindArgs f.generics args))
      modify fun s => s.enqueue (name, args)
  else message (s!"generic function `{name}` expects {f.generics.length} type arg(s), " ++
    s!"got {args.length}")

def monoFn (prog : Program) (fuel : Nat) (subst : List (String × Ty)) (name : String)
    (args : List Typ) : M Unit :=
  match prog.genericFn name with
  | none => message s!"unknown generic function `{name}`"
  | some f => do
    let args ← args.mapM (mapType prog (monoStruct prog fuel) subst)
    signFn prog fuel f name args

def ask (prog : Program) (fuel : Nat) (subst : List (String × Ty)) : Demand → M Unit
  | .type t => do
    let _ ← mapType prog (monoStruct prog fuel) subst t
  | .tried t => do
    match ← attempt (mapType prog (monoStruct prog fuel) subst t) with
    | .ok _ => return ()
    | .error (.message _) => modify fun s => { s with erred := true }
    | .error .unfinished => fail .unfinished
  | .call name args => monoFn prog fuel subst name args

def askAll (prog : Program) (fuel : Nat) (subst : List (String × Ty)) : List Demand → M Unit
  | [] => return ()
  | dm :: dms => do
    ask prog fuel subst dm
    askAll prog fuel subst dms

/-- `lower_mono_fn` -/
def lowerMonoFn (prog : Program) (fuel : Nat) (job : Job) : M Unit :=
  match prog.genericFn job.1 with
  | none => message s!"unknown generic function `{job.1}`"
  | some f => askAll prog fuel (bindArgs f.generics job.2) f.body

/-- The job at an index, if any, and then the rest. -/
def lowerNext (prog : Program) (fuel : Nat) (rest : M Nat) (i : Nat) : Option Job → M Nat
  | none => return i
  | some job => do
    lowerMonoFn prog fuel job
    rest

/-- The work-list from an index on, to where it ends; the fuel is for the jobs. -/
def drain (prog : Program) (fuel : Nat) : Nat → Nat → M Nat
  | 0, i => do
    let s ← get
    if i < s.worklist.length then fail .unfinished else return i
  | n + 1, i => do
    let s ← get
    lowerNext prog fuel (drain prog fuel n (i + 1)) i s.worklist[i]?

def lower (prog : Program) (fuel n : Nat) : M Nat := do
  askAll prog fuel [] prog.roots
  drain prog fuel n 0

/-- There is an error, or a finite number of instances, each of them once and every one of the
functions lowered once. -/
def Ended : Except Fail Nat × State → Prop
  | (.ok i, s) => i = s.worklist.length ∧ s.worklist.Nodup ∧ s.keys.Nodup
  | (.error (.message _), _) => True
  | (.error .unfinished, _) => False

def Ends (prog : Program) : Prop := ∃ fuel n, Ended ((lower prog fuel n).run .start)

/-- No error comes up, however far lowering gets. -/
def Flawless (prog : Program) : Prop :=
  ∀ fuel n, ((lower prog fuel n).run .start).2.erred = false ∧
    ∀ s, ((lower prog fuel n).run .start).1 ≠ .error (.message s)

section Mentions

/-- The plain names in a type, those of parameters among them. -/
def names : Typ → List String
  | .named name => [name]
  | .inst _ args => names args
  | .vec e | .slice e | .array e _ | .tag e | .crib e | .soa e => names e
  | .stash a b | .tuple a b => names a ++ names b
  | .finna params ret => names params ++ if isVoid ret then [] else names ret
  | .rawptr | .nada => []

/-- The generic drips that a type names. -/
def heads : Typ → List String
  | .named _ | .rawptr | .nada => []
  | .inst name args => name :: heads args
  | .vec e | .slice e | .array e _ | .tag e | .crib e | .soa e => heads e
  | .stash a b | .tuple a b => heads a ++ heads b
  | .finna params ret => heads params ++ if isVoid ret then [] else heads ret

def Demand.types : Demand → List Typ
  | .type t | .tried t => [t]
  | .call _ args => args

/-- The demands of the code that lowering comes to. -/
inductive Made (prog : Program) : Demand → Prop where
  | root {dm : Demand} (h : dm ∈ prog.roots) : Made prog dm
  | body {name : String} {args : List Typ} {f : GenericFn} {dm : Demand}
      (h : Made prog (.call name args)) (hf : prog.genericFn name = some f) (hdm : dm ∈ f.body) :
      Made prog dm

/-- The generic drips that it comes to. -/
inductive Asked (prog : Program) : String → Prop where
  | demand {dm : Demand} {t : Typ} {name : String} (h : Made prog dm) (ht : t ∈ dm.types)
      (hn : name ∈ heads t) : Asked prog name
  | sig {fn : String} {args : List Typ} {f : GenericFn} {t : Typ} {name : String}
      (h : Made prog (.call fn args)) (hf : prog.genericFn fn = some f) (ht : t ∈ f.sig)
      (hn : name ∈ heads t) : Asked prog name
  | field {outer : String} {d : Drip} {f : String × Typ} {name : String} (h : Asked prog outer)
      (hd : prog.genericDrip outer = some d) (hf : f ∈ d.fields) (hn : name ∈ heads f.2) :
      Asked prog name

/-- A generic drip has a higher rank than those its fields name. A type argument does not lie lower
than a parameter that it is, and lies higher than one that is a part of it. -/
structure Ranked (prog : Program) (rank : String → Nat) (level : String → String → Nat) :
    Prop where
  drips : ∀ outer d, Asked prog outer → prog.genericDrip outer = some d →
    ∀ f ∈ d.fields, ∀ name ∈ heads f.2, rank name < rank outer
  args : ∀ fn fnArgs f, Made prog (.call fn fnArgs) → prog.genericFn fn = some f →
    ∀ name args g, .call name args ∈ f.body → prog.genericFn name = some g →
    ∀ p a, (bindArgs g.generics args).lookup p = some a →
    ∀ q ∈ names a, q ∈ f.generics →
      level fn q ≤ level name p ∧ (a ≠ .named q → level fn q < level name p)

/-- No generic drip leads back to itself, and no type argument grows around a cycle of calls. -/
def Stratified (prog : Program) : Prop := ∃ rank level, Ranked prog rank level

end Mentions

section Types

variable {prog : Program} {mono : String → Ty → M Unit} {subst : List (String × Ty)} {s s' : State}

/-- The type that a mapped type is. -/
def typeOf (prog : Program) (subst : List (String × Ty)) : Typ → Ty
  | .named name => ((subst.lookup name).or (prog.plain name)).getD .void
  | .inst name args => .inst name (typeOf prog subst args)
  | .vec e => .vec (typeOf prog subst e)
  | .stash k v => .map (typeOf prog subst k) (typeOf prog subst v)
  | .slice e => .slice (typeOf prog subst e)
  | .array e n => .array (typeOf prog subst e) n
  | .tag e => .tag (typeOf prog subst e)
  | .crib e => .crib (typeOf prog subst e)
  | .soa inner => .soa (typeOf prog subst inner)
  | .finna params ret => .fnPtr (typeOf prog subst params)
      (if isVoid ret then .void else .tuple (typeOf prog subst ret) .void)
  | .rawptr => .rawPtr
  | .nada => .void
  | .tuple a b => .tuple (typeOf prog subst a) (typeOf prog subst b)

theorem namedType_ok {name : String} {t : Ty}
    (h : (namedType prog subst name).run s = (.ok t, s')) :
    t = typeOf prog subst (.named name) ∧ s' = s := by
  simp only [namedType] at h
  cases hn : (subst.lookup name).or (prog.plain name) with
  | none =>
    rw [hn] at h
    cases h
  | some t' =>
    rw [hn] at h
    cases h
    exact ⟨by rw [typeOf, hn, Option.getD_some], rfl⟩

/-- The check of `soa` only looks. -/
theorem checkSoa_run (prog : Program) (inner : Ty) (s : State) :
    (checkSoa prog inner).run s = (.ok (), s) ∨
      ∃ text, (checkSoa prog inner).run s = (.error (.message text), s) := by
  simp only [checkSoa]
  cases soaElem inner with
  | none => exact Or.inr ⟨_, rfl⟩
  | some e =>
    by_cases he : isStruct e = true
    · simp only [if_pos he]
      rw [run_bind]
      cases hf : soaFieldOf prog s e with
      | none => exact Or.inl (by simp only [Stateful.get, Comp.run, hf]; rfl)
      | some field => exact Or.inr ⟨_, by simp only [Stateful.get, Comp.run, hf]; rfl⟩
    · simp only [if_neg he]
      exact Or.inr ⟨_, rfl⟩

/-- An instance is there, is refused, or has its fields mapped first. -/
theorem monoStruct_cases (prog : Program) (fuel : Nat) (name : String) (args : Ty) (s : State) :
    ((name, args) ∈ s.keys ∧ (monoStruct prog (fuel + 1) name args).run s = (.ok (), s)) ∨
      (∃ text, (monoStruct prog (fuel + 1) name args).run s = (.error (.message text), s)) ∨
      ∃ d, prog.genericDrip name = some d ∧ (name, args) ∉ s.keys ∧
        (monoStruct prog (fuel + 1) name args).run s =
          (mapFields prog (monoStruct prog fuel) d args >>= fun fields =>
            modify fun s => s.push ⟨name, args, fields⟩).run s := by
  have hrun : (monoStruct prog (fuel + 1) name args).run s =
      (if (name, args) ∈ s.keys then (pure () : M Unit)
        else newInstance prog (monoStruct prog fuel) name args).run s := rfl
  by_cases hmem : (name, args) ∈ s.keys
  · exact Or.inl ⟨hmem, by rw [hrun, if_pos hmem, run_pure]⟩
  · right
    rw [if_neg hmem, newInstance] at hrun
    cases hd : prog.genericDrip name with
    | none =>
      simp only [hd] at hrun
      exact Or.inl ⟨_, hrun⟩
    | some d =>
      simp only [hd] at hrun
      by_cases hlen : d.generics.length = args.list.length
      · rw [if_pos hlen] at hrun
        exact Or.inr ⟨d, rfl, hmem, hrun⟩
      · rw [if_neg hlen] at hrun
        exact Or.inl ⟨_, hrun⟩

theorem signFn_cases (prog : Program) (fuel : Nat) (f : GenericFn) (name : String) (args : List Ty)
    (s : State) :
    ((name, args) ∈ s.worklist ∧ (signFn prog fuel f name args).run s = (.ok (), s)) ∨
      (∃ text, (signFn prog fuel f name args).run s = (.error (.message text), s)) ∨
      (f.generics.length = args.length ∧ (name, args) ∉ s.worklist ∧
        (signFn prog fuel f name args).run s =
          (f.sig.mapM (mapType prog (monoStruct prog fuel) (bindArgs f.generics args)) >>= fun _ =>
            modify fun s => s.enqueue (name, args)).run s) := by
  rw [signFn]
  by_cases hlen : f.generics.length = args.length
  · have hrun : (get >>= fun s => if (name, args) ∈ s.worklist then (pure () : M Unit) else
          f.sig.mapM (mapType prog (monoStruct prog fuel) (bindArgs f.generics args)) >>= fun _ =>
            modify fun s => s.enqueue (name, args)).run s =
        (if (name, args) ∈ s.worklist then (pure () : M Unit) else
          f.sig.mapM (mapType prog (monoStruct prog fuel) (bindArgs f.generics args)) >>= fun _ =>
            modify fun s => s.enqueue (name, args)).run s := rfl
    rw [if_pos hlen, hrun]
    by_cases hmem : (name, args) ∈ s.worklist
    · exact Or.inl ⟨hmem, by rw [if_pos hmem, run_pure]⟩
    · exact Or.inr (Or.inr ⟨hlen, hmem, by rw [if_neg hmem]⟩)
  · rw [if_neg hlen]
    exact Or.inr (Or.inl ⟨_, rfl⟩)

theorem mapType_typeOf {t : Typ} {ty : Ty} (h : (mapType prog mono subst t).run s = (.ok ty, s')) :
    ty = typeOf prog subst t := by
  induction t generalizing s s' ty with
  | named name => exact (namedType_ok h).1
  | inst name args ih =>
    obtain ⟨args', s₁, hargs, h⟩ := bind_ok.mp h
    obtain ⟨_, s₂, _, h⟩ := bind_ok.mp h
    cases h
    rw [typeOf, ih hargs]
  | vec e ih | slice e ih | tag e ih | crib e ih =>
    obtain ⟨e', s₁, he, h⟩ := bind_ok.mp h
    cases h
    rw [typeOf, ih he]
  | array e n ih =>
    obtain ⟨e', s₁, he, h⟩ := bind_ok.mp h
    cases h
    rw [typeOf, ih he]
  | stash a b iha ihb | tuple a b iha ihb =>
    obtain ⟨a', s₁, ha, h⟩ := bind_ok.mp h
    obtain ⟨b', s₂, hb, h⟩ := bind_ok.mp h
    cases h
    rw [typeOf, iha ha, ihb hb]
  | soa inner ih =>
    obtain ⟨inner', s₁, hinner, h⟩ := bind_ok.mp h
    obtain ⟨_, s₂, _, h⟩ := bind_ok.mp h
    cases h
    rw [typeOf, ih hinner]
  | finna params ret ihp ihr =>
    obtain ⟨params', s₁, hparams, h⟩ := bind_ok.mp h
    cases hv : isVoid ret with
    | true =>
      rw [hv] at h
      cases h
      rw [typeOf, hv, ihp hparams]
      rfl
    | false =>
      rw [hv] at h
      obtain ⟨ret', s₂, hret, h⟩ := bind_ok.mp h
      cases h
      rw [typeOf, hv, ihp hparams, ihr hret]
      rfl
  | rawptr | nada =>
    cases h
    rfl

end Types

end BetLang.Specialize
