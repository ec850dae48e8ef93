import BetLang.ZeroTermination

/-! The zero value of a generic drip is the zero of its fields with the arguments put in, where the
arguments of the drips in it do not go through a parameter of the drip around. -/

namespace BetLang.Zero

open OrderedCalls
open Collect (Typ DripDecl FieldDecl)
open Eval (Halt zeroScalar)
open Interp (Value)

mutual

/-- A type with arguments put in for the parameters. -/
def substTyp (σ : Subst) : Typ → Typ
  | .named name args =>
    match σ.lookup name with
    | some sub => sub
    | none => .named name (substTyps σ args)
  | .slice elem => .slice (substTyp σ elem)
  | .array elem n => .array (substTyp σ elem) n
  | .tag elem => .tag (substTyp σ elem)
  | .crib elem => .crib (substTyp σ elem)
  | .soa inner => .soa (substTyp σ inner)
  | .fn params ret => .fn (substTyps σ params) (substTyp σ ret)
  | .rawPtr => .rawPtr

def substTyps (σ : Subst) : List Typ → List Typ
  | [] => []
  | ty :: tys => substTyp σ ty :: substTyps σ tys

end

/-- The zero value that is meant: a drip's fields with its arguments put in. -/
def zeroOf (drips : Drips) : Nat → Typ → Fueled Halt Value
  | 0, _ => none
  | fuel + 1, .named name args =>
    match zeroScalar name with
    | some v => some (.ok v)
    | none =>
      match drips.lookup name with
      | none => some (.error (noZero name))
      | some decl =>
        andThen (zeroFields (fun ty => zeroOf drips fuel (substTyp (bindParams decl args) ty)) []
          decl.fields) fun fields => some (.ok (.struct name fields))
  | _ + 1, .slice _ => some (.ok (.array []))
  | fuel + 1, .array elem n => andThen (zeroOf drips fuel elem) fun z => some (zeroArray n z)
  | _ + 1, .tag _ | _ + 1, .crib _ | _ + 1, .fn _ _ => some (.ok .ghosted)
  | fuel + 1, .soa inner => zeroOf drips fuel inner
  | _ + 1, .rawPtr => some (.ok (.word 0))

/-- The named type that a zero is made of, through arrays and `soa`. -/
def head : Typ → Option (String × List Typ)
  | .named name args => some (name, args)
  | .array elem _ => head elem
  | .soa inner => head inner
  | _ => none

section Substitution

theorem substTyps_eq_map (σ : Subst) (tys : List Typ) : substTyps σ tys = tys.map (substTyp σ) := by
  induction tys with
  | nil => rfl
  | cons ty tys ih => rw [substTyps, ih, List.map_cons]

mutual

theorem substTyp_nil : ∀ ty : Typ, substTyp [] ty = ty
  | .named _ args => by
    rw [substTyp, substTyps_nil args]
    rfl
  | .slice elem | .array elem _ | .tag elem | .crib elem | .soa elem => by
    rw [substTyp, substTyp_nil elem]
  | .fn params ret => by rw [substTyp, substTyps_nil params, substTyp_nil ret]
  | .rawPtr => by rw [substTyp]

theorem substTyps_nil : ∀ tys : List Typ, substTyps [] tys = tys
  | [] => rfl
  | ty :: tys => by rw [substTyps, substTyp_nil ty, substTyps_nil tys]

end

theorem head_substTyp_some {σ : Subst} {ty : Typ} {x : String} {args : List Typ} {sub : Typ}
    (hh : head ty = some (x, args)) (hx : σ.lookup x = some sub) :
    head (substTyp σ ty) = head sub := by
  cases ty with
  | named name as =>
    cases hh
    rw [substTyp, hx]
  | array elem n =>
    rw [substTyp]
    exact head_substTyp_some (by exact hh) hx
  | soa inner =>
    rw [substTyp]
    exact head_substTyp_some (by exact hh) hx
  | _ => cases hh

theorem head_substTyp_none {σ : Subst} {ty : Typ} {x : String} {args : List Typ}
    (hh : head ty = some (x, args)) (hx : σ.lookup x = none) :
    head (substTyp σ ty) = some (x, substTyps σ args) := by
  cases ty with
  | named name as =>
    cases hh
    rw [substTyp, hx]
    rfl
  | array elem n =>
    rw [substTyp]
    exact head_substTyp_none (by exact hh) hx
  | soa inner =>
    rw [substTyp]
    exact head_substTyp_none (by exact hh) hx
  | _ => cases hh

theorem lookup_map_snd (f : Typ → Typ) (σ : Subst) (x : String) :
    (σ.map fun b => (b.1, f b.2)).lookup x = (σ.lookup x).map f := by
  induction σ with
  | nil => rfl
  | cons b σ ih =>
    obtain ⟨y, sub⟩ := b
    rw [List.map_cons, List.lookup_cons, List.lookup_cons]
    cases x == y with
    | true => rfl
    | false => exact ih

/-- Arguments put into the arguments of a drip. -/
theorem bindParams_subst (decl : DripDecl) (args : List Typ) (σ : Subst) (x : String) :
    (bindParams decl (substTyps σ args)).lookup x =
      ((bindParams decl args).lookup x).map (substTyp σ) := by
  rw [← lookup_map_snd, bindParams, bindParams, substTyps_eq_map, List.map_reverse]
  congr 2
  rw [List.zip_map_right]
  rfl

end Substitution

section Needs

variable (drips : Drips)

/-- The zero of a type needs the type of this name: it is that type, or a drip with a field of its
own parameter's type, for an argument that needs it. -/
inductive Needs (p : String) : Typ → Prop where
  | self {ty : Typ} {args : List Typ} : head ty = some (p, args) → Needs p ty
  | arg {ty : Typ} {name x : String} {args as : List Typ} {decl : DripDecl} {fd : FieldDecl}
    {sub : Typ} : head ty = some (name, args) → zeroScalar name = none →
      drips.lookup name = some decl → fd ∈ decl.fields → head fd.ty = some (x, as) →
      (bindParams decl args).lookup x = some sub → Needs p sub → Needs p ty

/-- The zero of a type has in it the zero of a drip with these arguments. -/
inductive Made (name : String) (args : List Typ) (decl : DripDecl) : Typ → Prop where
  | here {ty : Typ} : head ty = some (name, args) → zeroScalar name = none →
      drips.lookup name = some decl → Made name args decl ty
  | field {ty : Typ} {around : String} {as : List Typ} {d : DripDecl} {fd : FieldDecl} :
    head ty = some (around, as) → zeroScalar around = none → drips.lookup around = some d →
      fd ∈ d.fields → Made name args decl (substTyp (bindParams d as) fd.ty) → Made name args decl ty

/-- A field whose zero needs a parameter of the drip around is of a parameter's type. -/
def Sheltered (σ : Subst) (ty : Typ) : Prop :=
  ∀ p, (σ.lookup p).isSome → Needs drips p ty →
    ∃ x as, head ty = some (x, as) ∧ (σ.lookup x).isSome

/-- So are all fields of the drips that a zero has in it. -/
def AllSheltered (ty : Typ) : Prop :=
  ∀ name args decl, Made drips name args decl ty →
    ∀ fd ∈ decl.fields, Sheltered drips (bindParams decl args) fd.ty

/-- No parameter has the name of a type. -/
def Hygienic : Prop :=
  ∀ name decl, drips.lookup name = some decl →
    ∀ p ∈ decl.generics, zeroScalar p = none ∧ drips.lookup p = none

variable {drips}

theorem needs_of_head {p : String} {ty ty' : Typ} (hh : head ty = head ty')
    (h : Needs drips p ty) : Needs drips p ty' := by
  cases h with
  | self hself => exact .self (hh ▸ hself)
  | arg hhead hscalar hdrip hfd hx hsub hneeds =>
    exact .arg (hh ▸ hhead) hscalar hdrip hfd hx hsub hneeds

theorem Needs.head_some {p : String} {ty : Typ} (h : Needs drips p ty) :
    ∃ x args, head ty = some (x, args) := by
  cases h with
  | self hself => exact ⟨_, _, hself⟩
  | arg hhead => exact ⟨_, _, hhead⟩

theorem made_of_head {name : String} {args : List Typ} {decl : DripDecl} {ty ty' : Typ}
    (hh : head ty = head ty') (h : Made drips name args decl ty) : Made drips name args decl ty' := by
  cases h with
  | here hself hscalar hdrip => exact .here (hh ▸ hself) hscalar hdrip
  | field hhead hscalar hdrip hfd hmade => exact .field (hh ▸ hhead) hscalar hdrip hfd hmade

theorem allSheltered_of_head {ty ty' : Typ} (hh : head ty = head ty')
    (h : AllSheltered drips ty') : AllSheltered drips ty :=
  fun name args decl hmade => h name args decl (made_of_head hh hmade)

theorem bindParams_mem {decl : DripDecl} {args : List Typ} {p : String}
    (h : ((bindParams decl args).lookup p).isSome) : p ∈ decl.generics := by
  obtain ⟨sub, hsub⟩ := Option.isSome_iff_exists.mp h
  exact (List.of_mem_zip (List.mem_reverse.mp (mem_of_lookup hsub))).1

end Needs

section Agreement

variable {drips : Drips}

theorem zeroFields_of_all {f g : Typ → Fueled Halt Value} {fds : List FieldDecl}
    {acc : List (String × Value)} {r : Except Halt (List (String × Value))}
    (h : ∀ fd ∈ fds, ∀ r, f fd.ty = some r → g fd.ty = some r) (hr : zeroFields f acc fds = some r) :
    zeroFields g acc fds = some r := by
  induction fds generalizing acc with
  | nil => exact hr
  | cons fd fds ih =>
    rw [zeroFields] at hr ⊢
    cases hf : f fd.ty with
    | none =>
      rw [hf] at hr
      cases hr
    | some rf =>
      rw [hf] at hr
      rw [h fd List.mem_cons_self rf hf]
      cases rf with
      | error e => exact hr
      | ok v => exact ih (fun fd' hfd' => h fd' (List.mem_cons_of_mem _ hfd')) hr

theorem zeroDefault_mono {n m : Nat} {ty : Typ} {σ : Subst} {r : Except Halt Value} (hnm : n ≤ m)
    (h : zeroDefault drips n ty σ = some r) : zeroDefault drips m ty σ = some r := by
  rw [zeroDefault_eq_run] at h ⊢
  exact run_mono hnm h

def Unneeded (drips : Drips) (σ : Subst) (ty : Typ) : Prop :=
  ∀ p, (σ.lookup p).isSome → ¬Needs drips p ty

/-- The interpreter's environment leads to where the substitution leads: to the argument that a
parameter stands for, or nowhere. -/
def Fits (drips : Drips) (ρ σ : Subst) (ty : Typ) : Prop :=
  ∀ x args, head ty = some (x, args) →
    (∃ sub σ', ρ.lookup x = some sub ∧ σ.lookup x = some (substTyp σ' sub) ∧
      Unneeded drips σ' sub) ∨
    (ρ.lookup x = none ∧ Unneeded drips σ ty)

theorem fits_nil {σ : Subst} {ty : Typ} (h : Unneeded drips σ ty) : Fits drips [] σ ty :=
  fun _ _ _ => .inr ⟨rfl, h⟩

theorem fits_of_head {ρ σ : Subst} {ty ty' : Typ} (hh : head ty = head ty')
    (h : Fits drips ρ σ ty) : Fits drips ρ σ ty' := by
  intro x args hx
  rcases h x args (hh.trans hx) with hleft | ⟨hx, hun⟩
  · exact .inl hleft
  · exact .inr ⟨hx, fun p hp hneeds => hun p hp (needs_of_head hh.symm hneeds)⟩

theorem unneeded_lookup {σ : Subst} {ty : Typ} {x : String} {args : List Typ}
    (hh : head ty = some (x, args)) (h : Unneeded drips σ ty) : σ.lookup x = none := by
  cases hx : σ.lookup x with
  | none => rfl
  | some sub => exact absurd (.self hh) (h x (by rw [hx]; rfl))

/-- The fields of a drip fit again. -/
theorem fits_field {σ : Subst} {name : String} {args : List Typ} {decl : DripDecl} {fd : FieldDecl}
    (hun : Unneeded drips σ (.named name args)) (hscalar : zeroScalar name = none)
    (hdrip : drips.lookup name = some decl)
    (hall : AllSheltered drips (.named name (substTyps σ args))) (hfd : fd ∈ decl.fields) :
    Fits drips (bindParams decl args) (bindParams decl (substTyps σ args)) fd.ty ∧
      AllSheltered drips (substTyp (bindParams decl (substTyps σ args)) fd.ty) := by
  constructor
  · intro x as hx
    cases hsub : (bindParams decl args).lookup x with
    | some sub =>
      refine .inl ⟨sub, σ, rfl, ?_, fun p hp hneeds => ?_⟩
      · rw [bindParams_subst, hsub, Option.map_some]
      · exact hun p hp (.arg rfl hscalar hdrip hfd hx hsub hneeds)
    | none =>
      refine .inr ⟨rfl, fun p hp hneeds => ?_⟩
      have hshelter := hall name _ decl (.here rfl hscalar hdrip) fd hfd p hp hneeds
      obtain ⟨y, bs, hy, hbound⟩ := hshelter
      rw [hx] at hy
      cases hy
      rw [bindParams_subst, hsub] at hbound
      cases hbound
  · intro name' args' decl' hmade
    exact hall name' args' decl' (.field rfl hscalar hdrip hfd hmade)

theorem zeroOf_mono {n : Nat} {ty : Typ} {r : Except Halt Value}
    (h : zeroOf drips n ty = some r) : zeroOf drips (n + 1) ty = some r := by
  induction n generalizing ty r with
  | zero => cases h
  | succ n ih =>
    cases ty with
    | named name args =>
      rw [zeroOf] at h ⊢
      cases hscalar : zeroScalar name with
      | some v =>
        rw [hscalar] at h
        exact h
      | none =>
        rw [hscalar] at h
        cases hdrip : drips.lookup name with
        | none =>
          rw [hdrip] at h
          exact h
        | some decl =>
          rw [hdrip] at h
          dsimp only at h ⊢
          cases hfields : zeroFields (fun ty => zeroOf drips n (substTyp (bindParams decl args) ty)) []
              decl.fields with
          | none =>
            rw [hfields] at h
            cases h
          | some rs =>
            rw [hfields] at h
            rw [zeroFields_of_all (g := fun ty => zeroOf drips (n + 1)
              (substTyp (bindParams decl args) ty)) (fun fd _ r hr => ih hr) hfields]
            exact h
    | array elem k =>
      rw [zeroOf] at h ⊢
      cases hz : zeroOf drips n elem with
      | none =>
        rw [hz] at h
        cases h
      | some rz =>
        rw [hz] at h
        rw [ih hz]
        exact h
    | soa inner =>
      rw [zeroOf] at h ⊢
      exact ih h
    | _ => exact h

/-- What the interpreter computes is the zero that is meant. -/
theorem zeroOf_of_zeroDefault {n : Nat} {ty : Typ} {ρ σ : Subst} {r : Except Halt Value}
    (hfit : Fits drips ρ σ ty) (hall : AllSheltered drips (substTyp σ ty))
    (h : zeroDefault drips n ty ρ = some r) : zeroOf drips n (substTyp σ ty) = some r := by
  induction n generalizing ty ρ σ r with
  | zero => cases ty <;> cases h
  | succ n ih =>
    cases ty with
    | named name args =>
      rw [zeroDefault] at h
      rcases hfit name args rfl with ⟨sub, σ', hρ, hσ, hun⟩ | ⟨hρ, hun⟩
      · rw [hρ] at h
        rw [substTyp, hσ] at hall ⊢
        exact zeroOf_mono (ih (fits_nil hun) hall h)
      · rw [hρ] at h
        have hσ := unneeded_lookup rfl hun
        rw [substTyp, hσ] at hall ⊢
        rw [zeroOf]
        cases hscalar : zeroScalar name with
        | some v =>
          rw [hscalar] at h
          exact h
        | none =>
          rw [hscalar] at h
          cases hdrip : drips.lookup name with
          | none =>
            rw [hdrip] at h
            exact h
          | some decl =>
            rw [hdrip] at h
            dsimp only at h ⊢
            have hfields (fd : FieldDecl) (hfd : fd ∈ decl.fields) (r : Except Halt Value)
                (hr : zeroDefault drips n fd.ty (bindParams decl args) = some r) :
                zeroOf drips n (substTyp (bindParams decl (substTyps σ args)) fd.ty) = some r := by
              obtain ⟨hfit', hall'⟩ := fits_field hun hscalar hdrip hall hfd
              exact ih hfit' hall' hr
            cases hz : zeroFields (fun ty => zeroDefault drips n ty (bindParams decl args)) []
                decl.fields with
            | none =>
              rw [hz] at h
              cases h
            | some rz =>
              rw [hz] at h
              rw [zeroFields_of_all (g := fun ty => zeroOf drips n
                (substTyp (bindParams decl (substTyps σ args)) ty)) hfields hz]
              exact h
    | array elem k =>
      rw [zeroDefault] at h
      rw [substTyp, zeroOf]
      cases hz : zeroDefault drips n elem ρ with
      | none =>
        rw [hz] at h
        cases h
      | some rz =>
        rw [hz] at h
        have hfit' : Fits drips ρ σ elem := fits_of_head (show head (.array elem k) = _ from rfl) hfit
        rw [substTyp] at hall
        have hhead : head (substTyp σ elem) = head (.array (substTyp σ elem) k) := rfl
        rw [ih hfit' (allSheltered_of_head hhead hall) hz]
        exact h
    | soa inner =>
      rw [zeroDefault] at h
      rw [substTyp] at hall ⊢
      rw [zeroOf]
      have hfit' : Fits drips ρ σ inner := fits_of_head (show head (.soa inner) = _ from rfl) hfit
      have hhead : head (substTyp σ inner) = head (.soa (substTyp σ inner)) := rfl
      exact ih hfit' (allSheltered_of_head hhead hall) h
    | _ => exact h

/-- Where no parameter is looked up, the interpreter needs one call more than its parts do. -/
theorem zeroDefault_step {n : Nat}
    (ih : ∀ {ty : Typ} {ρ σ : Subst} {r : Except Halt Value}, Fits drips ρ σ ty →
      AllSheltered drips (substTyp σ ty) → zeroOf drips n (substTyp σ ty) = some r →
        zeroDefault drips (2 * n + 1) ty ρ = some r)
    {ty : Typ} {ρ σ : Subst} {r : Except Halt Value} (hfit : Fits drips ρ σ ty)
    (hall : AllSheltered drips (substTyp σ ty))
    (hρ : ∀ name args, ty = .named name args → ρ.lookup name = none)
    (h : zeroOf drips (n + 1) (substTyp σ ty) = some r) :
    zeroDefault drips (2 * n + 2) ty ρ = some r := by
  cases ty with
  | named name args =>
    have hρ := hρ name args rfl
    rcases hfit name args rfl with ⟨sub, σ', hsub, -⟩ | ⟨-, hun⟩
    · rw [hρ] at hsub
      cases hsub
    have hσ := unneeded_lookup rfl hun
    rw [substTyp, hσ] at hall h
    rw [zeroOf] at h
    rw [zeroDefault, hρ]
    dsimp only at h ⊢
    cases hscalar : zeroScalar name with
    | some v =>
      rw [hscalar] at h
      exact h
    | none =>
      rw [hscalar] at h
      cases hdrip : drips.lookup name with
      | none =>
        rw [hdrip] at h
        exact h
      | some decl =>
        rw [hdrip] at h
        dsimp only at h ⊢
        have hfields (fd : FieldDecl) (hfd : fd ∈ decl.fields) (r : Except Halt Value)
            (hr : zeroOf drips n (substTyp (bindParams decl (substTyps σ args)) fd.ty) = some r) :
            zeroDefault drips (2 * n + 1) fd.ty (bindParams decl args) = some r := by
          obtain ⟨hfit', hall'⟩ := fits_field hun hscalar hdrip hall hfd
          exact ih hfit' hall' hr
        cases hz : zeroFields (fun ty => zeroOf drips n
            (substTyp (bindParams decl (substTyps σ args)) ty)) [] decl.fields with
        | none =>
          rw [hz] at h
          cases h
        | some rz =>
          rw [hz] at h
          rw [zeroFields_of_all (g := fun ty => zeroDefault drips (2 * n + 1) ty
            (bindParams decl args)) hfields hz]
          exact h
  | array elem k =>
    rw [substTyp] at hall h
    rw [zeroOf] at h
    rw [zeroDefault]
    have hfit' : Fits drips ρ σ elem := fits_of_head (show head (.array elem k) = _ from rfl) hfit
    have hhead : head (substTyp σ elem) = head (.array (substTyp σ elem) k) := rfl
    cases hz : zeroOf drips n (substTyp σ elem) with
    | none =>
      rw [hz] at h
      cases h
    | some rz =>
      rw [hz] at h
      rw [ih hfit' (allSheltered_of_head hhead hall) hz]
      exact h
  | soa inner =>
    rw [substTyp] at hall h
    rw [zeroOf] at h
    rw [zeroDefault]
    have hfit' : Fits drips ρ σ inner := fits_of_head (show head (.soa inner) = _ from rfl) hfit
    have hhead : head (substTyp σ inner) = head (.soa (substTyp σ inner)) := rfl
    exact ih hfit' (allSheltered_of_head hhead hall) h
  | _ => exact h

/-- The zero that is meant is what the interpreter computes. -/
theorem zeroDefault_of_zeroOf {n : Nat} {ty : Typ} {ρ σ : Subst} {r : Except Halt Value}
    (hfit : Fits drips ρ σ ty) (hall : AllSheltered drips (substTyp σ ty))
    (h : zeroOf drips n (substTyp σ ty) = some r) :
    zeroDefault drips (2 * n + 1) ty ρ = some r := by
  induction n generalizing ty ρ σ r with
  | zero => cases hs : substTyp σ ty <;> rw [hs] at h <;> cases h
  | succ n ih =>
    by_cases hρ : ∀ name args, ty = .named name args → ρ.lookup name = none
    · exact zeroDefault_mono (Nat.le_succ _) (zeroDefault_step ih hfit hall hρ h)
    · push Not at hρ
      obtain ⟨name, args, rfl, hne⟩ := hρ
      -- the parameter's argument is looked up in no environment
      rcases hfit name args rfl with ⟨sub, σ', hsub, hσ, hun⟩ | ⟨hnone, -⟩
      · rw [substTyp, hσ] at hall h
        rw [show 2 * (n + 1) + 1 = (2 * n + 2) + 1 from rfl, zeroDefault, hsub]
        exact zeroDefault_step ih (fits_nil hun) hall (fun _ _ _ => rfl) h
      · exact absurd hnone hne

/-- A zero of an array or `soa` has a zero of the named type in it. -/
theorem zero_of_head {n : Nat} {ty : Typ} {ρ : Subst} {v : Value} {x : String} {args : List Typ}
    (hh : head ty = some (x, args)) (h : zeroDefault drips n ty ρ = some (.ok v)) :
    ∃ m w, m ≤ n ∧ zeroDefault drips m (.named x args) ρ = some (.ok w) := by
  induction n generalizing ty v with
  | zero => cases ty <;> cases h
  | succ n ih =>
    cases ty with
    | named name as =>
      cases hh
      exact ⟨n + 1, v, Nat.le_refl _, h⟩
    | array elem k =>
      rw [zeroDefault] at h
      obtain ⟨z, hz, -⟩ := andThen_eq_ok h
      have hh' : head elem = some (x, args) := hh
      obtain ⟨m, w, hm, hw⟩ := ih hh' hz
      exact ⟨m, w, Nat.le_succ_of_le hm, hw⟩
    | soa inner =>
      rw [zeroDefault] at h
      have hh' : head inner = some (x, args) := hh
      obtain ⟨m, w, hm, hw⟩ := ih hh' h
      exact ⟨m, w, Nat.le_succ_of_le hm, hw⟩
    | _ => cases hh

theorem zeroFields_ok {f : Typ → Fueled Halt Value} {fds : List FieldDecl}
    {acc vals : List (String × Value)} (h : zeroFields f acc fds = some (.ok vals)) {fd : FieldDecl}
    (hfd : fd ∈ fds) : ∃ v, f fd.ty = some (.ok v) := by
  induction fds generalizing acc with
  | nil => cases hfd
  | cons fd' fds ih =>
    rw [zeroFields] at h
    obtain ⟨v, hv, hrest⟩ := andThen_eq_ok h
    rcases List.mem_cons.mp hfd with rfl | hfd
    · exact ⟨v, hv⟩
    · exact ih hrest hfd

/-- A zero of a drip has zeros of its fields in it. -/
theorem zero_of_fields {n : Nat} {name : String} {args : List Typ} {ρ : Subst} {v : Value}
    {decl : DripDecl} (hρ : ρ.lookup name = none) (hscalar : zeroScalar name = none)
    (hdrip : drips.lookup name = some decl)
    (h : zeroDefault drips n (.named name args) ρ = some (.ok v)) :
    ∃ m, n = m + 1 ∧ ∀ fd ∈ decl.fields, ∃ w,
      zeroDefault drips m fd.ty (bindParams decl args) = some (.ok w) := by
  cases n with
  | zero => cases h
  | succ m =>
    rw [zeroDefault, hρ] at h
    dsimp only at h
    rw [hscalar, hdrip] at h
    obtain ⟨fields, hfields, -⟩ := andThen_eq_ok h
    exact ⟨m, rfl, fun fd hfd => zeroFields_ok hfields hfd⟩

/-- A parameter that is looked up leads to its argument. -/
theorem zero_of_param {n : Nat} {x : String} {args : List Typ} {ρ : Subst} {v : Value} {sub : Typ}
    (hρ : ρ.lookup x = some sub) (h : zeroDefault drips n (.named x args) ρ = some (.ok v)) :
    ∃ m, n = m + 1 ∧ zeroDefault drips m sub [] = some (.ok v) := by
  cases n with
  | zero => cases h
  | succ m =>
    rw [zeroDefault, hρ] at h
    exact ⟨m, rfl, h⟩

theorem zeroDefault_unbound {n : Nat} {name : String} {args : List Typ} {ρ : Subst}
    (hρ : ρ.lookup name = none) :
    zeroDefault drips n (.named name args) ρ = zeroDefault drips n (.named name args) [] := by
  cases n with
  | zero => rfl
  | succ n =>
    rw [zeroDefault, hρ]
    rfl

/-- A parameter that is left as it stands has no zero. -/
theorem no_zero_of_needs {p : String} (hscalar : zeroScalar p = none)
    (hdrip : drips.lookup p = none) {ty : Typ} (hneeds : Needs drips p ty) {n : Nat} {v : Value} :
    zeroDefault drips n ty [] ≠ some (.ok v) := by
  induction hneeds generalizing n v with
  | self hself =>
    intro h
    obtain ⟨m, w, -, hw⟩ := zero_of_head hself h
    cases m with
    | zero => cases hw
    | succ m =>
      rw [zeroDefault] at hw
      dsimp only [List.lookup_nil] at hw
      rw [hscalar, hdrip] at hw
      cases hw
  | arg hhead hs hd hfd hx hsub _ ih =>
    intro h
    obtain ⟨m, w, -, hw⟩ := zero_of_head hhead h
    obtain ⟨m', rfl, hfields⟩ := zero_of_fields rfl hs hd hw
    obtain ⟨wf, hwf⟩ := hfields _ hfd
    obtain ⟨k, wx, -, hwx⟩ := zero_of_head hx hwf
    obtain ⟨k', -, hsubz⟩ := zero_of_param hsub hwx
    exact ih hsubz

theorem head_substTyp_head {σ : Subst} {x : String} {args : List Typ} :
    ∀ ty : Typ, head (substTyp σ ty) = some (x, args) → ∃ y as, head ty = some (y, as)
  | .named name as, _ => ⟨name, as, rfl⟩
  | .array elem _, h => head_substTyp_head elem (by
    rw [substTyp] at h
    exact h)
  | .soa inner, h => head_substTyp_head inner (by
    rw [substTyp] at h
    exact h)
  | .slice _, h | .tag _, h | .crib _, h | .fn _ _, h | .rawPtr, h => by
    rw [substTyp] at h
    cases h

/-- The names that are substituted are those of no type. -/
def Fresh (drips : Drips) (σ : Subst) : Prop :=
  ∀ p, (σ.lookup p).isSome → zeroScalar p = none ∧ drips.lookup p = none

theorem Hygienic.fresh (hyg : Hygienic drips) {name : String} {decl : DripDecl}
    (hdrip : drips.lookup name = some decl) (args : List Typ) : Fresh drips (bindParams decl args) :=
  fun p hp => hyg name decl hdrip p (bindParams_mem hp)

/-- Where a parameter would be left as it stands, there is no zero. -/
theorem allSheltered_of_zero (hyg : Hygienic drips) {n : Nat} {ty : Typ} {ρ σ : Subst} {v : Value}
    (hσ : Fresh drips σ)
    (hlead : ∀ x args, head ty = some (x, args) →
      (∃ sub σ', ρ.lookup x = some sub ∧ σ.lookup x = some (substTyp σ' sub) ∧ Fresh drips σ') ∨
      (ρ.lookup x = none ∧ σ.lookup x = none))
    (h : zeroDefault drips n ty ρ = some (.ok v)) : AllSheltered drips (substTyp σ ty) := by
  induction n using Nat.strong_induction_on generalizing ty ρ σ v with
  | h n ih =>
    intro name args decl hmade fd hfd
    obtain ⟨x, as, hx⟩ : ∃ x as, head ty = some (x, as) := by
      cases hmade with
      | here hself => exact head_substTyp_head ty hself
      | field hself => exact head_substTyp_head ty hself
    obtain ⟨m, w, hm, hw⟩ := zero_of_head hx h
    rcases hlead x as hx with ⟨sub, σ', hsub, hsubst, hσ'⟩ | ⟨hρx, hσx⟩
    · obtain ⟨k, rfl, hk⟩ := zero_of_param hsub hw
      have hlead' (y : String) (bs : List Typ) (hy : head sub = some (y, bs)) :
          σ'.lookup y = none := by
        by_contra hne
        obtain ⟨hscalar, hdrip⟩ := hσ' y (Option.isSome_iff_ne_none.mpr hne)
        exact no_zero_of_needs hscalar hdrip (.self hy) hk
      have hall : AllSheltered drips (substTyp σ' sub) :=
        ih k (by omega) hσ' (fun y bs hy => .inr ⟨rfl, hlead' y bs hy⟩) hk
      exact hall name args decl (made_of_head (head_substTyp_some hx hsubst) hmade) fd hfd
    · have hhead := head_substTyp_none hx hσx
      cases hmade with
      | here hself hscalar hdrip =>
        obtain ⟨rfl, rfl⟩ : name = x ∧ args = substTyps σ as := by
          rw [hhead] at hself
          cases hself
          exact ⟨rfl, rfl⟩
        obtain ⟨k, rfl, hfields⟩ := zero_of_fields hρx hscalar hdrip hw
        obtain ⟨wf, hwf⟩ := hfields fd hfd
        intro p hp hneeds
        obtain ⟨y, bs, hy⟩ := hneeds.head_some
        refine ⟨y, bs, hy, ?_⟩
        by_contra hnone
        rw [Option.not_isSome_iff_eq_none, bindParams_subst, Option.map_eq_none_iff] at hnone
        obtain ⟨j, wy, -, hwy⟩ := zero_of_head hy hwf
        obtain ⟨hpscalar, hpdrip⟩ := hyg.fresh hdrip _ p hp
        rw [zeroDefault_unbound hnone] at hwy
        exact no_zero_of_needs hpscalar hpdrip (needs_of_head hy hneeds) hwy
      | @field _ around as' d fd' hself hscalar hdrip hfd' hmade =>
        obtain ⟨rfl, rfl⟩ : around = x ∧ as' = substTyps σ as := by
          rw [hhead] at hself
          cases hself
          exact ⟨rfl, rfl⟩
        obtain ⟨k, rfl, hfields⟩ := zero_of_fields hρx hscalar hdrip hw
        obtain ⟨wf, hwf⟩ := hfields fd' hfd'
        refine ih k (by omega) (hyg.fresh hdrip _) (fun y bs hy => ?_) hwf name args decl hmade fd hfd
        rw [bindParams_subst]
        cases (bindParams d as).lookup y with
        | some sub => exact .inl ⟨sub, σ, rfl, rfl, hσ⟩
        | none => exact .inr ⟨rfl, rfl⟩

end Agreement

/-- The interpreter's zero of a type is the zero with the arguments put in. -/
def Substitutes (drips : Drips) (ty : Typ) : Prop :=
  ∀ r, (∃ n, zeroDefault drips n ty [] = some r) ↔ ∃ n, zeroOf drips n ty = some r

/-- Zeros commute with substitution where every field whose zero needs a parameter is of a
parameter's type; and where the type has a zero and no parameter has the name of a type, only there. -/
theorem zero_substitutes_iff (drips : Drips) (ty : Typ) :
    (AllSheltered drips ty → Substitutes drips ty) ∧
      (Hygienic drips → (∃ n v, zeroOf drips n ty = some (.ok v)) →
        (Substitutes drips ty ↔ AllSheltered drips ty)) := by
  have hun : Unneeded drips [] ty := by
    intro p hp
    cases hp
  have hif (hall : AllSheltered drips ty) : Substitutes drips ty := by
    rw [← substTyp_nil ty] at hall
    intro r
    constructor
    · rintro ⟨n, h⟩
      have hz := zeroOf_of_zeroDefault (fits_nil hun) hall h
      rw [substTyp_nil] at hz
      exact ⟨n, hz⟩
    · rintro ⟨n, h⟩
      rw [← substTyp_nil ty] at h
      exact ⟨2 * n + 1, zeroDefault_of_zeroOf (fits_nil hun) hall h⟩
  refine ⟨hif, fun hyg hzero => ⟨fun h => ?_, hif⟩⟩
  obtain ⟨n, v, hn⟩ := hzero
  obtain ⟨m, hm⟩ := (h (.ok v)).mpr ⟨n, hn⟩
  have hfresh : Fresh drips [] := by
    intro p hp
    cases hp
  have hall := allSheltered_of_zero hyg hfresh (fun _ _ _ => .inr ⟨rfl, rfl⟩) hm
  rwa [substTyp_nil] at hall

/-- `drip G[T] { x: T }`. -/
def drippedG : DripDecl := ⟨"G", ["T"], [⟨none, "x", .named "T" []⟩]⟩

/-- `drip H[T] { g: G[T] }`. -/
def drippedH : DripDecl := ⟨"H", ["T"], [⟨none, "g", .named "G" [.named "T" []]⟩]⟩

/-- `drip K[T] { x: T, g: G[int] }`. -/
def drippedK : DripDecl :=
  ⟨"K", ["T"], [⟨none, "x", .named "T" []⟩, ⟨none, "g", .named "G" [.named "int" []]⟩]⟩

def onInt (name : String) : Typ := .named name [.named "int" []]

theorem zero_substitutes_nested :
    Substitutes [("K", drippedK), ("G", drippedG)] (.named "K" [onInt "G"]) := by
  have hyg : Hygienic [("K", drippedK), ("G", drippedG)] := by
    intro name decl hdrip p hp
    rcases List.mem_cons.mp (mem_of_lookup hdrip) with h | h
    · cases h
      cases List.mem_singleton.mp hp
      exact ⟨rfl, rfl⟩
    · cases List.mem_singleton.mp h
      cases List.mem_singleton.mp hp
      exact ⟨rfl, rfl⟩
  refine ((zero_substitutes_iff _ _).2 hyg ⟨5, _, rfl⟩).mpr ?_
  have hfresh : Fresh [("K", drippedK), ("G", drippedG)] [] := by
    intro p hp
    cases hp
  have hzero : ∃ v, zeroDefault [("K", drippedK), ("G", drippedG)] 7 (.named "K" [onInt "G"]) [] =
      some (.ok v) := ⟨_, rfl⟩
  obtain ⟨v, hv⟩ := hzero
  have hall := allSheltered_of_zero hyg hfresh (fun _ _ _ => .inr ⟨rfl, rfl⟩) hv
  rwa [substTyp_nil] at hall

/-- In `H[int]` the parameter of `H` is left as it stands. -/
theorem nested_param_unresolved :
    zeroOf [("H", drippedH), ("G", drippedG)] 4 (onInt "H") =
        some (.ok (.struct "H" [("g", .struct "G" [("x", .word 0)])])) ∧
      zeroDefault [("H", drippedH), ("G", drippedG)] 5 (onInt "H") [] =
        some (.error (noZero "T")) ∧
      ¬Substitutes [("H", drippedH), ("G", drippedG)] (onInt "H") := by
  have hspec : zeroOf [("H", drippedH), ("G", drippedG)] 4 (onInt "H") =
      some (.ok (.struct "H" [("g", .struct "G" [("x", .word 0)])])) := rfl
  have hrun : zeroDefault [("H", drippedH), ("G", drippedG)] 5 (onInt "H") [] =
      some (.error (noZero "T")) := rfl
  refine ⟨hspec, hrun, fun h => ?_⟩
  obtain ⟨n, hn⟩ := (h _).mpr ⟨4, hspec⟩
  have hl := zeroDefault_mono (Nat.le_max_left n 5) hn
  have hr := zeroDefault_mono (Nat.le_max_right n 5) hrun
  rw [hl] at hr
  cases hr

end BetLang.Zero
