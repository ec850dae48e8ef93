import Mathlib.Control.Basic

/-! Computations on a state that a failure leaves as it is: what a success went through, and what
every outcome keeps. -/

namespace Stateful

variable {σ ε α β : Type}

def Comp (σ ε α : Type) := σ → Except ε α × σ

def Comp.run (x : Comp σ ε α) (s : σ) : Except ε α × σ := x s

instance : Monad (Comp σ ε) where
  pure a := fun s => (.ok a, s)
  bind x f := fun s =>
    match x s with
    | (.ok a, s') => (f a).run s'
    | (.error e, s') => (.error e, s')

def fail (e : ε) : Comp σ ε α := fun s => (.error e, s)

def get : Comp σ ε σ := fun s => (.ok s, s)

def modify (f : σ → σ) : Comp σ ε Unit := fun s => (.ok (), f s)

/-- The failure of a computation, if any, as a value. -/
def attempt (x : Comp σ ε α) : Comp σ ε (Except ε α) := fun s => (.ok (x s).1, (x s).2)

def ofExcept (r : Except ε α) : Comp σ ε α := fun s => (r, s)

theorem run_pure (a : α) (s : σ) : (pure a : Comp σ ε α).run s = (.ok a, s) := rfl

theorem run_bind (x : Comp σ ε α) (f : α → Comp σ ε β) (s : σ) :
    (x >>= f).run s =
      match x.run s with
      | (.ok a, s') => (f a).run s'
      | (.error e, s') => (.error e, s') := rfl

instance : LawfulMonad (Comp σ ε) :=
  LawfulMonad.mk' (Comp σ ε)
    (fun x => by
      funext s
      show (match x s with | (.ok a, s') => (.ok a, s') | (.error e, s') => (.error e, s')) = x s
      cases hx : x s with
      | mk r s' => cases r <;> rfl)
    (fun _ _ => rfl)
    (fun x f g => by
      funext s
      show ((x >>= f) >>= g).run s = (x >>= fun a => f a >>= g).run s
      rw [run_bind, run_bind, run_bind]
      cases hx : x.run s with
      | mk r s' => cases r <;> rfl)

theorem bind_ok {x : Comp σ ε α} {f : α → Comp σ ε β} {s s' : σ} {b : β} :
    (x >>= f).run s = (.ok b, s') ↔
      ∃ a s₁, x.run s = (.ok a, s₁) ∧ (f a).run s₁ = (.ok b, s') := by
  rw [run_bind]
  cases hx : x.run s with
  | mk r s₁ =>
    cases r with
    | ok a =>
      constructor
      · exact fun h => ⟨a, s₁, rfl, h⟩
      · rintro ⟨a', s₂, heq, h⟩
        cases heq
        exact h
    | error e =>
      constructor
      · intro h
        cases h
      · rintro ⟨a', s₂, heq, _⟩
        cases heq

theorem attempt_ok {x : Comp σ ε α} {r : Except ε α} {s s' : σ} :
    (attempt x).run s = (.ok r, s') ↔ x.run s = (r, s') := by
  have hrun : (attempt x).run s = (.ok (x.run s).1, (x.run s).2) := rfl
  rw [hrun, Prod.ext_iff, Prod.ext_iff]
  simp

/-- Every outcome of a computation keeps a property of the state. -/
def Keeps (P : σ → Prop) (x : Comp σ ε α) : Prop :=
  ∀ s, P s → P (x.run s).2

variable {P : σ → Prop}

theorem keeps_pure (a : α) : Keeps P (pure a : Comp σ ε α) := fun _ h => h

theorem keeps_fail (e : ε) : Keeps P (fail e : Comp σ ε α) := fun _ h => h

theorem keeps_get : Keeps P (get : Comp σ ε σ) := fun _ h => h

theorem keeps_bind {x : Comp σ ε α} {f : α → Comp σ ε β} (hx : Keeps P x)
    (hf : ∀ a, Keeps P (f a)) : Keeps P (x >>= f) := by
  intro s hs
  have hs₁ := hx s hs
  rw [run_bind]
  cases hr : x.run s with
  | mk r s₁ =>
    rw [hr] at hs₁
    cases r with
    | ok a => exact hf a s₁ hs₁
    | error e => exact hs₁

theorem keeps_attempt {x : Comp σ ε α} (hx : Keeps P x) : Keeps P (attempt x) := hx

theorem keeps_mapM {f : α → Comp σ ε β} {as : List α} (hf : ∀ a ∈ as, Keeps P (f a)) :
    Keeps P (as.mapM f) := by
  induction as with
  | nil => exact keeps_pure []
  | cons a as ih =>
    rw [List.mapM_cons]
    refine keeps_bind (hf a List.mem_cons_self) fun b => ?_
    exact keeps_bind (ih fun x hx => hf x (List.mem_cons_of_mem _ hx)) fun bs => keeps_pure _

theorem keeps_forM {f : α → Comp σ ε PUnit} {as : List α} (hf : ∀ a ∈ as, Keeps P (f a)) :
    Keeps P (as.forM f) := by
  induction as with
  | nil => exact keeps_pure _
  | cons a as ih =>
    exact keeps_bind (hf a List.mem_cons_self) fun _ =>
      ih fun x hx => hf x (List.mem_cons_of_mem _ hx)

end Stateful
