import Mathlib.Tactic.Common

/-! Computations on a state that report what they do on the way: triples that assume good reports,
and relations between the first state and the last. -/

namespace Traced

variable {σ ω ε α β : Type}

structure Result (σ ω ε α : Type) where
  outcome : Except ε α
  state : σ
  trace : List ω

def Comp (σ ω ε α : Type) := σ → Result σ ω ε α

def Comp.run (x : Comp σ ω ε α) (s : σ) : Result σ ω ε α := x s

instance : Monad (Comp σ ω ε) where
  pure a := fun s => ⟨.ok a, s, []⟩
  bind x f := fun s =>
    match x s with
    | ⟨.ok a, s₁, ws⟩ =>
      match (f a).run s₁ with
      | ⟨r, s₂, ws'⟩ => ⟨r, s₂, ws ++ ws'⟩
    | ⟨.error e, s₁, ws⟩ => ⟨.error e, s₁, ws⟩

def fail (e : ε) : Comp σ ω ε α := fun s => ⟨.error e, s, []⟩

def get : Comp σ ω ε σ := fun s => ⟨.ok s, s, []⟩

def modify (f : σ → σ) : Comp σ ω ε Unit := fun s => ⟨.ok (), f s, []⟩

def report (ws : List ω) : Comp σ ω ε Unit := fun s => ⟨.ok (), s, ws⟩

def ofExcept (r : Except ε α) : Comp σ ω ε α := fun s => ⟨r, s, []⟩

/-- A failure that is `catchable` as a value. -/
def attempt (catchable : ε → Bool) (x : Comp σ ω ε α) : Comp σ ω ε (Except ε α) := fun s =>
  match x s with
  | ⟨.ok a, s', ws⟩ => ⟨.ok (.ok a), s', ws⟩
  | ⟨.error e, s', ws⟩ =>
    if catchable e then ⟨.ok (.error e), s', ws⟩ else ⟨.error e, s', ws⟩

theorem run_bind_ok {x : Comp σ ω ε α} {f : α → Comp σ ω ε β} {s s₁ : σ} {a : α} {ws : List ω}
    (h : x.run s = ⟨.ok a, s₁, ws⟩) :
    (x >>= f).run s =
      ⟨((f a).run s₁).outcome, ((f a).run s₁).state, ws ++ ((f a).run s₁).trace⟩ := by
  show (match x.run s with
    | ⟨.ok a, s₁, ws⟩ =>
      match (f a).run s₁ with
      | ⟨r, s₂, ws'⟩ => (⟨r, s₂, ws ++ ws'⟩ : Result σ ω ε β)
    | ⟨.error e, s₁, ws⟩ => ⟨.error e, s₁, ws⟩) = _
  rw [h]

theorem run_bind_error {x : Comp σ ω ε α} {f : α → Comp σ ω ε β} {s s₁ : σ} {e : ε} {ws : List ω}
    (h : x.run s = ⟨.error e, s₁, ws⟩) : (x >>= f).run s = ⟨.error e, s₁, ws⟩ := by
  show (match x.run s with
    | ⟨.ok a, s₁, ws⟩ =>
      match (f a).run s₁ with
      | ⟨r, s₂, ws'⟩ => (⟨r, s₂, ws ++ ws'⟩ : Result σ ω ε β)
    | ⟨.error e, s₁, ws⟩ => ⟨.error e, s₁, ws⟩) = _
  rw [h]

theorem run_attempt_ok {catchable : ε → Bool} {x : Comp σ ω ε α} {s s₁ : σ} {a : α} {ws : List ω}
    (h : x.run s = ⟨.ok a, s₁, ws⟩) : (attempt catchable x).run s = ⟨.ok (.ok a), s₁, ws⟩ := by
  show (match x.run s with
    | ⟨.ok a, s', ws⟩ => (⟨.ok (.ok a), s', ws⟩ : Result σ ω ε (Except ε α))
    | ⟨.error e, s', ws⟩ =>
      if catchable e then ⟨.ok (.error e), s', ws⟩ else ⟨.error e, s', ws⟩) = _
  rw [h]

theorem run_attempt_error {catchable : ε → Bool} {x : Comp σ ω ε α} {s s₁ : σ} {e : ε}
    {ws : List ω} (h : x.run s = ⟨.error e, s₁, ws⟩) :
    (attempt catchable x).run s =
      if catchable e then ⟨.ok (.error e), s₁, ws⟩ else ⟨.error e, s₁, ws⟩ := by
  show (match x.run s with
    | ⟨.ok a, s', ws⟩ => (⟨.ok (.ok a), s', ws⟩ : Result σ ω ε (Except ε α))
    | ⟨.error e, s', ws⟩ =>
      if catchable e then ⟨.ok (.error e), s', ws⟩ else ⟨.error e, s', ws⟩) = _
  rw [h]

def Outcome (Q : α → Prop) (E : ε → Prop) : Except ε α → Prop
  | .ok a => Q a
  | .error e => E e

section Triple

/-- As long as every report is good, the invariant goes on and the outcome is as stated. -/
def Triple (good : ω → Prop) (I : σ → Prop) (E : ε → Prop) (Q : α → Prop) (x : Comp σ ω ε α) :
    Prop :=
  ∀ s, I s → (∀ w ∈ (x.run s).trace, good w) →
    I (x.run s).state ∧ Outcome Q E (x.run s).outcome

variable {good : ω → Prop} {I : σ → Prop} {E : ε → Prop} {P Q : α → Prop}

theorem Triple.pure {a : α} (h : Q a) : Triple good I E Q (Pure.pure a : Comp σ ω ε α) :=
  fun _ hI _ => ⟨hI, h⟩

theorem Triple.fail {e : ε} (h : E e) : Triple good I E Q (fail e : Comp σ ω ε α) :=
  fun _ hI _ => ⟨hI, h⟩

theorem Triple.get : Triple good I E I (get : Comp σ ω ε σ) := fun _ hI _ => ⟨hI, hI⟩

theorem Triple.modify {f : σ → σ} (h : ∀ s, I s → I (f s)) :
    Triple good I E (fun _ => True) (modify f : Comp σ ω ε Unit) :=
  fun s hI _ => ⟨h s hI, trivial⟩

/-- Behind a report, it may be taken to be good. -/
theorem Triple.report {ws : List ω} :
    Triple good I E (fun _ => ∀ w ∈ ws, good w) (report ws : Comp σ ω ε Unit) :=
  fun _ hI hg => ⟨hI, hg⟩

theorem Triple.ofExcept {r : Except ε α} (h : Outcome Q E r) :
    Triple good I E Q (ofExcept r : Comp σ ω ε α) :=
  fun _ hI _ => ⟨hI, h⟩

theorem Triple.bind {R : β → Prop} {x : Comp σ ω ε α} {f : α → Comp σ ω ε β}
    (hx : Triple good I E P x) (hf : ∀ a, P a → Triple good I E R (f a)) :
    Triple good I E R (x >>= f) := by
  intro s hI hg
  have hx' := hx s hI
  cases hr : x.run s with
  | mk r s₁ ws =>
    rw [hr] at hx'
    cases r with
    | ok a =>
      rw [run_bind_ok hr] at hg ⊢
      obtain ⟨hI₁, ha⟩ := hx' fun w hw => hg w (List.mem_append_left _ hw)
      exact hf a ha s₁ hI₁ fun w hw => hg w (List.mem_append_right _ hw)
    | error e =>
      rw [run_bind_error hr] at hg ⊢
      exact hx' hg

theorem Triple.attempt {catchable : ε → Bool} {x : Comp σ ω ε α} (hx : Triple good I E Q x) :
    Triple good I E (Outcome Q E) (attempt catchable x) := by
  intro s hI hg
  have hx' := hx s hI
  cases hr : x.run s with
  | mk r s₁ ws =>
    rw [hr] at hx'
    cases r with
    | ok a =>
      rw [run_attempt_ok hr] at hg ⊢
      exact hx' hg
    | error e =>
      rw [run_attempt_error hr] at hg ⊢
      by_cases hc : catchable e = true
      · rw [if_pos hc] at hg ⊢
        exact hx' hg
      · rw [if_neg hc] at hg ⊢
        exact hx' hg

end Triple

section Leads

/-- The relations between the first state and the last: of a success, and of an error that is not
one of being stuck. -/
def Leads (R F : σ → σ → Prop) (stuck : ε → Prop) (x : Comp σ ω ε α) : Prop :=
  ∀ s, Outcome (fun _ => R s (x.run s).state) (fun e => ¬stuck e → F s (x.run s).state)
    (x.run s).outcome

/-- No error but that of being stuck. -/
def Never (_ _ : σ) : Prop := False

variable {R F R₁ F₁ R₂ F₂ : σ → σ → Prop} {stuck : ε → Prop}

theorem Leads.pure (hrefl : ∀ s, R s s) {a : α} :
    Leads R F stuck (Pure.pure a : Comp σ ω ε α) := fun s => hrefl s

theorem Leads.fail (hrefl : ∀ s, F s s) {e : ε} : Leads R F stuck (fail e : Comp σ ω ε α) :=
  fun s _ => hrefl s

theorem Leads.get (hrefl : ∀ s, R s s) : Leads R F stuck (get : Comp σ ω ε σ) := fun s => hrefl s

theorem Leads.report (hrefl : ∀ s, R s s) {ws : List ω} :
    Leads R F stuck (report ws : Comp σ ω ε Unit) := fun s => hrefl s

theorem Leads.modify {f : σ → σ} (h : ∀ s, R s (f s)) :
    Leads R F stuck (modify f : Comp σ ω ε Unit) := fun s => h s

theorem Leads.ofExcept (hR : ∀ s, R s s) (hF : ∀ s, F s s) {r : Except ε α} :
    Leads R F stuck (ofExcept r : Comp σ ω ε α) := by
  intro s
  cases r with
  | ok a => exact hR s
  | error e => exact fun _ => hF s

theorem Leads.mono {x : Comp σ ω ε α} (hx : Leads R₁ F₁ stuck x) (hR : ∀ s t, R₁ s t → R s t)
    (hF : ∀ s t, F₁ s t → F s t) : Leads R F stuck x := by
  intro s
  have hx' := hx s
  cases ho : (x.run s).outcome with
  | ok a =>
    rw [ho] at hx'
    exact hR _ _ hx'
  | error e =>
    rw [ho] at hx'
    exact fun he => hF _ _ (hx' he)

theorem Leads.bind {x : Comp σ ω ε α} {f : α → Comp σ ω ε β} (hx : Leads R₁ F₁ stuck x)
    (hf : ∀ a, Leads R₂ F₂ stuck (f a)) (hR : ∀ s t u, R₁ s t → R₂ t u → R s u)
    (hF : ∀ s t u, R₁ s t → F₂ t u → F s u) (hF₁ : ∀ s t, F₁ s t → F s t) :
    Leads R F stuck (x >>= f) := by
  intro s
  have hx' := hx s
  cases hr : x.run s with
  | mk r s₁ ws =>
    rw [hr] at hx'
    cases r with
    | ok a =>
      rw [run_bind_ok hr]
      have hf' := hf a s₁
      cases ho : ((f a).run s₁).outcome with
      | ok b =>
        rw [ho] at hf'
        exact hR _ _ _ hx' hf'
      | error e =>
        rw [ho] at hf'
        exact fun he => hF _ _ _ hx' (hf' he)
    | error e =>
      rw [run_bind_error hr]
      exact fun he => hF₁ _ _ (hx' he)

/-- It is enough to look at each first state by itself. -/
theorem Leads.at {x : Comp σ ω ε α}
    (h : ∀ s₀, Leads (fun t u => t = s₀ → R s₀ u) (fun t u => t = s₀ → F s₀ u) stuck x) :
    Leads R F stuck x := by
  intro s
  have hs := h s s
  cases ho : (x.run s).outcome with
  | ok a =>
    rw [ho] at hs
    exact hs rfl
  | error e =>
    rw [ho] at hs
    exact fun he => hs he rfl

theorem Leads.attempt {catchable : ε → Bool} (hstuck : ∀ e, catchable e = true ↔ ¬stuck e)
    {x : Comp σ ω ε α} (hx : Leads R₁ F₁ stuck x) (hR : ∀ s t, R₁ s t → R s t)
    (hF : ∀ s t, F₁ s t → R s t) : Leads R Never stuck (attempt catchable x) := by
  intro s
  have hx' := hx s
  cases hr : x.run s with
  | mk r s₁ ws =>
    rw [hr] at hx'
    cases r with
    | ok a =>
      rw [run_attempt_ok hr]
      exact hR _ _ hx'
    | error e =>
      rw [run_attempt_error hr]
      by_cases hc : catchable e = true
      · rw [if_pos hc]
        exact hF _ _ (hx' ((hstuck e).mp hc))
      · rw [if_neg hc]
        exact fun he => hc ((hstuck e).mpr he)

end Leads

end Traced
