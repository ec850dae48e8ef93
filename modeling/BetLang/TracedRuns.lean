import BetLang.Traced

/-! Successful runs of reporting computations: what they yield, and how often they report a kind. -/

namespace Traced

variable {σ ω ε α β : Type}

/-- A successful run, with all that it leaves. -/
def Yields (x : Comp σ ω ε α) (s : σ) (a : α) (s' : σ) (ws : List ω) : Prop :=
  x.run s = ⟨.ok a, s', ws⟩

namespace Yields

variable {s s' s₁ : σ} {a : α} {b : β} {ws ws' : List ω}

theorem bind {x : Comp σ ω ε α} {f : α → Comp σ ω ε β} (hx : Yields x s a s₁ ws)
    (hf : Yields (f a) s₁ b s' ws') : Yields (x >>= f) s b s' (ws ++ ws') := by
  rw [Yields, run_bind_ok hx, hf]

theorem bind_iff {x : Comp σ ω ε α} {f : α → Comp σ ω ε β} {tr : List ω} :
    Yields (x >>= f) s b s' tr ↔
      ∃ a s₁ ws ws', Yields x s a s₁ ws ∧ Yields (f a) s₁ b s' ws' ∧ tr = ws ++ ws' := by
  constructor
  · intro h
    cases hr : x.run s with
    | mk r s₁ ws =>
      cases r with
      | error e =>
        rw [Yields, run_bind_error hr] at h
        cases h
      | ok a =>
        rw [Yields, run_bind_ok hr] at h
        obtain ⟨hout, hst, htr⟩ := Result.mk.inj h
        refine ⟨a, s₁, ws, ((f a).run s₁).trace, hr, ?_, htr.symm⟩
        rw [Yields, ← hout, ← hst]
  · rintro ⟨a, s₁, ws, ws', hx, hf, rfl⟩
    exact hx.bind hf

theorem unique {x : Comp σ ω ε α} {a' : α} (h : Yields x s a s' ws) (h' : Yields x s a' s₁ ws') :
    a = a' ∧ s' = s₁ ∧ ws = ws' := by
  rw [Yields, h] at h'
  obtain ⟨ha, hs, hw⟩ := Result.mk.inj h'
  exact ⟨Except.ok.inj ha, hs, hw⟩

theorem pure_iff {a' : α} :
    Yields (Pure.pure a : Comp σ ω ε α) s a' s' ws ↔ a = a' ∧ s = s' ∧ [] = ws := by
  simp [Yields, Comp.run, Pure.pure]

theorem get_iff {t : σ} :
    Yields (get : Comp σ ω ε σ) s t s' ws ↔ s = t ∧ s = s' ∧ [] = ws := by
  simp [Yields, Comp.run, get]

theorem modify_iff {f : σ → σ} {u : Unit} :
    Yields (modify f : Comp σ ω ε Unit) s u s' ws ↔ f s = s' ∧ [] = ws := by
  simp [Yields, Comp.run, modify]

theorem report_iff {ws' : List ω} {u : Unit} :
    Yields (report ws : Comp σ ω ε Unit) s u s' ws' ↔ s = s' ∧ ws = ws' := by
  simp [Yields, Comp.run, report]

theorem ofExcept_iff {r : Except ε α} :
    Yields (ofExcept r : Comp σ ω ε α) s a s' ws ↔ r = .ok a ∧ s = s' ∧ [] = ws := by
  simp [Yields, Comp.run, ofExcept]

theorem not_fail {e : ε} : ¬Yields (fail e : Comp σ ω ε α) s a s' ws := by
  simp [Yields, Comp.run, fail]

theorem get_bind {f : σ → Comp σ ω ε β} :
    Yields (get >>= f) s b s' ws ↔ Yields (f s) s b s' ws := by
  rw [bind_iff]
  simp only [get_iff]
  constructor
  · rintro ⟨_, _, _, _, ⟨rfl, rfl, rfl⟩, h, rfl⟩
    exact h
  · intro h
    exact ⟨s, s, [], ws, ⟨rfl, rfl, rfl⟩, h, rfl⟩

theorem ofExcept_bind {r : Except ε α} {f : α → Comp σ ω ε β} :
    Yields (ofExcept r >>= f) s b s' ws ↔ ∃ a, r = .ok a ∧ Yields (f a) s b s' ws := by
  rw [bind_iff]
  simp only [ofExcept_iff]
  constructor
  · rintro ⟨a, _, _, _, ⟨ha, rfl, rfl⟩, h, rfl⟩
    exact ⟨a, ha, h⟩
  · rintro ⟨a, ha, h⟩
    exact ⟨a, s, [], ws, ⟨ha, rfl, rfl⟩, h, rfl⟩

theorem report_bind {f : Unit → Comp σ ω ε β} {tr : List ω} :
    Yields (report ws >>= f) s b s' tr ↔ ∃ ws', Yields (f ()) s b s' ws' ∧ tr = ws ++ ws' := by
  rw [bind_iff]
  simp only [report_iff]
  constructor
  · rintro ⟨_, _, _, ws', ⟨rfl, rfl⟩, h, rfl⟩
    exact ⟨ws', h, rfl⟩
  · rintro ⟨ws', h, rfl⟩
    exact ⟨(), s, ws, ws', ⟨rfl, rfl⟩, h, rfl⟩

theorem modify_bind {f : σ → σ} {g : Unit → Comp σ ω ε β} :
    Yields (modify f >>= g) s b s' ws ↔ Yields (g ()) (f s) b s' ws := by
  rw [bind_iff]
  simp only [modify_iff]
  constructor
  · rintro ⟨_, _, _, _, ⟨rfl, rfl⟩, h, rfl⟩
    exact h
  · intro h
    exact ⟨(), f s, [], ws, ⟨rfl, rfl⟩, h, rfl⟩

end Yields

/-- Bounds on how many of the reports of a successful run are of a kind. -/
def Counts (kind : ω → Bool) (lo hi : Nat) (x : Comp σ ω ε α) : Prop :=
  ∀ s a, (x.run s).outcome = .ok a →
    lo ≤ (x.run s).trace.countP kind ∧ (x.run s).trace.countP kind ≤ hi

namespace Counts

variable {kind : ω → Bool} {lo hi lo' hi' : Nat}

theorem pure {a : α} : Counts kind 0 0 (Pure.pure a : Comp σ ω ε α) :=
  fun _ _ _ => ⟨Nat.le_refl _, Nat.le_refl _⟩

theorem get : Counts kind 0 0 (get : Comp σ ω ε σ) := fun _ _ _ => ⟨Nat.le_refl _, Nat.le_refl _⟩

theorem modify {f : σ → σ} : Counts kind 0 0 (modify f : Comp σ ω ε Unit) :=
  fun _ _ _ => ⟨Nat.le_refl _, Nat.le_refl _⟩

theorem ofExcept {r : Except ε α} : Counts kind 0 0 (ofExcept r : Comp σ ω ε α) :=
  fun _ _ _ => ⟨Nat.le_refl _, Nat.le_refl _⟩

theorem fail {e : ε} : Counts kind lo hi (fail e : Comp σ ω ε α) := fun _ _ h => nomatch h

theorem report {ws : List ω} {n : Nat} (h : ws.countP kind = n) :
    Counts kind n n (report ws : Comp σ ω ε Unit) :=
  fun _ _ _ => ⟨Nat.le_of_eq h.symm, Nat.le_of_eq h⟩

theorem mono {x : Comp σ ω ε α} (h : Counts kind lo hi x) (hlo : lo' ≤ lo) (hhi : hi ≤ hi') :
    Counts kind lo' hi' x := fun s a hok =>
  ⟨Nat.le_trans hlo (h s a hok).1, Nat.le_trans (h s a hok).2 hhi⟩

theorem bind {x : Comp σ ω ε α} {f : α → Comp σ ω ε β} (hx : Counts kind lo hi x)
    (hf : ∀ a, Counts kind lo' hi' (f a)) : Counts kind (lo + lo') (hi + hi') (x >>= f) := by
  intro s b hb
  cases hr : x.run s with
  | mk r s₁ ws =>
    cases r with
    | error e =>
      rw [run_bind_error hr] at hb
      cases hb
    | ok a =>
      rw [run_bind_ok hr] at hb ⊢
      have h₁ := hx s a (by rw [hr])
      have h₂ := hf a s₁ b hb
      simp only [hr] at h₁
      simp only [List.countP_append]
      omega

theorem bind_free {x : Comp σ ω ε α} {f : α → Comp σ ω ε β} (hx : Counts kind lo hi x)
    (hf : ∀ a, Counts kind 0 0 (f a)) : Counts kind lo hi (x >>= f) :=
  hx.bind hf

theorem free_bind {x : Comp σ ω ε α} {f : α → Comp σ ω ε β} (hx : Counts kind 0 0 x)
    (hf : ∀ a, Counts kind lo hi (f a)) : Counts kind lo hi (x >>= f) :=
  (hx.bind hf).mono (by omega) (by omega)

end Counts

end Traced
