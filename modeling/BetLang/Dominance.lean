import Mathlib.Data.Set.Insert

/-! Dominance in a directed graph with roots: a node is on every walk from a root to another one. -/

namespace Dominance

variable {α : Type} (edge : α → α → Prop)

/-- The nodes of a walk from a root, the last one first. -/
inductive Walk (roots : Set α) : List α → α → Prop where
  | root {r : α} : r ∈ roots → Walk roots [r] r
  | step {vs : List α} {b c : α} : Walk roots vs b → edge b c → Walk roots (c :: vs) c

def Reachable (roots : Set α) (b : α) : Prop := ∃ vs, Walk edge roots vs b

/-- `a` is on every walk to `b`. -/
def Dominates (roots : Set α) (a b : α) : Prop := ∀ vs, Walk edge roots vs b → a ∈ vs

variable {edge} {roots roots' : Set α} {a b c : α} {vs : List α}

theorem Walk.mono (hsub : roots ⊆ roots') (h : Walk edge roots vs b) : Walk edge roots' vs b := by
  induction h with
  | root hr => exact .root (hsub hr)
  | step _ he ih => exact .step ih he

/-- A walk begins at one of its roots. -/
theorem Walk.start (h : Walk edge roots vs b) : ∃ r ∈ roots, Walk edge {r} vs b := by
  induction h with
  | root hr => exact ⟨_, hr, .root rfl⟩
  | step _ he ih =>
    obtain ⟨r, hr, hwalk⟩ := ih
    exact ⟨r, hr, .step hwalk he⟩

/-- The part of a walk from one of its nodes on. -/
theorem Walk.suffix (h : Walk edge roots vs b) (ha : a ∈ vs) :
    ∃ vs', Walk edge {a} vs' b ∧ vs' ⊆ vs := by
  induction h with
  | root hr =>
    rw [List.mem_singleton.mp ha]
    exact ⟨_, .root rfl, List.Subset.refl _⟩
  | @step vs b c _ he ih =>
    rcases List.mem_cons.mp ha with rfl | ha
    · exact ⟨[a], .root rfl, by simp⟩
    · obtain ⟨vs', hwalk, hsub⟩ := ih ha
      exact ⟨c :: vs', .step hwalk he, List.cons_subset_cons c hsub⟩

theorem root_dominates (r b : α) : Dominates edge {r} r b := by
  intro vs h
  induction h with
  | root hr => exact List.mem_singleton.mpr hr.symm
  | step _ _ ih => exact List.mem_cons_of_mem _ ih

theorem Dominates.root (h : Dominates edge roots a b) (hb : b ∈ roots) : a = b :=
  List.mem_singleton.mp (h [b] (.root hb))

/-- A dominator of a node is the node or a dominator of each node before it. -/
theorem Dominates.pred (h : Dominates edge roots a c) (he : edge b c) :
    a = c ∨ Dominates edge roots a b := by
  by_cases hac : a = c
  · exact .inl hac
  · refine .inr fun vs hvs => ?_
    rcases List.mem_cons.mp (h (c :: vs) (.step hvs he)) with heq | hmem
    · exact absurd heq hac
    · exact hmem

theorem Dominates.mono (hsub : roots ⊆ roots') (h : Dominates edge roots' a b) :
    Dominates edge roots a b := fun vs hvs => h vs (hvs.mono hsub)

/-- A relation with the equations of dominance implies it. -/
theorem dominates_of_closed (dom : α → α → Prop) (hroot : ∀ r ∈ roots, ∀ a, dom r a → a = r)
    (hpred : ∀ b c a, Reachable edge roots b → edge b c → dom c a → a = c ∨ dom b a)
    (h : dom b a) : Dominates edge roots a b := by
  intro vs hvs
  induction hvs with
  | root hr => exact List.mem_singleton.mpr (hroot _ hr a h)
  | step hwalk he ih =>
    rcases hpred _ _ a ⟨_, hwalk⟩ he h with rfl | hprev
    · exact List.mem_cons_self
    · exact List.mem_cons_of_mem _ (ih hprev)

/-- Where more roots lead to no other walks to `b` than through the first ones, they change
nothing. -/
theorem dominates_iff_of_through (hsub : roots ⊆ roots')
    (hthrough : ∀ vs, Walk edge roots' vs b → ∃ r ∈ roots, r ∈ vs) :
    Dominates edge roots' a b ↔ Dominates edge roots a b := by
  refine ⟨Dominates.mono hsub, fun h vs hvs => ?_⟩
  obtain ⟨r, hr, hmem⟩ := hthrough vs hvs
  obtain ⟨vs', hwalk, hsubset⟩ := hvs.suffix hmem
  exact hsubset (h vs' (hwalk.mono (Set.singleton_subset_iff.mpr hr)))

end Dominance
