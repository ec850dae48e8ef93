import Mathlib.Control.Monad.Writer

/-! Computations that collect problems and go on: those that end without any. -/

namespace Diagnostics

variable {ε α β : Type}

/-- The result of a computation that neither fails nor reports anything. -/
def Clean (x : WriterT (List ε) Option α) (a : α) : Prop := x.run = some (a, [])

theorem clean_pure {a b : α} : Clean (pure a : WriterT (List ε) Option α) b ↔ a = b := by
  constructor
  · intro h
    exact congrArg Prod.fst (Option.some.inj h)
  · rintro rfl
    rfl

theorem not_clean_tell {e : ε} {u : Unit} :
    ¬Clean (tell [e] : WriterT (List ε) Option Unit) u := by
  intro h
  have hw := congrArg Prod.snd (Option.some.inj h)
  cases hw

theorem run_bind (x : WriterT (List ε) Option α) (f : α → WriterT (List ε) Option β) :
    (x >>= f).run = x.run.bind fun p => ((f p.1).run).map fun q => (q.1, p.2 ++ q.2) := rfl

theorem clean_bind {x : WriterT (List ε) Option α} {f : α → WriterT (List ε) Option β} {b : β} :
    Clean (x >>= f) b ↔ ∃ a, Clean x a ∧ Clean (f a) b := by
  constructor
  · intro h
    unfold Clean at h
    rw [run_bind, Option.bind_eq_some_iff] at h
    obtain ⟨⟨a, w⟩, hx, h⟩ := h
    obtain ⟨⟨b', w'⟩, hf, h⟩ := Option.map_eq_some_iff.mp h
    obtain ⟨rfl, hw⟩ := Prod.mk.inj h
    obtain ⟨rfl, rfl⟩ := List.append_eq_nil_iff.mp hw
    exact ⟨a, hx, hf⟩
  · rintro ⟨a, hx, hf⟩
    unfold Clean at hx hf ⊢
    rw [run_bind, hx, Option.bind_some, hf]
    rfl

theorem clean_forM {f : α → WriterT (List ε) Option Unit} {xs : List α} {u : Unit} :
    Clean (xs.forM f) u ↔ ∀ x ∈ xs, Clean (f x) () := by
  induction xs with
  | nil =>
    constructor
    · exact fun _ x hx => absurd hx List.not_mem_nil
    · exact fun _ => rfl
  | cons x xs ih =>
    rw [List.forM_eq_forM, List.forM_cons, clean_bind, List.forall_mem_cons]
    constructor
    · rintro ⟨_, hx, hxs⟩
      exact ⟨hx, ih.mp hxs⟩
    · rintro ⟨hx, hxs⟩
      exact ⟨(), hx, ih.mpr hxs⟩

end Diagnostics
