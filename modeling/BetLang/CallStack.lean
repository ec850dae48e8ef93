import Mathlib.Data.List.Chain

/-! Calls that go down a rank, but for those of marked functions, nest no deeper than the marked
ones do, up to a factor. -/

namespace BetLang.CallStack

variable {F : Type} (marked : F → Bool) (rank : F → Nat)

/-- A call to a marked function, or further down. -/
def Descends (callee caller : F) : Prop := marked callee = true ∨ rank callee < rank caller

variable {marked rank}

/-- What one segment of unmarked calls adds. -/
theorem length_rank_le {r : Nat} (hrank : ∀ f, rank f ≤ r) {f : F} {stack : List F}
    (h : (f :: stack).IsChain (Descends marked rank)) :
    (f :: stack).length + rank f ≤ (r + 1) * ((f :: stack).countP marked + 1) := by
  induction stack generalizing f with
  | nil =>
    have := hrank f
    have hle : r + 1 ≤ (r + 1) * ([f].countP marked + 1) := Nat.le_mul_of_pos_right _ (by omega)
    simp only [List.length_cons, List.length_nil]
    omega
  | cons g stack ih =>
    rw [List.isChain_cons_cons] at h
    have hbelow := ih h.2
    simp only [List.length_cons] at hbelow ⊢
    by_cases hf : marked f = true
    · have := hrank f
      rw [List.countP_cons_of_pos hf, Nat.mul_add (r + 1) _ 1]
      omega
    · rw [List.countP_cons_of_neg hf]
      rcases h.1 with hmark | hless
      · exact absurd hmark hf
      · omega

theorem length_le {r : Nat} (hrank : ∀ f, rank f ≤ r) {stack : List F}
    (h : stack.IsChain (Descends marked rank)) :
    stack.length ≤ (r + 1) * (stack.countP marked + 1) := by
  cases stack with
  | nil => simp
  | cons f stack => exact Nat.le_trans (Nat.le_add_right _ _) (length_rank_le hrank h)

end BetLang.CallStack
