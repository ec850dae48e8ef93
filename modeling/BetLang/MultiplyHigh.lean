import Mathlib.Algebra.BigOperators.Group.Finset.Basic
import Mathlib.Order.Interval.Finset.Nat
import Mathlib.Tactic.Ring

/-! Mapping `W` words to `n` values by the high half of a product, with the words redrawn whose low
half is below `W % n`. -/

namespace MultiplyHigh

open Finset

variable {W n r x : Nat}

def high (W n x : Nat) : Nat := x * n / W

def Rejected (W n x : Nat) : Prop := x * n % W < W % n

instance : DecidablePred (Rejected W n) := fun x => inferInstanceAs (Decidable (x * n % W < W % n))

theorem high_lt (hx : x < W) (hn : 0 < n) : high W n x < n := by
  exact Nat.div_lt_of_lt_mul (Nat.mul_lt_mul_of_pos_right hx hn)

/-- The first multiple of `n` not below `a`. -/
theorem le_mul_iff (hn : 0 < n) (a x : Nat) : a ≤ x * n ↔ (a + (n - 1)) / n ≤ x := by
  rw [Nat.div_le_iff_le_mul_add_pred hn, Nat.mul_comm n x, Nat.add_le_add_iff_right]

/-- The words accepted for `r` are `W / n` in a row. -/
theorem accepted_iff (hn : 0 < n) (hW : 0 < W) :
    ¬Rejected W n x ∧ high W n x = r ↔
      (r * W + W % n + (n - 1)) / n ≤ x ∧ x < (r * W + W % n + (n - 1)) / n + W / n := by
  have hstep : r * W + W % n + n * (W / n) = (r + 1) * W := by
    rw [Nat.add_assoc, Nat.mod_add_div, Nat.add_mul, Nat.one_mul]
  have hupper : (r * W + W % n + n * (W / n) + (n - 1)) / n =
      (r * W + W % n + (n - 1)) / n + W / n := by
    rw [Nat.add_right_comm, Nat.add_mul_div_left _ _ hn]
  have hsplit : W * (x * n / W) + x * n % W = x * n := Nat.div_add_mod ..
  rw [← le_mul_iff hn, ← hupper, ← Nat.not_le, ← le_mul_iff hn, hstep, Rejected, high, Nat.not_lt,
    Nat.not_le]
  constructor
  · rintro ⟨hlow, rfl⟩
    have hmod : x * n % W < W := Nat.mod_lt _ hW
    rw [Nat.mul_comm] at hsplit
    rw [Nat.add_mul, Nat.one_mul]
    constructor
    · omega
    · omega
  · rintro ⟨hge, hlt⟩
    have hquot : x * n / W = r := by
      refine Nat.div_eq_of_lt_le (by omega) hlt
    rw [hquot, Nat.mul_comm] at hsplit
    exact ⟨by omega, hquot⟩

theorem card_accepted (hn : 0 < n) (hr : r < n) :
    {x ∈ range W | ¬Rejected W n x ∧ high W n x = r}.card = W / n := by
  obtain rfl | hW := Nat.eq_zero_or_pos W
  · simp
  · have hIco : {x ∈ range W | ¬Rejected W n x ∧ high W n x = r} =
        Ico ((r * W + W % n + (n - 1)) / n) ((r * W + W % n + (n - 1)) / n + W / n) := by
      ext x
      rw [mem_filter, mem_range, mem_Ico, accepted_iff hn hW]
      refine ⟨And.right, fun h => ⟨?_, h⟩⟩
      obtain ⟨_, hhigh⟩ := (accepted_iff hn hW).mpr h
      have hlt : x * n < W * n := by
        rw [high] at hhigh
        rw [Nat.mul_comm W, ← Nat.div_lt_iff_lt_mul hW, hhigh]
        exact hr
      exact Nat.lt_of_mul_lt_mul_right hlt
    rw [hIco, Nat.card_Ico, Nat.add_sub_cancel_left]

theorem card_rejected (hn : 0 < n) : {x ∈ range W | Rejected W n x}.card = W % n := by
  have hfibers : {x ∈ range W | ¬Rejected W n x}.card = n * (W / n) := by
    have hmaps : ∀ x ∈ {x ∈ range W | ¬Rejected W n x}, high W n x ∈ range n := by
      intro x hx
      rw [mem_filter, mem_range] at hx
      exact mem_range.mpr (high_lt hx.1 hn)
    have hfiber : ∀ r ∈ range n,
        {x ∈ {x ∈ range W | ¬Rejected W n x} | high W n x = r}.card = W / n := by
      intro r hr
      rw [filter_filter]
      exact card_accepted hn (mem_range.mp hr)
    rw [card_eq_sum_card_fiberwise hmaps, sum_const_nat hfiber, card_range]
  have hall : {x ∈ range W | Rejected W n x}.card + n * (W / n) = W := by
    rw [← hfibers, card_filter_add_card_filter_not, card_range]
  have hdiv := Nat.mod_add_div W n
  omega

/-- Fewer than half of the words are rejected. -/
theorem two_mul_mod_lt (hn : 0 < n) (hle : n ≤ W) : 2 * (W % n) < W := by
  have hmod : W % n < n := Nat.mod_lt W hn
  have hdiv := Nat.mod_add_div W n
  have hquot : 1 * n ≤ n * (W / n) := by
    rw [Nat.mul_comm]
    exact Nat.mul_le_mul_left n (Nat.div_pos hle hn)
  omega

/-- The last word is never rejected. -/
theorem last_accepted (hn : 0 < n) (hle : n ≤ W) : ¬Rejected W n (W - 1) := by
  have hlow : (W - 1) * n % W = W - n := by
    obtain ⟨k, rfl⟩ := Nat.exists_eq_add_of_le hle
    obtain ⟨m, rfl⟩ := Nat.exists_eq_add_of_le hn
    have hpred : 0 + 1 + m + k - 1 = m + k := by omega
    have hmul : (m + k) * (0 + 1 + m) = (0 + 1 + m + k) * m + k := by ring
    rw [hpred, hmul, Nat.mul_add_mod, Nat.mod_eq_of_lt (by omega), Nat.add_sub_cancel_left]
  have hmod : W % n ≤ W - n := by
    rw [Nat.mod_eq_sub_mod hle]
    exact Nat.mod_le ..
  rw [Rejected, hlow, Nat.not_lt]
  exact hmod

end MultiplyHigh
