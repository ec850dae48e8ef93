import Mathlib.Data.Nat.Prime.Basic
import Mathlib.Dynamics.PeriodicPts.Lemmas
import Mathlib.SetTheory.Cardinal.NatCard

/-! Maps of a finite type with one fixed point and one orbit besides. -/

namespace FullPeriod

open Function

variable {α : Type*} {f : α → α} {v x y z : α} {n : Nat}

/-- A period is the least one when no prime can be taken out of it. -/
theorem minimalPeriod_eq (hper : f^[n] v = v)
    (hprime : ∀ q, q.Prime → q ∣ n → f^[n / q] v ≠ v) : minimalPeriod f v = n := by
  have hdvd : minimalPeriod f v ∣ n := IsPeriodicPt.minimalPeriod_dvd hper
  by_contra hne
  obtain ⟨m, hm⟩ := hdvd
  have hm1 : m ≠ 1 := by
    intro h
    rw [h, Nat.mul_one] at hm
    exact hne hm.symm
  obtain ⟨q, hq, t, ht⟩ := Nat.exists_prime_and_dvd hm1
  have hquot : n / q = minimalPeriod f v * t := by
    rw [hm, ht, Nat.mul_left_comm, Nat.mul_div_cancel_left _ hq.pos]
  have hdiv : q ∣ n := ⟨minimalPeriod f v * t, by rw [hm, ht, Nat.mul_left_comm]⟩
  have hback : IsPeriodicPt f (n / q) v := by
    rw [hquot]
    exact (isPeriodicPt_minimalPeriod f v).mul_const t
  exact hprime q hq hdiv hback

theorem iterate_ne (hf : Injective f) (hz : f z = z) (hv : v ≠ z) (k : Nat) : f^[k] v ≠ z := by
  intro h
  have hfix : f^[k] z = z := iterate_fixed hz k
  exact hv (hf.iterate k (h.trans hfix.symm))

/-- The orbit of `v` is everything but the fixed point. -/
theorem exists_iterate_eq [Finite α] (hf : Injective f) (hz : f z = z) (hv : v ≠ z)
    (hcard : Nat.card α = minimalPeriod f v + 1) (hx : x ≠ z) : ∃ k, f^[k] v = x := by
  let points : Option (Fin (minimalPeriod f v)) → α := fun k => k.elim z fun k => f^[k] v
  have hinj : Injective points := by
    intro i j hij
    cases i with
    | none =>
      cases j with
      | none => rfl
      | some j => exact absurd hij.symm (iterate_ne hf hz hv j)
    | some i =>
      cases j with
      | none => exact absurd hij (iterate_ne hf hz hv i)
      | some j =>
        have hval : (i : Nat) = j := iterate_injOn_Iio_minimalPeriod i.isLt j.isLt hij
        rw [Fin.ext hval]
  have hsize : Nat.card (Option (Fin (minimalPeriod f v))) = Nat.card α := by
    rw [Finite.card_option, Nat.card_fin, hcard]
  have hsurj : Surjective points :=
    ((Nat.bijective_iff_injective_and_card points).mpr ⟨hinj, hsize⟩).2
  obtain ⟨k, hk⟩ := hsurj x
  cases k with
  | none => exact absurd hk.symm hx
  | some k => exact ⟨k, hk⟩

/-- Any two points besides the fixed one are on one orbit. -/
theorem reaches [Finite α] (hf : Injective f) (hz : f z = z) (hv : v ≠ z)
    (hcard : Nat.card α = minimalPeriod f v + 1) (hx : x ≠ z) (hy : y ≠ z) :
    ∃ k, f^[k] x = y := by
  obtain ⟨i, rfl⟩ := exists_iterate_eq hf hz hv hcard hx
  obtain ⟨j, rfl⟩ := exists_iterate_eq hf hz hv hcard hy
  have hpos : 0 < minimalPeriod f v := minimalPeriod_pos_of_mem_periodicPts (hf.mem_periodicPts v)
  have hle : i ≤ minimalPeriod f v * i := Nat.le_mul_of_pos_left i hpos
  have hround : IsPeriodicPt f (minimalPeriod f v * i) v :=
    (isPeriodicPt_minimalPeriod f v).mul_const i
  refine ⟨j + (minimalPeriod f v * i - i), ?_⟩
  rw [← iterate_add_apply, Nat.add_assoc, Nat.sub_add_cancel hle, iterate_add_apply, hround]

end FullPeriod
