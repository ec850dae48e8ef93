import Mathlib.Tactic.Common

/-! Regions of an address space: containment and disjointness. -/

namespace Regions

structure Region where
  base : Nat
  size : Nat
  deriving DecidableEq, Repr

namespace Region

def stop (r : Region) : Nat := r.base + r.size

def Has (r : Region) (x : Nat) : Prop := r.base ≤ x ∧ x < r.stop

/-- No address is in both; an empty region is apart from every other. -/
def Apart (r s : Region) : Prop := ∀ x, r.Has x → ¬s.Has x

def Within (r s : Region) : Prop := s.base ≤ r.base ∧ r.stop ≤ s.stop

variable {r s t u : Region}

theorem Apart.symm (h : r.Apart s) : s.Apart r := fun x hs hr => h x hr hs

theorem apart_of_le (h : r.stop ≤ s.base) : r.Apart s := by
  intro x hr hs
  have hlt := Nat.lt_of_lt_of_le hr.2 h
  exact absurd hs.1 (Nat.not_le_of_lt hlt)

theorem Within.has (h : r.Within s) {x : Nat} (hx : r.Has x) : s.Has x :=
  ⟨Nat.le_trans h.1 hx.1, Nat.lt_of_lt_of_le hx.2 h.2⟩

theorem Apart.within (h : s.Apart u) (hr : r.Within s) (ht : t.Within u) : r.Apart t :=
  fun x hx ht' => h x (hr.has hx) (ht.has ht')

end Region

/-- Each region is apart from the ones behind it in the list. -/
def AllApart (rs : List Region) : Prop := rs.Pairwise Region.Apart

theorem AllApart.insert {before after : List Region} {r : Region} (h : AllApart (before ++ after))
    (hr : ∀ s ∈ before ++ after, r.Apart s) : AllApart (before ++ r :: after) := by
  obtain ⟨hb, ha, hba⟩ := List.pairwise_append.mp h
  refine List.pairwise_append.mpr ⟨hb, List.pairwise_cons.mpr ⟨fun s hs => ?_, ha⟩, fun s hs t ht => ?_⟩
  · exact hr s (List.mem_append_right _ hs)
  · rcases List.mem_cons.mp ht with rfl | ht
    · exact (hr s (List.mem_append_left _ hs)).symm
    · exact hba s hs t ht

theorem AllApart.getElem? {rs : List Region} (h : AllApart rs) {i j : Nat} (hij : i < j)
    {r s : Region} (hi : rs[i]? = some r) (hj : rs[j]? = some s) : r.Apart s := by
  obtain ⟨hi', rfl⟩ := List.getElem?_eq_some_iff.mp hi
  obtain ⟨hj', rfl⟩ := List.getElem?_eq_some_iff.mp hj
  exact List.pairwise_iff_getElem.mp h i j hi' hj' hij

end Regions
