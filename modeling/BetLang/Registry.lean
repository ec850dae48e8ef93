import Mathlib.Data.List.Induction

/-! Tables filled by inserting the elements of a list in order: a later element replaces an
earlier one under the same key. -/

namespace Registry

variable {α κ : Type}

/-- Position `i` holds the last element that satisfies `p`. -/
def IsLast (p : α → Prop) (l : List α) (i : Nat) : Prop :=
  (∃ x, l[i]? = some x ∧ p x) ∧ ∀ j x, l[j]? = some x → p x → j ≤ i

theorem IsLast.unique {p : α → Prop} {l : List α} {i j : Nat} (hi : IsLast p l i)
    (hj : IsLast p l j) : i = j := by
  obtain ⟨⟨x, hx, hpx⟩, hi⟩ := hi
  obtain ⟨⟨y, hy, hpy⟩, hj⟩ := hj
  have hij := hj i x hx hpx
  have hji := hi j y hy hpy
  omega

theorem IsLast.eq_iff {p : α → Prop} {l : List α} {i j : Nat} (hi : IsLast p l i) :
    j = i ↔ IsLast p l j :=
  ⟨fun he => he ▸ hi, fun hj => hj.unique hi⟩

theorem IsLast.lt_length {p : α → Prop} {l : List α} {i : Nat} (hi : IsLast p l i) :
    i < l.length := by
  obtain ⟨⟨x, hx, -⟩, -⟩ := hi
  exact (List.getElem?_eq_some_iff.mp hx).1

theorem IsLast.exists_mem {p : α → Prop} {l : List α} {i : Nat} (hi : IsLast p l i) :
    ∃ x ∈ l, p x := by
  obtain ⟨⟨x, hx, hp⟩, -⟩ := hi
  exact ⟨x, List.mem_of_getElem? hx, hp⟩

theorem isLast_append_of_pos {p : α → Prop} {x : α} (hp : p x) (l : List α) (i : Nat) :
    IsLast p (l ++ [x]) i ↔ i = l.length := by
  constructor
  · rintro ⟨⟨y, hy, -⟩, hlast⟩
    have hge := hlast l.length x (by simp) hp
    have hlt := (List.getElem?_eq_some_iff.mp hy).1
    simp only [List.length_append, List.length_singleton] at hlt
    omega
  · rintro rfl
    refine ⟨⟨x, by simp, hp⟩, fun j y hy _ => ?_⟩
    have hlt := (List.getElem?_eq_some_iff.mp hy).1
    simp only [List.length_append, List.length_singleton] at hlt
    omega

theorem isLast_append_of_neg {p : α → Prop} {x : α} (hp : ¬ p x) (l : List α) (i : Nat) :
    IsLast p (l ++ [x]) i ↔ IsLast p l i := by
  have hold : ∀ (j : Nat) (y : α), (l ++ [x])[j]? = some y ∧ p y ↔ l[j]? = some y ∧ p y := by
    intro j y
    rcases Nat.lt_trichotomy j l.length with hj | rfl | hj
    · rw [List.getElem?_append_left hj]
    · simp only [List.getElem?_concat_length, Option.some.injEq, List.getElem?_eq_none (Nat.le_refl _),
        reduceCtorEq, false_and, iff_false, not_and]
      rintro rfl
      exact hp
    · rw [List.getElem?_eq_none (by simp; omega), List.getElem?_eq_none (by omega)]
  constructor
  · rintro ⟨⟨y, hy⟩, hlast⟩
    exact ⟨⟨y, (hold i y).mp hy⟩, fun j z hz hpz =>
      hlast j z ((hold j z).mpr ⟨hz, hpz⟩).1 hpz⟩
  · rintro ⟨⟨y, hy⟩, hlast⟩
    exact ⟨⟨y, (hold i y).mpr hy⟩, fun j z hz hpz =>
      hlast j z ((hold j z).mp ⟨hz, hpz⟩).1 hpz⟩

theorem not_isLast_nil (p : α → Prop) (i : Nat) : ¬ IsLast p [] i := by
  rintro ⟨⟨x, hx, -⟩, -⟩
  cases hx

/-- One insertion per keyed element, the newest entry first. -/
def insertAll (key : α → Option κ) (l : List α) : List (κ × Nat) :=
  l.zipIdx.foldl (fun table (x, i) =>
    match key x with
    | some k => (k, i) :: table
    | none => table) []

theorem insertAll_append (key : α → Option κ) (l : List α) (x : α) :
    insertAll key (l ++ [x]) =
      match key x with
      | some k => (k, l.length) :: insertAll key l
      | none => insertAll key l := by
  simp [insertAll, List.zipIdx_append]

theorem lookup_insertAll [BEq κ] [LawfulBEq κ] (key : α → Option κ) (l : List α) (k : κ) (i : Nat) :
    (insertAll key l).lookup k = some i ↔ IsLast (fun x => key x = some k) l i := by
  induction l using List.reverseRecOn with
  | nil => simp [insertAll, not_isLast_nil]
  | append_singleton l x ih =>
    rw [insertAll_append]
    by_cases hx : key x = some k
    · rw [isLast_append_of_pos (p := fun x => key x = some k) hx, hx]
      simp [eq_comm]
    · rw [isLast_append_of_neg (p := fun x => key x = some k) hx, ← ih]
      cases hk : key x with
      | none => rfl
      | some k' =>
        have hne : (k == k') = false := by
          rw [beq_eq_false_iff_ne]
          rintro rfl
          exact hx hk
        simp only [List.lookup_cons, hne]

/-- When every element has a key, the entries are the positions. -/
theorem insertAll_positions (key : α → κ) (l : List α) :
    (insertAll (fun x => some (key x)) l).map Prod.snd = (List.range l.length).reverse := by
  induction l using List.reverseRecOn with
  | nil => rfl
  | append_singleton l x ih => rw [insertAll_append, List.map_cons, ih, List.length_append,
      List.length_singleton, List.range_succ, List.reverse_append, List.reverse_singleton,
      List.singleton_append]

end Registry
