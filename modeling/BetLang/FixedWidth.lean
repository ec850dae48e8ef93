import Mathlib.Tactic.Common
import Mathlib.Algebra.Group.Nat.Defs

/-! Encodings in which each element takes the same number of places. -/

namespace FixedWidth

variable {α β : Type} {f : α → List β} {l : List α} {n : Nat}

theorem length_flatMap (hf : ∀ a ∈ l, (f a).length = n) : (l.flatMap f).length = l.length * n := by
  induction l with
  | nil => simp
  | cons a l ih =>
    obtain ⟨ha, hl⟩ := List.forall_mem_cons.mp hf
    simp [ih hl, ha, Nat.add_mul, Nat.add_comm]

theorem drop_flatMap (hf : ∀ a ∈ l, (f a).length = n) (k : Nat) :
    (l.flatMap f).drop (k * n) = (l.drop k).flatMap f := by
  induction l generalizing k with
  | nil => simp
  | cons a l ih =>
    obtain ⟨ha, hl⟩ := List.forall_mem_cons.mp hf
    cases k with
    | zero => simp
    | succ k =>
      have hlen : (k + 1) * n = (f a).length + k * n := by rw [ha, Nat.add_mul, Nat.one_mul, Nat.add_comm]
      rw [List.flatMap_cons, hlen, List.drop_length_add_append, ih hl, List.drop_succ_cons]

theorem take_flatMap (hf : ∀ a ∈ l, (f a).length = n) (k : Nat) :
    (l.flatMap f).take (k * n) = (l.take k).flatMap f := by
  induction l generalizing k with
  | nil => simp
  | cons a l ih =>
    obtain ⟨ha, hl⟩ := List.forall_mem_cons.mp hf
    cases k with
    | zero => simp
    | succ k =>
      have hlen : (k + 1) * n = (f a).length + k * n := by rw [ha, Nat.add_mul, Nat.one_mul, Nat.add_comm]
      rw [List.flatMap_cons, hlen, List.take_length_add_append, ih hl, List.take_succ_cons,
        List.flatMap_cons]

/-- Element `k` of the encoding. -/
theorem piece_flatMap (hf : ∀ a ∈ l, (f a).length = n) {k : Nat} (hk : k < l.length) :
    ((l.flatMap f).drop (k * n)).take n = f l[k] := by
  have hlen := hf l[k] (List.getElem_mem hk)
  rw [drop_flatMap hf, List.drop_eq_getElem_cons hk, List.flatMap_cons, ← hlen, List.take_left]

end FixedWidth
