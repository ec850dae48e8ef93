import BetLang.Ir

/-! Equality of IR types is decidable: an interned type is compared by its tree. -/

namespace BetLang.Ir

mutual

def sameTy : Ty → Ty → Bool
  | .bool, .bool | .f32, .f32 | .f64, .f64 | .str, .str | .void, .void | .rawPtr, .rawPtr
  | .rng, .rng => true
  | .int w s, .int w' s' => w = w' && s = s'
  | .struct i, .struct j | .sum i, .sum j => i = j
  | .slice e, .slice e' | .soa e, .soa e' | .tag e, .tag e' | .crib e, .crib e'
  | .ref e, .ref e' | .vec e, .vec e' => sameTy e e'
  | .array e n, .array e' n' | .simd e n, .simd e' n' => sameTy e e' && n = n'
  | .map k v, .map k' v' => sameTy k k' && sameTy v v'
  | .fnPtr ps rs, .fnPtr ps' rs' => sameTys ps ps' && sameTys rs rs'
  | .tuple ts, .tuple ts' => sameTys ts ts'
  | _, _ => false
termination_by structural x => x

def sameTys : List Ty → List Ty → Bool
  | [], [] => true
  | t :: ts, t' :: ts' => sameTy t t' && sameTys ts ts'
  | _, _ => false
termination_by structural x => x

end

mutual

theorem sameTy_refl : (a : Ty) → sameTy a a = true
  | .bool | .f32 | .f64 | .str | .void | .rawPtr | .rng => rfl
  | .int _ _ | .struct _ | .sum _ => by simp [sameTy]
  | .slice e | .soa e | .tag e | .crib e | .ref e | .vec e => sameTy_refl e
  | .array e _ | .simd e _ => by simp [sameTy, sameTy_refl e]
  | .map k v => by simp [sameTy, sameTy_refl k, sameTy_refl v]
  | .fnPtr ps rs => by simp [sameTy, sameTys_refl ps, sameTys_refl rs]
  | .tuple ts => sameTys_refl ts

theorem sameTys_refl : (as : List Ty) → sameTys as as = true
  | [] => rfl
  | a :: as => by simp [sameTys, sameTy_refl a, sameTys_refl as]

end

mutual

theorem eq_of_sameTy (a b : Ty) (h : sameTy a b = true) : a = b := by
  cases a <;> cases b <;> simp only [sameTy, Bool.and_eq_true, decide_eq_true_iff,
    Bool.false_eq_true] at h
  all_goals first
    | rfl
    | rw [h]
    | rw [h.1, h.2]
    | rw [eq_of_sameTy _ _ h]
    | rw [eq_of_sameTy _ _ h.1, h.2]
    | rw [eq_of_sameTy _ _ h.1, eq_of_sameTy _ _ h.2]
    | rw [eq_of_sameTys _ _ h]
    | rw [eq_of_sameTys _ _ h.1, eq_of_sameTys _ _ h.2]

theorem eq_of_sameTys (as bs : List Ty) (h : sameTys as bs = true) : as = bs := by
  cases as with
  | nil =>
    cases bs with
    | nil => rfl
    | cons b bs => cases h
  | cons a as =>
    cases bs with
    | nil => cases h
    | cons b bs =>
      rw [sameTys, Bool.and_eq_true] at h
      rw [eq_of_sameTy a b h.1, eq_of_sameTys as bs h.2]

end

theorem sameTy_iff {a b : Ty} : sameTy a b = true ↔ a = b :=
  ⟨eq_of_sameTy a b, fun h => h ▸ sameTy_refl a⟩

instance : DecidableEq Ty := fun _ _ => decidable_of_iff _ sameTy_iff

end BetLang.Ir
