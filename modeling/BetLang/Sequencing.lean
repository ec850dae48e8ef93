import Mathlib.Data.List.Forall2

/-! Inversion of successful sequencing. -/

namespace BetLang

theorem except_bind_ok {ε α β : Type} {x : Except ε α} {f : α → Except ε β} {r : β}
    (hr : x >>= f = .ok r) : ∃ a, x = .ok a ∧ f a = .ok r :=
  match x, hr with
  | .ok a, hr => ⟨a, rfl, hr⟩

theorem except_ok_bind {ε α β : Type} (a : α) (f : α → Except ε β) : (Except.ok a >>= f) = f a :=
  rfl

theorem except_map_ok {ε α β : Type} {x : Except ε α} {f : α → β} {b : β} (h : x.map f = .ok b) :
    ∃ a, x = .ok a ∧ f a = b := by
  cases x with
  | error e => cases h
  | ok a => exact ⟨a, rfl, Except.ok.inj h⟩

theorem mapM_ok_iff {ε α β : Type} {f : α → Except ε β} {xs : List α} {ys : List β} :
    xs.mapM f = .ok ys ↔ List.Forall₂ (fun x y => f x = .ok y) xs ys := by
  induction xs generalizing ys with
  | nil =>
    rw [List.mapM_nil, List.forall₂_nil_left_iff]
    exact ⟨fun h => by cases h; rfl, fun h => h ▸ rfl⟩
  | cons x xs ih =>
    rw [List.mapM_cons, List.forall₂_cons_left_iff]
    constructor
    · intro h
      obtain ⟨y, hy, h⟩ := except_bind_ok h
      obtain ⟨zs, hzs, h⟩ := except_bind_ok h
      cases h
      exact ⟨y, zs, hy, ih.mp hzs, rfl⟩
    · rintro ⟨y, zs, hy, hzs, rfl⟩
      rw [hy, ih.mpr hzs]
      rfl

theorem option_bind_some {α β : Type} {x : Option α} {f : α → Option β} {r : β}
    (hr : x >>= f = some r) : ∃ a, x = some a ∧ f a = some r :=
  match x, hr with
  | some a, hr => ⟨a, rfl, hr⟩

theorem mapM_some_iff {α β : Type} {f : α → Option β} {xs : List α} {ys : List β} :
    xs.mapM f = some ys ↔ List.Forall₂ (fun x y => f x = some y) xs ys := by
  induction xs generalizing ys with
  | nil =>
    rw [List.mapM_nil, List.forall₂_nil_left_iff]
    exact ⟨fun h => (Option.some.inj h).symm, fun h => congrArg some h.symm⟩
  | cons x xs ih =>
    rw [List.mapM_cons, List.forall₂_cons_left_iff]
    constructor
    · intro h
      obtain ⟨y, hy, h⟩ := option_bind_some h
      obtain ⟨zs, hzs, h⟩ := option_bind_some h
      cases h
      exact ⟨y, zs, hy, ih.mp hzs, rfl⟩
    · intro h
      obtain ⟨y, zs, hy, hzs, rfl⟩ := h
      rw [hy, ih.mpr hzs]
      rfl

theorem mapM_some {α β : Type} {f : α → Option β} {xs : List α} {ys : List β}
    (h : xs.mapM f = some ys) : List.Forall₂ (fun x y => f x = some y) xs ys :=
  mapM_some_iff.mp h

theorem forall₂_getElem? {α β : Type} {R : α → β → Prop} {as : List α} {bs : List β}
    (h : List.Forall₂ R as bs) {k : Nat} {a : α} (ha : as[k]? = some a) :
    ∃ b, bs[k]? = some b ∧ R a b := by
  induction h generalizing k with
  | nil => cases ha
  | cons hab _ ih =>
    cases k with
    | zero =>
      cases ha
      exact ⟨_, rfl, hab⟩
    | succ k => exact ih ha

theorem exists_of_forall₂ {α β : Type} {r : α → β → Prop} {l : List α} {l' : List β}
    (h : List.Forall₂ r l l') {a : α} (ha : a ∈ l) : ∃ b ∈ l', r a b := by
  induction h with
  | nil => cases ha
  | cons hab _ ih =>
    rcases List.mem_cons.mp ha with rfl | ha
    · exact ⟨_, List.mem_cons_self, hab⟩
    · obtain ⟨b, hb, hrel⟩ := ih ha
      exact ⟨b, List.mem_cons_of_mem _ hb, hrel⟩

end BetLang
