import BetLang.Holla

/-! Two arenas that differ in element values only: every crib operation treats them alike. -/

namespace BetLang.Holla

def Slot.meta (s : Slot) : BitVec 64 × Bool := (s.generation, s.live)

/-- All of an arena but the element values. -/
def Arena.meta (a : Arena) : Nat × List (BitVec 64 × Bool) := (a.width, a.slots.map Slot.meta)

/-- Every element has the crib's leaves. -/
def Arena.Fits (a : Arena) : Prop := ∀ s ∈ a.slots, s.value.length = a.width

def valueAt (arenas : List Arena) (arena slot : Nat) : Option (List Value) :=
  (slotAt arenas arena slot).map Slot.value

def liveAt (arenas : List Arena) (arena slot : Nat) : Bool :=
  (slotAt arenas arena slot).any (·.live)

theorem getElem?_modify_if {α : Type} (xs : List α) (i : Nat) (f : α → α) (k : Nat) :
    (xs.modify i f)[k]? = if i = k then (xs[k]?).map f else xs[k]? := by
  rw [List.getElem?_modify]
  split
  · cases xs[k]? <;> rfl
  · cases xs[k]? <;> rfl

theorem slotAt_modify (arenas : List Arena) (a : Nat) (f : Arena → Arena) (a' s : Nat) :
    slotAt (arenas.modify a f) a' s =
      if a = a' then (arenas[a']?).bind fun x => (f x).slots[s]? else slotAt arenas a' s := by
  unfold slotAt
  rw [getElem?_modify_if]
  split
  · cases arenas[a']? <;> rfl
  · rfl

/-- An update that respects a view of the elements respects the view of the list. -/
theorem map_modify_congr {α β : Type} {view : α → β} {xs ys : List α}
    (h : xs.map view = ys.map view) (i : Nat) {f : α → α}
    (hf : ∀ x y, view x = view y → view (f x) = view (f y)) :
    (xs.modify i f).map view = (ys.modify i f).map view := by
  apply List.ext_getElem?
  intro k
  have hk := congrArg (·[k]?) h
  simp only [List.getElem?_map] at hk
  simp only [List.getElem?_map, getElem?_modify_if]
  split
  · cases hx : xs[k]? with
    | none =>
      cases hy : ys[k]? with
      | none => rfl
      | some y => simp [hx, hy] at hk
    | some x =>
      cases hy : ys[k]? with
      | none => simp [hx, hy] at hk
      | some y =>
        simp only [hx, hy, Option.map_some, Option.some.injEq] at hk
        simp [hf x y hk]
  · exact hk

theorem slots_modify_meta {x y : Arena} (h : x.meta = y.meta) (s : Nat) {f : Slot → Slot}
    (hf : ∀ u v, u.meta = v.meta → (f u).meta = (f v).meta) :
    ({ x with slots := x.slots.modify s f } : Arena).meta =
      ({ y with slots := y.slots.modify s f } : Arena).meta := by
  simp only [Arena.meta, Prod.mk.injEq] at h ⊢
  exact ⟨h.1, map_modify_congr h.2 s hf⟩

theorem current_congr {u v : Slot} (h : u.meta = v.meta) (g : BitVec 64) :
    u.current g = v.current g := by
  simp only [Slot.meta, Prod.mk.injEq] at h
  rw [Slot.current, Slot.current, h.1, h.2]

theorem evictSlot_meta {x y : Arena} (h : x.meta = y.meta) (s : Nat) (g : BitVec 64) :
    (x.evictSlot s g).meta = (y.evictSlot s g).meta := by
  apply slots_modify_meta h
  intro u v huv
  rw [current_congr huv]
  simp only [Slot.meta, Prod.mk.injEq] at huv
  split <;> simp [Slot.meta, huv]

theorem evict_meta {x y : Arena} (h : x.meta = y.meta) : x.evict.meta = y.evict.meta := by
  simp only [Arena.meta, Prod.mk.injEq] at h
  have hm : ∀ z : Arena, z.evict.meta = (z.width, (z.slots.map Slot.meta).map fun m => (m.1 + 1, false)) := by
    intro z
    simp [Arena.meta, Arena.evict, Slot.meta]
  rw [hm, hm, h.1, h.2]

/-- Allocation picks its slot and generation from the bookkeeping alone. -/
theorem alloc_meta {x y : Arena} (h : x.meta = y.meta) (v : List Value) :
    (x.alloc v).2 = (y.alloc v).2 ∧ (x.alloc v).1.meta = (y.alloc v).1.meta := by
  have hs : x.slots.map Slot.meta = y.slots.map Slot.meta := congrArg Prod.snd h
  have hfind : ∀ z : Arena, (z.slots.findIdx? fun s => !s.live) =
      (z.slots.map Slot.meta).findIdx? fun m => !m.2 := by
    intro z
    rw [List.findIdx?_map]
    rfl
  have hxy : (x.slots.findIdx? fun s => !s.live) = y.slots.findIdx? fun s => !s.live := by
    rw [hfind, hfind, hs]
  have hlen : x.slots.length = y.slots.length := by simpa using congrArg List.length hs
  unfold Arena.alloc
  rw [← hxy]
  cases x.slots.findIdx? fun s => !s.live with
  | none =>
    refine ⟨by simp [hlen], ?_⟩
    simp only [Arena.meta, Prod.mk.injEq] at h ⊢
    simp [h.1, h.2]
  | some i =>
    have hgen : ∀ z : Arena, (z.slots[i]?).map Slot.generation =
        ((z.slots.map Slot.meta)[i]?).map Prod.fst := by
      intro z
      simp [Slot.meta, Function.comp_def]
    dsimp only
    rw [hgen, hgen, hs]
    refine ⟨rfl, slots_modify_meta h i fun u v huv => ?_⟩
    simp only [Slot.meta, Prod.mk.injEq] at huv ⊢
    exact ⟨huv.1, trivial⟩

/-- The allocated slot holds the new element; every other slot is untouched. -/
theorem alloc_slots (x : Arena) (v : List Value) (s : Nat) :
    ((x.alloc v).1.slots[s]?).map Slot.value =
      if (x.alloc v).2.1 = s then some v else (x.slots[s]?).map Slot.value := by
  unfold Arena.alloc
  cases hf : x.slots.findIdx? fun s => !s.live with
  | none =>
    dsimp only
    rcases Nat.lt_trichotomy s x.slots.length with h | rfl | h
    · rw [List.getElem?_append_left h, if_neg (by omega)]
    · simp
    · rw [List.getElem?_eq_none (by simp; omega), if_neg (by omega),
        List.getElem?_eq_none (by omega)]
  | some i =>
    dsimp only
    rw [getElem?_modify_if]
    split
    · rename_i he
      subst he
      obtain ⟨hi, -⟩ := List.findIdx?_eq_some_iff_getElem.mp hf
      rw [List.getElem?_eq_getElem hi]
      rfl
    · rfl

theorem alloc_other (x : Arena) (v : List Value) {s : Nat} (h : (x.alloc v).2.1 ≠ s) :
    (x.alloc v).1.slots[s]? = x.slots[s]? := by
  unfold Arena.alloc at h ⊢
  cases hf : x.slots.findIdx? fun s => !s.live with
  | none =>
    rw [hf] at h
    dsimp only at h ⊢
    rcases Nat.lt_or_ge s x.slots.length with hs | hs
    · rw [List.getElem?_append_left hs]
    · rw [List.getElem?_eq_none (by simp; omega), List.getElem?_eq_none hs]
  | some i =>
    rw [hf] at h
    dsimp only at h ⊢
    rw [getElem?_modify_if, if_neg h]

/-- Where a crib operation puts a new element. -/
def placed : CribOp → Obs → Option (Nat × Nat × List Value)
  | .cop _ init, .tag arena slot _ => some (arena, slot, init)
  | _, _ => none

theorem getElem?_of_meta {xs ys : List Arena} (h : xs.map Arena.meta = ys.map Arena.meta) (a : Nat) :
    (xs[a]? = none ∧ ys[a]? = none) ∨
      ∃ x y, xs[a]? = some x ∧ ys[a]? = some y ∧ x.meta = y.meta := by
  have hk := congrArg (·[a]?) h
  simp only [List.getElem?_map] at hk
  cases hx : xs[a]? with
  | none =>
    cases hy : ys[a]? with
    | none => exact .inl ⟨rfl, rfl⟩
    | some y => simp [hx, hy] at hk
  | some x =>
    cases hy : ys[a]? with
    | none => simp [hx, hy] at hk
    | some y => exact .inr ⟨x, y, rfl, rfl, by simpa [hx, hy] using hk⟩

theorem slotAt_of_meta {xs ys : List Arena} (h : xs.map Arena.meta = ys.map Arena.meta)
    (a s : Nat) : (slotAt xs a s).map Slot.meta = (slotAt ys a s).map Slot.meta := by
  unfold slotAt
  rcases getElem?_of_meta h a with ⟨hx, hy⟩ | ⟨x, y, hx, hy, hxy⟩
  · rw [hx, hy]
  · have hs := congrArg (·[s]?) (congrArg Prod.snd hxy)
    simpa [hx, hy, Arena.meta] using hs

theorem resolve_eq (arenas : List Arena) (a s : Nat) (g : BitVec 64) :
    resolve arenas a s g = ((slotAt arenas a s).filter (·.current g)).map Slot.value := by
  unfold resolve slotAt
  cases arenas[a]? <;> rfl

theorem cribStep_cop (xs : List Arena) (a : Nat) (init : List Value) :
    cribStep xs (.cop a init) =
      match xs[a]? with
      | some x =>
        if init.length = x.width then
          (xs.set a (x.alloc init).1, .tag a (x.alloc init).2.1 (x.alloc init).2.2)
        else (xs, .error)
      | none => (xs, .error) := rfl

/-- Crib operations other than `trust` see the bookkeeping only. -/
theorem cribStep_meta {xs ys : List Arena} (h : xs.map Arena.meta = ys.map Arena.meta) (op : CribOp)
    (hop : ∀ a s i, op ≠ .trust a s i) :
    (cribStep xs op).2 = (cribStep ys op).2 ∧
      (cribStep xs op).1.map Arena.meta = (cribStep ys op).1.map Arena.meta := by
  have hlen : xs.length = ys.length := by simpa using congrArg List.length h
  cases op with
  | crib width => exact ⟨by simp [cribStep, hlen], by simp [cribStep, h]⟩
  | cop a init =>
    rw [cribStep_cop, cribStep_cop]
    rcases getElem?_of_meta h a with ⟨hx, hy⟩ | ⟨x, y, hx, hy, hxy⟩
    · rw [hx, hy]
      exact ⟨rfl, h⟩
    · rw [hx, hy]
      dsimp only
      obtain ⟨htag, hmeta⟩ := alloc_meta hxy init
      rw [show x.width = y.width from congrArg Prod.fst hxy]
      split
      · refine ⟨by rw [htag], ?_⟩
        rw [List.map_set, List.map_set, h, hmeta]
      · exact ⟨rfl, h⟩
  | evict a => exact ⟨rfl, map_modify_congr h a fun x y hxy => evict_meta hxy⟩
  | evictSlot a s g => exact ⟨rfl, map_modify_congr h a fun x y hxy => evictSlot_meta hxy s g⟩
  | trust a s i => exact absurd rfl (hop a s i)

theorem evictSlot_value (x : Arena) (s : Nat) (g : BitVec 64) (k : Nat) :
    ((x.evictSlot s g).slots[k]?).map Slot.value = (x.slots[k]?).map Slot.value := by
  simp only [Arena.evictSlot, getElem?_modify_if]
  split
  · rw [Option.map_map]
    congr 1
    funext u
    simp only [Function.comp_apply]
    split <;> rfl
  · rfl

theorem slotAt_set (arenas : List Arena) {a : Nat} {x : Arena} (hx : arenas[a]? = some x)
    (x' : Arena) (a' s : Nat) :
    slotAt (arenas.set a x') a' s = if a = a' then x'.slots[s]? else slotAt arenas a' s := by
  have hlt := (List.getElem?_eq_some_iff.mp hx).1
  unfold slotAt
  rw [List.getElem?_set]
  split
  · rename_i he
    subst he
    simp
  · rfl

theorem slotAt_append (arenas : List Arena) (w a s : Nat) :
    slotAt (arenas ++ [⟨w, []⟩]) a s = slotAt arenas a s := by
  unfold slotAt
  rcases Nat.lt_trichotomy a arenas.length with h | rfl | h
  · rw [List.getElem?_append_left h]
  · simp
  · rw [List.getElem?_eq_none (by simp; omega), List.getElem?_eq_none (by omega)]

/-- A crib operation changes no element but the one it places. -/
theorem cribStep_valueAt (xs : List Arena) (op : CribOp) (a' s' : Nat) :
    valueAt (cribStep xs op).1 a' s' =
      match placed op (cribStep xs op).2 with
      | some (a, s, init) => if a = a' ∧ s = s' then some init else valueAt xs a' s'
      | none => valueAt xs a' s' := by
  unfold valueAt
  cases op with
  | crib width => simp [cribStep, placed, slotAt_append]
  | cop a init =>
    rw [cribStep_cop]
    cases hx : xs[a]? with
    | none => rfl
    | some x =>
      dsimp only
      split
      · simp only [placed, slotAt_set xs hx]
        by_cases ha : a = a'
        · subst ha
          simp only [if_true, true_and, alloc_slots]
          simp [slotAt, hx]
        · simp [ha]
      · rfl
  | evict a =>
    simp only [cribStep, placed, slotAt_modify]
    split
    · unfold slotAt
      cases xs[a']? with
      | none => rfl
      | some x => simp [Arena.evict, Function.comp_def]
    · rfl
  | evictSlot a s g =>
    simp only [cribStep, placed, slotAt_modify]
    split
    · unfold slotAt
      cases xs[a']? with
      | none => rfl
      | some x => exact evictSlot_value x s g s'
    · rfl
  | trust a s i => rfl

/-- Only `cop` makes a slot live. -/
theorem cribStep_liveAt (xs : List Arena) (op : CribOp) {a' s' : Nat}
    (h : liveAt (cribStep xs op).1 a' s' = true) :
    (∃ init, placed op (cribStep xs op).2 = some (a', s', init)) ∨ liveAt xs a' s' = true := by
  unfold liveAt at h ⊢
  cases op with
  | crib width => exact .inr (by simpa [cribStep, slotAt_append] using h)
  | cop a init =>
    rw [cribStep_cop] at h ⊢
    cases hx : xs[a]? with
    | none =>
      rw [hx] at h
      exact .inr h
    | some x =>
      rw [hx] at h
      dsimp only at h ⊢
      split
      · rename_i hw
        rw [if_pos hw, slotAt_set xs hx] at h
        by_cases ha : a = a'
        · subst ha
          by_cases hs : (x.alloc init).2.1 = s'
          · exact .inl ⟨init, by simp [placed, hs]⟩
          · rw [if_pos rfl, alloc_other x init hs] at h
            exact .inr (by simpa [slotAt, hx] using h)
        · rw [if_neg ha] at h
          exact .inr h
      · rename_i hw
        rw [if_neg hw] at h
        exact .inr h
  | evict a =>
    simp only [cribStep, slotAt_modify] at h
    split at h
    · cases hx : xs[a']? with
      | none => simp [hx] at h
      | some x =>
        rw [hx] at h
        cases hs : x.slots[s']? <;> simp [Arena.evict, hs] at h
    · exact .inr h
  | evictSlot a s g =>
    simp only [cribStep, slotAt_modify] at h
    split at h
    · refine .inr ?_
      unfold slotAt
      cases hx : xs[a']? with
      | none => simp [hx] at h
      | some x =>
        rw [hx] at h
        simp only [Option.bind_some, Arena.evictSlot, getElem?_modify_if] at h ⊢
        split at h
        · cases hs : x.slots[s']? with
          | none => simp [hs] at h
          | some u =>
            simp only [hs, Option.map_some, Option.any_some] at h ⊢
            split at h
            · cases h
            · exact h
        · exact h
    · exact .inr h
  | trust a s i => exact .inr h

end BetLang.Holla
