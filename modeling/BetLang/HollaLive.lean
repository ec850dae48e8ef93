import BetLang.HollaArena

/-! When the copies that `holla` binds behave as live references, over every run. -/

namespace BetLang.Holla

/-- What a run has done to elements behind a copy's back: per active binding, the leaves that
another party changed since; per slot, the leaves whose last change has not reached it. -/
structure Track where
  stale : List (Nat → Bool)
  pending : Nat → Nat → Nat → Bool

def Track.setPending (t : Track) (arena slot : Nat) (leaves : Nat → Bool) : Nat → Nat → Nat → Bool :=
  fun a s => if a = arena ∧ s = slot then leaves else t.pending a s

/-- A copy after leaf `leaf` of its element became `v`. -/
def mark (copy : List Value) (leaves : Nat → Bool) (leaf : Nat) (v : Value) : Nat → Bool :=
  fun i => if i = leaf then decide (copy[i]? ≠ some v) else leaves i

/-- The bindings of `arena`, `slot` get new stale leaves. -/
def Track.markBindings (t : Track) (bindings : List Binding) (arena slot : Nat)
    (f : Binding → (Nat → Bool) → Nat → Bool) : List (Nat → Bool) :=
  bindings.zipWith (fun b leaves => if b.arena = arena ∧ b.slot = slot then f b leaves else leaves)
    t.stale

/-- `leave` writes the binding back. -/
def Interp.writesBack (st : Interp) (b : Binding) : Bool :=
  decide (b.value ≠ b.snapshot) && (slotAt st.arenas b.arena b.slot).any (·.current b.generation)

def Track.step (t : Track) (st : Interp) (op : Op) : Track :=
  match op with
  | .crib op =>
    match placed op (cribStep st.arenas op).2 with
    | some (a, s, init) =>
      { stale := t.markBindings st.bindings a s fun b _ i => decide (b.value[i]? ≠ init[i]?)
        pending := t.setPending a s fun _ => false }
    | none => t
  | .holla a s g =>
    match resolve st.arenas a s g with
    | some _ => { t with stale := t.pending a s :: t.stale }
    | none => t
  | .read _ _ => t
  | .write k i v =>
    match st.bindings[k]? with
    | some b =>
      if i < b.value.length then
        { stale := t.markBindings (st.step (.write k i v)).1.bindings b.arena b.slot
            fun b' leaves => mark b'.value leaves i v
          pending := t.setPending b.arena b.slot
            (mark ((valueAt st.arenas b.arena b.slot).getD []) (t.pending b.arena b.slot) i v) }
      else t
    | none => t
  | .endHolla _ =>
    match st.bindings, t.stale with
    | b :: _, leaves :: rest =>
      { stale := rest
        pending := if st.writesBack b then t.setPending b.arena b.slot leaves else t.pending }
    | _, _ => t

/-- No leaf is read through a copy or an unchecked tag that misses a change of it; and when the
last holla of a live slot ends, the slot has every change: the copy written back misses none,
and a copy that is not written back leaves none pending. -/
def StepOk (s : Interp × Track) : Op → Prop
  | .crib (.trust a slot leaf) => s.2.pending a slot leaf = false
  | .read k leaf => ∀ leaves, s.2.stale[k]? = some leaves → leaves leaf = false
  | .endHolla leaked =>
    leaked = none ∧ ∀ b rest leaves, s.1.bindings = b :: rest → s.2.stale[0]? = some leaves →
      liveAt s.1.arenas b.arena b.slot = true →
      (∀ b' ∈ rest, ¬ (b'.arena = b.arena ∧ b'.slot = b.slot)) →
      ∀ i, (if s.1.writesBack b then leaves i else s.2.pending b.arena b.slot i) = false
  | _ => True

def trackedStep : Lockstep.Machine (Interp × Track) Op Obs :=
  fun (st, t) op => (((st.step op).1, t.step st op), (st.step op).2)

def widthAt (arenas : List Arena) (a : Nat) : Option Nat := (arenas[a]?).map Arena.width

/-- The leaves that `flags` marks are exactly those where the two values differ. -/
def Marks (flags : Nat → Bool) (copy element : List Value) : Prop :=
  copy.length = element.length ∧ ∀ i, flags i = true ↔ copy[i]? ≠ element[i]?

structure Rel (s : Interp × Track) (l : Live) : Prop where
  metas : s.1.arenas.map Arena.meta = l.arenas.map Arena.meta
  pending : ∀ a n u v, valueAt s.1.arenas a n = some u → valueAt l.arenas a n = some v →
    Marks (s.2.pending a n) u v
  refs : l.bindings = s.1.bindings.map fun b => ⟨b.arena, b.slot⟩
  stales : s.2.stale.length = s.1.bindings.length
  bindings : ∀ (k : Nat) (b : Binding) (leaves : Nat → Bool), s.1.bindings[k]? = some b → s.2.stale[k]? = some leaves →
    ∃ element, valueAt l.arenas b.arena b.slot = some element ∧ Marks leaves b.value element
  fits : ∀ (a n w : Nat) (v : List Value), widthAt l.arenas a = some w →
    valueAt l.arenas a n = some v → v.length = w
  settled : ∀ a n, liveAt s.1.arenas a n = true →
    (∀ b ∈ s.1.bindings, ¬ (b.arena = a ∧ b.slot = n)) → ∀ i, s.2.pending a n i = false

theorem Marks.refl {flags : Nat → Bool} (v : List Value) (h : ∀ i, flags i = false) :
    Marks flags v v := ⟨rfl, fun i => by simp [h i]⟩

theorem Marks.eq {flags : Nat → Bool} {u v : List Value} (h : Marks flags u v)
    (hf : ∀ i, flags i = false) : u = v := by
  apply List.ext_getElem?
  intro i
  by_contra hne
  have hh := (h.2 i).mpr hne
  rw [hf i] at hh
  cases hh

theorem Marks.leaf {flags : Nat → Bool} {u v : List Value} (h : Marks flags u v) {i : Nat}
    (hf : flags i = false) : u[i]? = v[i]? := by
  by_contra hne
  have hh := (h.2 i).mpr hne
  rw [hf] at hh
  cases hh

/-- Both values see leaf `i` of the element change. -/
theorem Marks.mark {flags : Nat → Bool} {u v : List Value} (h : Marks flags u v) {i : Nat}
    (hi : i < v.length) (w : Value) : Marks (Holla.mark u flags i w) u (v.set i w) := by
  refine ⟨by simp [h.1], fun j => ?_⟩
  by_cases hj : j = i
  · subst hj
    simp [Holla.mark, hi]
  · rw [Holla.mark, if_neg hj, List.getElem?_set_ne (Ne.symm hj)]
    exact h.2 j

theorem Marks.set {flags : Nat → Bool} {u v : List Value} (h : Marks flags u v) {i : Nat}
    (hi : i < u.length) (w : Value) :
    Marks (Holla.mark (u.set i w) flags i w) (u.set i w) (v.set i w) := by
  have hv : i < v.length := h.1 ▸ hi
  refine ⟨by simp [h.1], fun j => ?_⟩
  by_cases hj : j = i
  · subst hj
    simp [Holla.mark, hi, hv]
  · rw [Holla.mark, if_neg hj, List.getElem?_set_ne (Ne.symm hj), List.getElem?_set_ne (Ne.symm hj)]
    exact h.2 j

variable {st : Interp} {t : Track} {l : Live}

theorem valueAt_of_metas {xs ys : List Arena} (h : xs.map Arena.meta = ys.map Arena.meta) {a s : Nat}
    {v : List Value} (hv : valueAt ys a s = some v) : ∃ u, valueAt xs a s = some u := by
  have hm := slotAt_of_meta h a s
  unfold valueAt at hv ⊢
  cases hy : slotAt ys a s with
  | none => simp [hy] at hv
  | some y =>
    cases hx : slotAt xs a s with
    | none => simp [hx, hy] at hm
    | some x => exact ⟨x.value, rfl⟩

theorem resolve_of_metas {xs ys : List Arena} (h : xs.map Arena.meta = ys.map Arena.meta) {a s : Nat}
    {g : BitVec 64} :
    (resolve xs a s g = none ∧ resolve ys a s g = none) ∨
      ∃ u v, resolve xs a s g = some u ∧ resolve ys a s g = some v ∧
        valueAt xs a s = some u ∧ valueAt ys a s = some v := by
  have hm := slotAt_of_meta h a s
  rw [resolve_eq, resolve_eq]
  unfold valueAt
  cases hx : slotAt xs a s with
  | none =>
    cases hy : slotAt ys a s with
    | none => exact .inl ⟨rfl, rfl⟩
    | some y => simp [hx, hy] at hm
  | some x =>
    cases hy : slotAt ys a s with
    | none => simp [hx, hy] at hm
    | some y =>
      have hc : x.current g = y.current g := current_congr (by simpa [hx, hy] using hm) g
      cases hg : y.current g with
      | true => exact .inr ⟨x.value, y.value, by simp [Option.filter, hc, hg], by simp [Option.filter, hg], rfl, rfl⟩
      | false => exact .inl ⟨by simp [Option.filter, hc, hg], by simp [Option.filter, hg]⟩

theorem Rel.holla (h : Rel (st, t) l) (a s : Nat) (g : BitVec 64) :
    Rel (trackedStep (st, t) (.holla a s g)).1 (l.step (.holla a s g)).1 ∧
      (trackedStep (st, t) (.holla a s g)).2 = (l.step (.holla a s g)).2 := by
  simp only [trackedStep, Interp.step, Interp.enter, Track.step, Live.step]
  rcases resolve_of_metas (g := g) h.metas with ⟨hx, hy⟩ | ⟨u, v, hx, hy, hu, hv⟩
  · rw [hx, hy]
    exact ⟨h, rfl⟩
  · rw [hx, hy]
    refine ⟨⟨h.metas, h.pending, by simp [h.refs], by simp [h.stales], ?_, h.fits, ?_⟩, rfl⟩
    · intro k b leaves hb hl
      cases k with
      | zero =>
        cases hb
        cases hl
        exact ⟨v, hv, h.pending a s u v hu hv⟩
      | succ k => exact h.bindings k b leaves hb hl
    · intro a' n hlive hnone
      exact h.settled a' n hlive fun b hb => hnone b (List.mem_cons_of_mem _ hb)

theorem Rel.read (h : Rel (st, t) l) {k i : Nat} (hok : StepOk (st, t) (.read k i)) :
    Rel (trackedStep (st, t) (.read k i)).1 (l.step (.read k i)).1 ∧
      (trackedStep (st, t) (.read k i)).2 = (l.step (.read k i)).2 := by
  refine ⟨h, ?_⟩
  simp only [trackedStep, Interp.step, Live.step, Live.deref, h.refs, List.getElem?_map]
  cases hb : st.bindings[k]? with
  | none => rfl
  | some b =>
    have hlt : k < t.stale.length := by
      rw [h.stales]
      exact (List.getElem?_eq_some_iff.mp hb).1
    have hl := List.getElem?_eq_getElem hlt
    obtain ⟨element, he, hm⟩ := h.bindings k b _ hb hl
    have heq := hm.leaf (hok _ hl)
    unfold valueAt at he
    simp [he, heq]

theorem placed_cop {xs : List Arena} {op : CribOp} {a s : Nat} {init : List Value}
    (h : placed op (cribStep xs op).2 = some (a, s, init)) :
    ∃ x, xs[a]? = some x ∧ init.length = x.width := by
  cases op with
  | cop a' init' =>
    rw [cribStep_cop] at h
    split at h
    · rename_i x hx
      split at h
      · rename_i hw
        cases h
        exact ⟨x, hx, hw⟩
      · cases h
    · cases h
  | crib | evict | evictSlot | trust => cases h

theorem widthAt_of_value {xs : List Arena} {a n : Nat} {v : List Value}
    (h : valueAt xs a n = some v) : ∃ x, xs[a]? = some x ∧ widthAt xs a = some x.width := by
  unfold valueAt slotAt at h
  cases hx : xs[a]? with
  | none => simp [hx] at h
  | some x => exact ⟨x, rfl, by simp [widthAt, hx]⟩

theorem cribStep_width {xs : List Arena} (op : CribOp) {a : Nat} {x : Arena} (hx : xs[a]? = some x) :
    widthAt (cribStep xs op).1 a = some x.width := by
  have hlt := (List.getElem?_eq_some_iff.mp hx).1
  unfold widthAt
  cases op with
  | crib width => simp [cribStep, List.getElem?_append_left hlt, hx]
  | cop a' init =>
    rw [cribStep_cop]
    cases hy : xs[a']? with
    | none => simp [hx]
    | some y =>
      dsimp only
      split
      · rw [List.getElem?_set]
        split
        · rename_i he
          subst he
          rw [hx] at hy
          cases hy
          simp only [hlt, if_true, Option.map_some, Option.some.injEq, Arena.alloc]
          split <;> rfl
        · simp [hx]
      · simp [hx]
  | evict a' =>
    simp only [cribStep, getElem?_modify_if]
    split <;> simp [hx, Arena.evict]
  | evictSlot a' s g =>
    simp only [cribStep, getElem?_modify_if]
    split <;> simp [hx, Arena.evictSlot]
  | trust a' s i => simp [cribStep, hx]

theorem markBindings_getElem? {bindings : List Binding} {a s k : Nat}
    {f : Binding → (Nat → Bool) → Nat → Bool} {b : Binding} {leaves : Nat → Bool}
    (hb : bindings[k]? = some b) (hlen : t.stale.length = bindings.length)
    (hl : (t.markBindings bindings a s f)[k]? = some leaves) :
    ∃ old, t.stale[k]? = some old ∧
      leaves = if b.arena = a ∧ b.slot = s then f b old else old := by
  have hlt : k < t.stale.length := by
    rw [hlen]
    exact (List.getElem?_eq_some_iff.mp hb).1
  have ho := List.getElem?_eq_getElem hlt
  refine ⟨_, ho, ?_⟩
  rw [Track.markBindings, List.getElem?_zipWith, hb, ho] at hl
  exact (Option.some.inj hl).symm

theorem Rel.crib (h : Rel (st, t) l) {op : CribOp} (hok : StepOk (st, t) (.crib op)) :
    Rel (trackedStep (st, t) (.crib op)).1 (l.step (.crib op)).1 ∧
      (trackedStep (st, t) (.crib op)).2 = (l.step (.crib op)).2 := by
  by_cases htrust : ∃ a s i, op = .trust a s i
  · obtain ⟨a, s, i, rfl⟩ := htrust
    refine ⟨h, ?_⟩
    have hval : ∀ xs : List Arena, (xs[a]?).bind (fun x => x.resolveUnchecked s) = valueAt xs a s := by
      intro xs
      unfold valueAt slotAt
      cases xs[a]? <;> rfl
    simp only [trackedStep, Interp.step, Live.step, cribStep, hval]
    cases hv : valueAt l.arenas a s with
    | none =>
      cases hu : valueAt st.arenas a s with
      | none => rfl
      | some u =>
        obtain ⟨v, hv'⟩ := valueAt_of_metas h.metas.symm hu
        rw [hv] at hv'
        cases hv'
    | some v =>
      obtain ⟨u, hu⟩ := valueAt_of_metas h.metas hv
      simp [hu, (h.pending a s u v hu hv).leaf hok]
  · obtain ⟨hobs, hmetas⟩ := cribStep_meta h.metas op fun a s i he => htrust ⟨a, s, i, he⟩
    have hfits : ∀ a n w v, widthAt (cribStep l.arenas op).1 a = some w →
        valueAt (cribStep l.arenas op).1 a n = some v → v.length = w := by
      intro a n w v hw hv
      rw [cribStep_valueAt] at hv
      split at hv
      · rename_i a' s' init hp
        obtain ⟨x, hx, hlen⟩ := placed_cop hp
        split at hv
        · rename_i he
          cases hv
          rw [← he.1, cribStep_width op hx] at hw
          exact hlen.trans (Option.some.inj hw)
        · obtain ⟨y, hy, hyw⟩ := widthAt_of_value hv
          rw [cribStep_width op hy] at hw
          exact h.fits a n w v (hyw.trans hw) hv
      · obtain ⟨y, hy, hyw⟩ := widthAt_of_value hv
        rw [cribStep_width op hy] at hw
        exact h.fits a n w v (hyw.trans hw) hv
    refine ⟨⟨hmetas, ?_, h.refs, ?_, ?_, hfits, ?_⟩, hobs⟩
    · intro a n u v hu hv
      simp only [trackedStep, Interp.step, Live.step, Track.step] at hu hv ⊢
      rw [cribStep_valueAt] at hu hv
      rw [← hobs] at hv
      cases hp : placed op (cribStep st.arenas op).2 with
      | some p =>
        obtain ⟨a', s', init⟩ := p
        rw [hp] at hu hv
        dsimp only [Track.setPending] at hu hv ⊢
        by_cases he : a' = a ∧ s' = n
        · rw [if_pos he] at hu hv
          cases hu
          cases hv
          rw [if_pos ⟨he.1.symm, he.2.symm⟩]
          exact .refl _ fun _ => rfl
        · rw [if_neg he] at hu hv
          rw [if_neg fun hh => he ⟨hh.1.symm, hh.2.symm⟩]
          exact h.pending a n u v hu hv
      | none =>
        rw [hp] at hu hv
        exact h.pending a n u v hu hv
    · simp only [trackedStep, Interp.step, Track.step]
      split
      · simp [Track.markBindings, h.stales]
      · exact h.stales
    · intro k b leaves hb hl
      simp only [trackedStep, Interp.step, Live.step, Track.step] at hb hl ⊢
      rw [cribStep_valueAt, ← hobs]
      cases hp : placed op (cribStep st.arenas op).2 with
      | none =>
        rw [hp] at hl
        exact h.bindings k b leaves hb hl
      | some p =>
        obtain ⟨a', s', init⟩ := p
        rw [hp] at hl
        dsimp only at hl ⊢
        obtain ⟨old, ho, rfl⟩ := markBindings_getElem? hb h.stales hl
        obtain ⟨element, he, hm⟩ := h.bindings k b old hb ho
        by_cases hat : b.arena = a' ∧ b.slot = s'
        · rw [if_pos hat, if_pos ⟨hat.1.symm, hat.2.symm⟩]
          rw [hobs] at hp
          obtain ⟨x, hx, hlen⟩ := placed_cop hp
          refine ⟨init, rfl, ?_, fun i => by simp⟩
          rw [hm.1, hlen]
          exact h.fits b.arena b.slot x.width element (by rw [hat.1, widthAt, hx]; rfl) he
        · rw [if_neg hat, if_neg fun hh => hat ⟨hh.1.symm, hh.2.symm⟩]
          exact ⟨element, he, hm⟩
    · intro a n hlive hnone i
      simp only [trackedStep, Interp.step, Track.step] at hlive hnone ⊢
      rcases cribStep_liveAt st.arenas op hlive with ⟨init, hp⟩ | hold
      · rw [hp]
        simp [Track.setPending]
      · have hs := h.settled a n hold hnone i
        cases hp : placed op (cribStep st.arenas op).2 with
        | none => exact hs
        | some p =>
          dsimp only [Track.setPending]
          split
          · rfl
          · exact hs

theorem storeLeaf_meta (xs : List Arena) (r : Ref) (i : Nat) (w : Value) :
    (storeLeaf xs r i w).map Arena.meta = xs.map Arena.meta := by
  apply List.ext_getElem?
  intro a
  simp only [storeLeaf, List.getElem?_map, getElem?_modify_if]
  split
  · cases xs[a]? with
    | none => rfl
    | some x =>
      simp only [Option.map_some, Option.some.injEq, Arena.meta, Prod.mk.injEq, true_and]
      apply List.ext_getElem?
      intro n
      simp only [List.getElem?_map, getElem?_modify_if]
      split
      · cases x.slots[n]? <;> rfl
      · rfl
  · rfl

theorem storeLeaf_valueAt (xs : List Arena) (r : Ref) (i : Nat) (w : Value) (a n : Nat) :
    valueAt (storeLeaf xs r i w) a n =
      if r.arena = a ∧ r.slot = n then (valueAt xs a n).map (·.set i w) else valueAt xs a n := by
  unfold valueAt storeLeaf
  rw [slotAt_modify]
  by_cases ha : r.arena = a
  · rw [if_pos ha]
    unfold slotAt
    cases xs[a]? with
    | none => simp
    | some x =>
      simp only [Option.bind_some, getElem?_modify_if, ha, true_and]
      split
      · cases x.slots[n]? <;> rfl
      · rfl
  · rw [if_neg ha, if_neg fun hh => ha hh.1]

theorem Rel.write (h : Rel (st, t) l) (k i : Nat) (w : Value) :
    Rel (trackedStep (st, t) (.write k i w)).1 (l.step (.write k i w)).1 ∧
      (trackedStep (st, t) (.write k i w)).2 = (l.step (.write k i w)).2 := by
  cases hb : st.bindings[k]? with
  | none =>
    have hr : l.bindings[k]? = none := by simp [h.refs, hb]
    simp only [trackedStep, Interp.step, Track.step, Live.step, hb, hr]
    exact ⟨h, trivial⟩
  | some b =>
    have hlt : k < t.stale.length := by
      rw [h.stales]
      exact (List.getElem?_eq_some_iff.mp hb).1
    obtain ⟨element, he, hm⟩ := h.bindings k b _ hb (List.getElem?_eq_getElem hlt)
    have hr : l.bindings[k]? = some ⟨b.arena, b.slot⟩ := by simp [h.refs, hb]
    have hd : l.deref k = some element := by
      simp only [Live.deref, hr, Option.bind_some]
      exact he
    by_cases hi : i < b.value.length
    · have hi' : i < element.length := hm.1 ▸ hi
      simp only [trackedStep, Interp.step, Track.step, Live.step, hb, hr, hd, if_pos hi, if_pos hi']
      refine ⟨⟨?_, ?_, ?_, ?_, ?_, ?_, ?_⟩, trivial⟩
      · rw [storeLeaf_meta]
        exact h.metas
      · intro a n u v hu hv
        rw [storeLeaf_valueAt] at hv
        dsimp only [Track.setPending]
        by_cases hat : b.arena = a ∧ b.slot = n
        · obtain ⟨rfl, rfl⟩ := hat
          rw [if_pos ⟨rfl, rfl⟩, he] at hv
          cases hv
          rw [if_pos ⟨rfl, rfl⟩, hu]
          exact (h.pending _ _ u element hu he).mark hi' w
        · rw [if_neg hat] at hv
          rw [if_neg fun hh => hat ⟨hh.1.symm, hh.2.symm⟩]
          exact h.pending a n u v hu hv
      · rw [h.refs]
        apply List.ext_getElem?
        intro k'
        simp only [List.getElem?_map, List.getElem?_set]
        split
        · rename_i hk
          subst hk
          rw [hb, if_pos (List.getElem?_eq_some_iff.mp hb).1]
          rfl
        · rfl
      · simp [Track.markBindings, h.stales]
      · intro k' b' leaves hb' hl
        obtain ⟨old, ho, rfl⟩ := markBindings_getElem? hb' (by simp [h.stales]) hl
        rw [storeLeaf_valueAt]
        rw [List.getElem?_set] at hb'
        split at hb'
        · rename_i hk
          subst hk
          split at hb' <;> cases hb'
          obtain ⟨element', he', hm'⟩ := h.bindings k b old hb ho
          rw [he] at he'
          cases he'
          exact ⟨element.set i w, by simp [he], by simpa using hm'.set hi w⟩
        · obtain ⟨element', he', hm'⟩ := h.bindings k' b' old hb' ho
          by_cases hat : b'.arena = b.arena ∧ b'.slot = b.slot
          · rw [if_pos hat, if_pos ⟨hat.1.symm, hat.2.symm⟩]
            rw [hat.1, hat.2] at he'
            rw [hat.1, hat.2, he]
            rw [he] at he'
            cases he'
            exact ⟨element.set i w, rfl, hm'.mark hi' w⟩
          · rw [if_neg hat, if_neg fun hh => hat ⟨hh.1.symm, hh.2.symm⟩]
            exact ⟨element', he', hm'⟩
      · intro a n width v hw hv
        have hwid : widthAt (storeLeaf l.arenas ⟨b.arena, b.slot⟩ i w) a = widthAt l.arenas a := by
          have hh := congrArg (·[a]?) (storeLeaf_meta l.arenas ⟨b.arena, b.slot⟩ i w)
          have hh' := congrArg (Option.map Prod.fst) hh
          simpa [Function.comp_def, Arena.meta, widthAt] using hh'
        rw [hwid] at hw
        rw [storeLeaf_valueAt] at hv
        split at hv
        · obtain ⟨v', hv', rfl⟩ := Option.map_eq_some_iff.mp hv
          rw [List.length_set]
          exact h.fits a n width v' hw hv'
        · exact h.fits a n width v hw hv
      · intro a n hlive hnone j
        have hself := hnone { b with value := b.value.set i w } (List.mem_of_getElem? (i := k) (by
          simp [(List.getElem?_eq_some_iff.mp hb).1]))
        have hne : ¬ (a = b.arena ∧ n = b.slot) := fun hh => hself ⟨hh.1.symm, hh.2.symm⟩
        dsimp only [Track.setPending]
        rw [if_neg hne]
        refine h.settled a n hlive (fun b' hb' => ?_) j
        obtain ⟨k', hk'⟩ := List.mem_iff_getElem?.mp hb'
        by_cases hk : k = k'
        · subst hk
          rw [hb] at hk'
          cases hk'
          exact hself
        · exact hnone b' (List.mem_of_getElem? (i := k') (by rw [List.getElem?_set_ne hk, hk']))
    · have hi' : ¬ i < element.length := hm.1 ▸ hi
      simp only [trackedStep, Interp.step, Track.step, Live.step, hb, hr, hd, if_neg hi, if_neg hi']
      exact ⟨h, trivial⟩

theorem writeSlot_meta (xs : List Arena) (a s : Nat) (g : BitVec 64) (val : List Value) :
    (xs.modify a fun x => x.writeSlot s g val).map Arena.meta = xs.map Arena.meta := by
  apply List.ext_getElem?
  intro k
  simp only [List.getElem?_map, getElem?_modify_if]
  split
  · cases xs[k]? with
    | none => rfl
    | some x =>
      simp only [Option.map_some, Option.some.injEq, Arena.meta, Arena.writeSlot, Prod.mk.injEq,
        true_and]
      apply List.ext_getElem?
      intro n
      simp only [List.getElem?_map, getElem?_modify_if]
      split
      · cases x.slots[n]? with
        | none => rfl
        | some u =>
          simp only [Option.map_some, Option.some.injEq]
          split <;> rfl
      · rfl
  · rfl

theorem writeSlot_valueAt (xs : List Arena) (a s : Nat) (g : BitVec 64) (val : List Value)
    (a' s' : Nat) : valueAt (xs.modify a fun x => x.writeSlot s g val) a' s' =
      if a = a' ∧ s = s' ∧ (slotAt xs a s).any (·.current g) = true then some val
      else valueAt xs a' s' := by
  unfold valueAt
  rw [slotAt_modify]
  by_cases ha : a = a'
  · subst ha
    rw [if_pos rfl]
    unfold slotAt
    cases xs[a]? with
    | none => simp
    | some x =>
      simp only [Option.bind_some, Arena.writeSlot, getElem?_modify_if, true_and]
      by_cases hs : s = s'
      · subst hs
        rw [if_pos rfl]
        cases x.slots[s]? with
        | none => simp
        | some u =>
          simp only [Option.map_some, Option.any_some, true_and]
          split <;> simp
      · rw [if_neg hs, if_neg fun hh => hs hh.1]
  · rw [if_neg ha, if_neg fun hh => ha hh.1]

theorem liveAt_of_metas {xs ys : List Arena} (h : xs.map Arena.meta = ys.map Arena.meta)
    (a s : Nat) : liveAt xs a s = liveAt ys a s := by
  have hm := slotAt_of_meta h a s
  unfold liveAt
  cases hx : slotAt xs a s with
  | none =>
    cases hy : slotAt ys a s with
    | none => rfl
    | some y => simp [hx, hy] at hm
  | some x =>
    cases hy : slotAt ys a s with
    | none => simp [hx, hy] at hm
    | some y =>
      simp only [hx, hy, Option.map_some, Option.some.injEq, Slot.meta, Prod.mk.injEq] at hm
      simp [hm.2]

/-- `leave` touches one slot, if any. -/
theorem leave_spec {b : Binding} {rest : List Binding} (hb : st.bindings = b :: rest) :
    (st.leave none).1.bindings = rest ∧
      (st.leave none).1.arenas.map Arena.meta = st.arenas.map Arena.meta ∧
      ∀ a s, valueAt (st.leave none).1.arenas a s =
        if b.arena = a ∧ b.slot = s ∧ st.writesBack b = true then some b.value
        else valueAt st.arenas a s := by
  unfold Interp.leave Interp.writesBack
  rw [hb]
  dsimp only [Option.getD_none]
  split
  · rename_i hne
    refine ⟨rfl, writeSlot_meta _ _ _ _ _, fun a s => ?_⟩
    rw [writeSlot_valueAt]
    simp only [decide_true, Bool.true_and, hne, ne_eq, not_false_eq_true]
  · rename_i hne
    refine ⟨rfl, rfl, fun a s => ?_⟩
    simp only [ne_eq, not_not] at hne
    simp [hne]

theorem Rel.endHolla (h : Rel (st, t) l) {leaked : Option (List Value)}
    (hok : StepOk (st, t) (.endHolla leaked)) :
    Rel (trackedStep (st, t) (.endHolla leaked)).1 (l.step (.endHolla leaked)).1 ∧
      (trackedStep (st, t) (.endHolla leaked)).2 = (l.step (.endHolla leaked)).2 := by
  obtain ⟨rfl, hok⟩ := hok
  cases hb : st.bindings with
  | nil =>
    have hr : l.bindings = [] := by simp [h.refs, hb]
    simp only [trackedStep, Interp.step, Interp.leave, Track.step, Live.step, hb, hr]
    exact ⟨h, trivial⟩
  | cons b rest =>
    obtain ⟨leaves, stale, hs⟩ : ∃ leaves stale, t.stale = leaves :: stale := by
      cases hs : t.stale with
      | nil => simpa [hs, hb] using h.stales
      | cons leaves stale => exact ⟨leaves, stale, rfl⟩
    have hr : l.bindings = ⟨b.arena, b.slot⟩ :: rest.map fun b => ⟨b.arena, b.slot⟩ := by
      simp [h.refs, hb]
    obtain ⟨element, he, hm⟩ := h.bindings 0 b leaves (by simp [hb]) (by simp [hs])
    obtain ⟨hrest, hmetas, hval⟩ := leave_spec hb
    have hobs : (st.leave none).2 = .unit := by
      unfold Interp.leave
      rw [hb]
      dsimp only
      split <;> rfl
    have hlen : stale.length = rest.length := by simpa [hs, hb] using h.stales
    simp only [trackedStep, Interp.step, Track.step, Live.step, hb, hr, hs]
    refine ⟨⟨hmetas.trans h.metas, ?_, by simp [hrest], by simp [hrest, hlen], ?_, h.fits, ?_⟩, hobs⟩
    · intro a n u v hu hv
      rw [hval] at hu
      dsimp only
      by_cases hat : b.arena = a ∧ b.slot = n
      · obtain ⟨rfl, rfl⟩ := hat
        cases hw : st.writesBack b with
        | true =>
          rw [if_pos ⟨rfl, rfl, hw⟩] at hu
          cases hu
          rw [he] at hv
          cases hv
          simpa [Track.setPending] using hm
        | false =>
          rw [if_neg fun hh => by simp [hw] at hh] at hu
          simpa using h.pending _ _ u v hu hv
      · rw [if_neg fun hh => hat ⟨hh.1, hh.2.1⟩] at hu
        have hp := h.pending a n u v hu hv
        split
        · dsimp only [Track.setPending]
          rwa [if_neg fun hh => hat ⟨hh.1.symm, hh.2.symm⟩]
        · exact hp
    · intro k b' leaves' hb' hl
      rw [hrest] at hb'
      exact h.bindings (k + 1) b' leaves' (by simp [hb, hb']) (by simpa [hs] using hl)
    · intro a n hlive hnone i
      rw [liveAt_of_metas hmetas] at hlive
      rw [hrest] at hnone
      dsimp only
      by_cases hat : b.arena = a ∧ b.slot = n
      · obtain ⟨rfl, rfl⟩ := hat
        have hh := hok b rest leaves hb (by simp [hs]) hlive hnone i
        cases hw : st.writesBack b with
        | true =>
          rw [hw] at hh
          simpa [Track.setPending] using hh
        | false =>
          rw [hw] at hh
          simpa using hh
      · have hset := h.settled a n hlive (fun b' hb' => ?_) i
        · split
          · dsimp only [Track.setPending]
            rwa [if_neg fun hh => hat ⟨hh.1.symm, hh.2.symm⟩]
          · exact hset
        · rcases List.mem_cons.mp (hb ▸ hb') with rfl | hb'
          · exact hat
          · exact hnone b' hb'

theorem rel_step {s : Interp × Track} {op : Op} (h : Rel s l) (hok : StepOk s op) :
    Rel (trackedStep s op).1 (l.step op).1 ∧ (trackedStep s op).2 = (l.step op).2 := by
  obtain ⟨st, t⟩ := s
  cases op with
  | crib op => exact h.crib hok
  | holla a n g => exact h.holla a n g
  | read k i => exact h.read hok
  | write k i w => exact h.write k i w
  | endHolla leaked => exact h.endHolla hok

def Track.start : Track := ⟨[], fun _ _ _ => false⟩

theorem rel_start : Rel (⟨[], []⟩, Track.start) ⟨[], []⟩ where
  metas := rfl
  pending := by
    rintro a n u v ⟨⟩
  refs := rfl
  stales := rfl
  bindings := by
    rintro k b leaves ⟨⟩
  fits := by
    rintro a n w v ⟨⟩
  settled := fun _ _ _ _ _ => rfl

/-- A program that performs a fixed list of operations, then none of effect. -/
def script (ops : List Op) : Lockstep.Strategy Op Obs :=
  fun seen => ops.getD seen.length (.crib (.evict 0))

/-- Two leaves, one of them updated under a holla and read under the next. -/
def sequentialHollas : List Op := [
  .crib (.crib 2), .crib (.cop 0 [.int 1, .int 1]), .holla 0 0 0, .write 0 0 (.int 5),
  .endHolla none, .holla 0 0 0, .read 0 0, .read 0 1]

/-- The inner holla's update of leaf 0 is overwritten when the outer one writes its copy back. -/
def nestedHollas : List Op := [
  .crib (.crib 2), .crib (.cop 0 [.int 1, .int 1]), .holla 0 0 0, .holla 0 0 0,
  .write 0 0 (.int 5), .endHolla none, .write 0 1 (.int 7), .endHolla none, .holla 0 0 0, .read 0 0]

end BetLang.Holla
