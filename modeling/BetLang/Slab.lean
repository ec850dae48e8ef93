import BetLang.Lockstep
import Mathlib.Data.List.Nodup
import Mathlib.Data.List.Perm.Subperm
import Mathlib.Logic.Function.Basic
import Mathlib.Tactic.Common

/-! Slabs of slots with generations. The purpose of a slab is a pool whose entries are known by the
order in which they were issued; which slot an entry gets and how often the slot was used before does
not matter. -/

namespace Slab

section Pool

variable {ι W α β : Type}

inductive Op (ι α : Type) where
  | alloc (init : ι)
  | clear
  | free (k : Nat)
  | access (k : Nat) (a : α)

inductive Obs (β : Type) where
  | issued (ok : Bool)
  | done
  | absent
  | found (b : β)
  deriving DecidableEq

/-- What an entry holds at first, and what an access does to it. -/
structure Cells (ι W α β : Type) where
  init : ι → W
  act : α → W → W × β

/-- The entries by order of issue; a dead one, or one that could not be issued, holds nothing. -/
structure Pool (W : Type) where
  capacity : Option Nat
  issued : List (Option W)

namespace Pool

def live (p : Pool W) : Nat := p.issued.countP Option.isSome

def full (p : Pool W) : Bool := p.capacity.any (· ≤ p.live)

def put (p : Pool W) (o : Option W) : Pool W := { p with issued := p.issued ++ [o] }

def set (p : Pool W) (k : Nat) (o : Option W) : Pool W := { p with issued := p.issued.set k o }

def step (cells : Cells ι W α β) : Lockstep.Machine (Pool W) (Op ι α) (Obs β)
  | p, .alloc i => if p.full then (p.put none, .issued false) else (p.put (cells.init i), .issued true)
  | p, .clear => ({ p with issued := p.issued.map fun _ => none }, .done)
  | p, .free k => (p.set k none, .done)
  | p, .access k a =>
    match p.issued[k]? with
    | some (some w) => (p.set k (cells.act a w).1, .found (cells.act a w).2)
    | _ => (p, .absent)

theorem set_dead {p : Pool W} {k : Nat} (h : ∀ w, p.issued[k]? ≠ some (some w)) : p.set k none = p := by
  have hset : p.issued.set k none = p.issued := by
    refine List.ext_getElem? fun i => ?_
    by_cases hi : k = i
    · subst hi
      rw [List.getElem?_set_self']
      cases ho : p.issued[k]? with
      | none => rfl
      | some o =>
        cases o with
        | none => rfl
        | some w => exact absurd ho (h w)
    · rw [List.getElem?_set_ne hi]
  rw [set, hset]

theorem step_access_dead (cells : Cells ι W α β) {p : Pool W} {k : Nat} (a : α)
    (h : ∀ w, p.issued[k]? ≠ some (some w)) : step cells p (.access k a) = (p, .absent) := by
  rw [step]
  cases ho : p.issued[k]? with
  | none => rfl
  | some o =>
    cases o with
    | none => rfl
    | some w => exact absurd ho (h w)

theorem step_access (cells : Cells ι W α β) {p : Pool W} {k : Nat} (a : α) {w : W}
    (h : p.issued[k]? = some (some w)) :
    step cells p (.access k a) = (p.set k (some (cells.act a w).1), .found (cells.act a w).2) := by
  rw [step, h]

/-- Until it is full, a bounded pool is an unbounded one. -/
def unbounded (p : Pool W) : Pool W := { p with capacity := none }

theorem step_unbounded (cells : Cells ι W α β) (p : Pool W) (op : Op ι α)
    (h : ∀ i, op = .alloc i → p.full = false) :
    step cells p.unbounded op = ((step cells p op).1.unbounded, (step cells p op).2) := by
  cases op with
  | alloc i =>
    have hfull := h i rfl
    have hopen : p.unbounded.full = false := rfl
    rw [step, step, hfull, hopen]
    rfl
  | clear => rfl
  | free k => rfl
  | access k a =>
    rw [step, step]
    dsimp only [unbounded]
    cases p.issued[k]? with
    | none => rfl
    | some o =>
      cases o with
      | none => rfl
      | some w => rfl

theorem set_self {p : Pool W} {k : Nat} {o : Option W} (h : p.issued[k]? = some o) : p.set k o = p := by
  have hset : p.issued.set k o = p.issued := by
    obtain ⟨hlt, heq⟩ := List.getElem?_eq_some_iff.mp h
    rw [← heq, List.set_getElem_self hlt]
  rw [set, hset]

end Pool

end Pool

/-- A slot and the generation at which it was handed out. -/
structure Handle where
  slot : Nat
  gen : Nat
  deriving DecidableEq

/-- The state of a slab as far as handles are concerned. Without a capacity it grows. -/
structure View (C : Type) where
  capacity : Option Nat
  occ : Nat → Bool
  gen : Nat → Nat
  cell : Nat → C

section View

variable {C W : Type}

namespace View

def Resolves (v : View C) (h : Handle) : Prop := v.occ h.slot = true ∧ v.gen h.slot = h.gen

/-- A handle that will never resolve again. -/
def Gone (v : View C) (h : Handle) : Prop :=
  (∃ n, v.capacity = some n ∧ n ≤ h.slot) ∨ h.gen < v.gen h.slot

def Full (v : View C) : Prop := ∃ n, v.capacity = some n ∧ ∀ s < n, v.occ s = true

/-- Slot `i` is taken from the free ones; it may hold anything. -/
structure Takes (v : View C) (i : Nat) (v' : View C) : Prop where
  free : v.occ i = false
  within : ∀ n, v.capacity = some n → i < n
  capacity : v'.capacity = v.capacity
  occ : ∀ s, v'.occ s = if s = i then true else v.occ s
  gen : ∀ s, v'.gen s = v.gen s
  cell : ∀ s, s ≠ i → v'.cell s = v.cell s

/-- All slots are free, and no slot that was in use keeps its generation. -/
structure Clears (v v' : View C) : Prop where
  capacity : v'.capacity = v.capacity
  occ : ∀ s, v'.occ s = false
  gen : ∀ s, v.gen s ≤ v'.gen s
  bumped : ∀ s, v.occ s = true → v.gen s < v'.gen s

/-- The slot in use is freed at a new generation. -/
structure Frees (v : View C) (i : Nat) (v' : View C) : Prop where
  capacity : v'.capacity = v.capacity
  occ : ∀ s, v'.occ s = if s = i then false else v.occ s
  gen : ∀ s, s ≠ i → v'.gen s = v.gen s
  bumped : v.gen i < v'.gen i
  cell : ∀ s, s ≠ i → v'.cell s = v.cell s

/-- Only what slot `i` holds is changed. -/
structure Writes (v : View C) (i : Nat) (v' : View C) : Prop where
  capacity : v'.capacity = v.capacity
  occ : ∀ s, v'.occ s = v.occ s
  gen : ∀ s, v'.gen s = v.gen s
  cell : ∀ s, s ≠ i → v'.cell s = v.cell s

end View

/-- The slots of the live entries. -/
def taken : List Handle → List (Option W) → List Nat
  | h :: hs, some _ :: os => h.slot :: taken hs os
  | _ :: hs, none :: os => taken hs os
  | _, _ => []

theorem length_taken {hs : List Handle} {os : List (Option W)} (h : hs.length = os.length) :
    (taken hs os).length = os.countP Option.isSome := by
  induction hs generalizing os with
  | nil =>
    cases os with
    | nil => rfl
    | cons o os => cases h
  | cons x hs ih =>
    cases os with
    | nil => cases h
    | cons o os =>
      have hlen : hs.length = os.length := Nat.succ.inj h
      cases o with
      | none => simpa [taken] using ih hlen
      | some w => simpa [taken] using ih hlen

theorem taken_append {hs hs' : List Handle} {os os' : List (Option W)} (h : hs.length = os.length) :
    taken (hs ++ hs') (os ++ os') = taken hs os ++ taken hs' os' := by
  induction hs generalizing os with
  | nil =>
    cases os with
    | nil => rfl
    | cons o os => cases h
  | cons x hs ih =>
    cases os with
    | nil => cases h
    | cons o os =>
      have hlen : hs.length = os.length := Nat.succ.inj h
      cases o with
      | none => simpa [taken] using ih hlen
      | some w => simpa [taken] using ih hlen

theorem taken_dead (hs : List Handle) {os : List (Option W)} (h : ∀ o ∈ os, o = none) :
    taken hs os = [] := by
  induction hs generalizing os with
  | nil => rfl
  | cons x hs ih =>
    cases os with
    | nil => rfl
    | cons o os =>
      obtain rfl := h o (by simp)
      exact ih fun o ho => h o (by simp [ho])

theorem mem_taken {hs : List Handle} {os : List (Option W)} {k : Nat} {h : Handle} {w : W}
    (hh : hs[k]? = some h) (ho : os[k]? = some (some w)) : h.slot ∈ taken hs os := by
  induction hs generalizing os k with
  | nil => simp at hh
  | cons x hs ih =>
    cases os with
    | nil => simp at ho
    | cons o os =>
      cases k with
      | zero =>
        simp only [List.getElem?_cons_zero, Option.some.injEq] at hh ho
        subst hh ho
        simp [taken]
      | succ k =>
        have hmem := ih hh ho
        cases o with
        | none => exact hmem
        | some w' => exact List.mem_cons_of_mem _ hmem

/-- An entry that dies takes its slot with it. -/
theorem taken_kill {hs : List Handle} {os : List (Option W)} {k : Nat} {h : Handle} {w : W}
    (hh : hs[k]? = some h) (ho : os[k]? = some (some w)) :
    (taken hs os).Perm (h.slot :: taken hs (os.set k none)) := by
  induction hs generalizing os k with
  | nil => simp at hh
  | cons x hs ih =>
    cases os with
    | nil => simp at ho
    | cons o os =>
      cases k with
      | zero =>
        simp only [List.getElem?_cons_zero, Option.some.injEq] at hh ho
        subst hh ho
        exact .refl _
      | succ k =>
        have hperm := ih hh ho
        cases o with
        | none => exact hperm
        | some w' => exact (hperm.cons x.slot).trans (.swap _ _ _)

theorem taken_set {hs : List Handle} {os : List (Option W)} {k : Nat} {w : W}
    (ho : os[k]? = some (some w)) (w' : W) : taken hs (os.set k (some w')) = taken hs os := by
  induction hs generalizing os k with
  | nil => rfl
  | cons x hs ih =>
    cases os with
    | nil => rfl
    | cons o os =>
      cases k with
      | zero =>
        simp only [List.getElem?_cons_zero, Option.some.injEq] at ho
        subst ho
        rfl
      | succ k =>
        have hlast : os[k]? = some (some w) := ho
        have heq := ih hlast
        cases o with
        | none => exact heq
        | some u => exact congrArg (x.slot :: ·) heq

end View

section Tracks

variable {C W : Type} {Holds : W → C → Prop} {p : Pool W} {v v' : View C} {hs : List Handle}

/-- What a view has of one entry. -/
def Entry (Holds : W → C → Prop) (v : View C) (h : Handle) : Option W → Prop
  | some w => v.Resolves h ∧ Holds w (v.cell h.slot)
  | none => v.Gone h

/-- The slab has the pool's entries under these handles. -/
structure Tracks (Holds : W → C → Prop) (p : Pool W) (v : View C) (hs : List Handle) : Prop where
  capacity : p.capacity = v.capacity
  length : hs.length = p.issued.length
  entry : ∀ (k : Nat) h o, hs[k]? = some h → p.issued[k]? = some o → Entry Holds v h o
  nodup : (taken hs p.issued).Nodup
  occ : ∀ s, s ∈ taken hs p.issued ↔ v.occ s = true
  within : ∀ s n, v.occ s = true → v.capacity = some n → s < n

theorem View.Gone.not_resolves {h : Handle} (hg : v.Gone h)
    (hw : ∀ s n, v.occ s = true → v.capacity = some n → s < n) : ¬ v.Resolves h := by
  rintro ⟨hocc, hgen⟩
  rcases hg with ⟨n, hn, hle⟩ | hlt
  · have := hw _ n hocc hn
    omega
  · omega

theorem View.Gone.mono {h : Handle} (hg : v.Gone h) (hc : v'.capacity = v.capacity)
    (hgen : v.gen h.slot ≤ v'.gen h.slot) : v'.Gone h := by
  rcases hg with ⟨n, hn, hle⟩ | hlt
  · exact Or.inl ⟨n, hc.trans hn, hle⟩
  · exact Or.inr (Nat.lt_of_lt_of_le hlt hgen)

theorem Tracks.handle (ht : Tracks Holds p v hs) {k : Nat} {o : Option W}
    (ho : p.issued[k]? = some o) : ∃ h, hs[k]? = some h := by
  have hlt := (List.getElem?_eq_some_iff.mp ho).1
  rw [← ht.length] at hlt
  exact ⟨hs[k], List.getElem?_eq_getElem hlt⟩

/-- Another live entry has another slot. -/
theorem Tracks.slot_ne (ht : Tracks Holds p v hs) {k l : Nat} {h h' : Handle} {w w' : W}
    (hh : hs[k]? = some h) (ho : p.issued[k]? = some (some w)) (hh' : hs[l]? = some h')
    (ho' : p.issued[l]? = some (some w')) (hne : l ≠ k) : h'.slot ≠ h.slot := by
  have hperm := taken_kill hh ho
  have hnd := hperm.nodup_iff.mp ht.nodup
  have hmem : h'.slot ∈ taken hs (p.issued.set k none) :=
    mem_taken hh' (by rw [List.getElem?_set_ne (Ne.symm hne)]; exact ho')
  intro heq
  rw [heq] at hmem
  exact (List.nodup_cons.mp hnd).1 hmem

/-- The pool is full when the slab is: each live entry has a slot of its own. -/
theorem Tracks.full_iff (ht : Tracks Holds p v hs) : p.full = true ↔ v.Full := by
  have hlen : (taken hs p.issued).length = p.live := length_taken ht.length
  rw [Pool.full, ht.capacity, View.Full]
  cases hc : v.capacity with
  | none => simp
  | some n =>
    have hsub : taken hs p.issued ⊆ List.range n := fun s hs =>
      List.mem_range.mpr (ht.within s n ((ht.occ s).mp hs) hc)
    have hsubperm := List.subperm_of_subset ht.nodup hsub
    constructor
    · intro hfull
      have hle : (List.range n).length ≤ (taken hs p.issued).length := by
        simpa [hlen] using hfull
      have hperm := hsubperm.perm_of_length_le hle
      refine ⟨n, rfl, fun s hlt => (ht.occ s).mp (hperm.mem_iff.mpr (List.mem_range.mpr hlt))⟩
    · rintro ⟨m, hm, hall⟩
      cases hm
      have hsup : List.range n ⊆ taken hs p.issued := fun s hs =>
        (ht.occ s).mpr (hall s (List.mem_range.mp hs))
      have hle := (List.subperm_of_subset List.nodup_range hsup).length_le
      simpa [hlen] using hle

theorem View.Takes.not_full {i : Nat} (hv : v.Takes i v') : ¬ v.Full := by
  rintro ⟨n, hn, hall⟩
  have hocc := hall i (hv.within n hn)
  rw [hv.free] at hocc
  cases hocc

theorem getElem?_push {α : Type} {xs : List α} {x y : α} {k : Nat} (h : (xs ++ [x])[k]? = some y) :
    xs[k]? = some y ∨ k = xs.length ∧ y = x := by
  rcases Nat.lt_trichotomy k xs.length with hlt | heq | hgt
  · exact Or.inl (by rwa [List.getElem?_append_left hlt] at h)
  · subst heq
    simp only [List.getElem?_concat_length, Option.some.injEq] at h
    exact Or.inr ⟨rfl, h.symm⟩
  · rw [List.getElem?_eq_none (by simp; omega)] at h
    cases h

theorem getElem?_push_old {α : Type} {xs : List α} {x y : α} {k : Nat} (h : (xs ++ [x])[k]? = some y)
    (hne : k ≠ xs.length) : xs[k]? = some y :=
  (getElem?_push h).resolve_right fun hh => hne hh.1

/-- A slot is handed out. -/
theorem Tracks.alloc (ht : Tracks Holds p v hs) {i : Nat} (hv : v.Takes i v') {w : W}
    (hw : Holds w (v'.cell i)) : Tracks Holds (p.put (some w)) v' (hs ++ [⟨i, v.gen i⟩]) where
  capacity := ht.capacity.trans hv.capacity.symm
  length := by simp [Pool.put, ht.length]
  entry := by
    intro k h o hh ho
    by_cases hk : k = hs.length
    · subst hk
      rw [List.getElem?_concat_length] at hh
      rw [Pool.put, ht.length, List.getElem?_concat_length] at ho
      cases hh
      cases ho
      exact ⟨⟨by rw [hv.occ, if_pos rfl], hv.gen i⟩, hw⟩
    · have hh := getElem?_push_old hh hk
      have ho := getElem?_push_old ho (by rwa [← ht.length])
      have hold := ht.entry k h o hh ho
      cases o with
      | none => exact View.Gone.mono hold hv.capacity (Nat.le_of_eq (hv.gen _).symm)
      | some u =>
        obtain ⟨⟨hocc, hgen⟩, hholds⟩ := hold
        have hne : h.slot ≠ i := by
          intro heq
          rw [heq, hv.free] at hocc
          cases hocc
        exact ⟨⟨by rw [hv.occ, if_neg hne]; exact hocc, (hv.gen _).trans hgen⟩,
          by rw [hv.cell _ hne]; exact hholds⟩
  nodup := by
    rw [Pool.put, taken_append ht.length]
    refine List.nodup_append.mpr ⟨ht.nodup, List.nodup_singleton i, ?_⟩
    intro s hs t htmem heq
    rw [List.mem_singleton.mp htmem] at heq
    have hocc := (ht.occ s).mp hs
    rw [heq, hv.free] at hocc
    cases hocc
  occ := by
    intro s
    rw [Pool.put, taken_append ht.length, List.mem_append, ht.occ, hv.occ]
    by_cases hs : s = i
    · simp [taken, hs]
    · simp [taken, hs]
  within := by
    intro s n hocc hc
    rw [hv.capacity] at hc
    by_cases hs : s = i
    · rw [hs]
      exact hv.within n hc
    · rw [hv.occ, if_neg hs] at hocc
      exact ht.within s n hocc hc

/-- No slot is handed out, and what was handed out instead is dead. -/
theorem Tracks.fail (ht : Tracks Holds p v hs) {h : Handle} (hg : v.Gone h) :
    Tracks Holds (p.put none) v (hs ++ [h]) where
  capacity := ht.capacity
  length := by simp [Pool.put, ht.length]
  entry := by
    intro k h' o hh ho
    by_cases hk : k = hs.length
    · subst hk
      rw [List.getElem?_concat_length] at hh
      rw [Pool.put, ht.length, List.getElem?_concat_length] at ho
      cases hh
      cases ho
      exact hg
    · exact ht.entry k h' o (getElem?_push_old hh hk) (getElem?_push_old ho (by rwa [← ht.length]))
  nodup := by
    rw [Pool.put, taken_append ht.length]
    simpa [taken] using ht.nodup
  occ := by
    intro s
    rw [Pool.put, taken_append ht.length, ← ht.occ]
    simp [taken]
  within := ht.within

theorem Tracks.clear (ht : Tracks Holds p v hs) (hv : v.Clears v') :
    Tracks Holds { p with issued := p.issued.map fun _ => none } v' hs := by
  have hnil : taken hs (p.issued.map fun _ => (none : Option W)) = [] := by
    refine taken_dead hs fun o ho => ?_
    obtain ⟨_, _, rfl⟩ := List.mem_map.mp ho
    rfl
  refine ⟨ht.capacity.trans hv.capacity.symm, by simp [ht.length], ?_, ?_, ?_, ?_⟩
  · intro k h o hh ho
    rw [List.getElem?_map, Option.map_eq_some_iff] at ho
    obtain ⟨o', ho', rfl⟩ := ho
    have hold := ht.entry k h o' hh ho'
    cases o' with
    | none => exact View.Gone.mono hold hv.capacity (hv.gen _)
    | some w =>
      obtain ⟨⟨hocc, hgen⟩, _⟩ := hold
      exact Or.inr (hgen ▸ hv.bumped _ hocc)
  · rw [hnil]
    exact List.nodup_nil
  · intro s
    rw [hnil, hv.occ]
    simp
  · intro s n hocc
    rw [hv.occ] at hocc
    cases hocc

theorem Tracks.free (ht : Tracks Holds p v hs) {k : Nat} {h : Handle} {w : W} (hh : hs[k]? = some h)
    (ho : p.issued[k]? = some (some w)) (hv : v.Frees h.slot v') :
    Tracks Holds (p.set k none) v' hs := by
  have hperm := taken_kill hh ho
  have hnd := List.nodup_cons.mp (hperm.nodup_iff.mp ht.nodup)
  obtain ⟨⟨_, hgen⟩, _⟩ := ht.entry k h _ hh ho
  refine ⟨ht.capacity.trans hv.capacity.symm, by simp [Pool.set, ht.length], ?_, hnd.2, ?_, ?_⟩
  · intro l h' o hh' ho'
    by_cases hl : l = k
    · subst hl
      rw [hh] at hh'
      cases hh'
      rw [Pool.set, List.getElem?_set_self (List.getElem?_eq_some_iff.mp ho).1] at ho'
      cases ho'
      exact Or.inr (hgen ▸ hv.bumped)
    · rw [Pool.set, List.getElem?_set_ne (Ne.symm hl)] at ho'
      have hold := ht.entry l h' o hh' ho'
      cases o with
      | none =>
        refine View.Gone.mono hold hv.capacity ?_
        by_cases hs : h'.slot = h.slot
        · rw [hs]
          exact Nat.le_of_lt hv.bumped
        · exact Nat.le_of_eq (hv.gen _ hs).symm
      | some u =>
        obtain ⟨⟨hocc', hgen'⟩, hholds'⟩ := hold
        have hne := ht.slot_ne hh ho hh' ho' hl
        exact ⟨⟨by rw [hv.occ, if_neg hne]; exact hocc', (hv.gen _ hne).trans hgen'⟩,
          by rw [hv.cell _ hne]; exact hholds'⟩
  · intro s
    rw [hv.occ, Pool.set]
    by_cases hs : s = h.slot
    · subst hs
      simp [hnd.1]
    · rw [if_neg hs, ← ht.occ, hperm.mem_iff, List.mem_cons]
      simp [hs]
  · intro s n hocc hc
    rw [hv.capacity] at hc
    by_cases hs : s = h.slot
    · rw [hv.occ, if_pos hs] at hocc
      cases hocc
    · rw [hv.occ, if_neg hs] at hocc
      exact ht.within s n hocc hc

theorem Tracks.access (ht : Tracks Holds p v hs) {k : Nat} {h : Handle} {w w' : W}
    (hh : hs[k]? = some h) (ho : p.issued[k]? = some (some w)) (hv : v.Writes h.slot v')
    (hw : Holds w' (v'.cell h.slot)) : Tracks Holds (p.set k (some w')) v' hs := by
  have htaken : taken hs (p.issued.set k (some w')) = taken hs p.issued := taken_set ho w'
  obtain ⟨⟨hocc, hgen⟩, _⟩ := ht.entry k h _ hh ho
  refine ⟨ht.capacity.trans hv.capacity.symm, by simp [Pool.set, ht.length], ?_, ?_, ?_, ?_⟩
  · intro l h' o hh' ho'
    by_cases hl : l = k
    · subst hl
      rw [hh] at hh'
      cases hh'
      rw [Pool.set, List.getElem?_set_self (List.getElem?_eq_some_iff.mp ho).1] at ho'
      cases ho'
      exact ⟨⟨(hv.occ _).trans hocc, (hv.gen _).trans hgen⟩, hw⟩
    · rw [Pool.set, List.getElem?_set_ne (Ne.symm hl)] at ho'
      have hold := ht.entry l h' o hh' ho'
      cases o with
      | none => exact View.Gone.mono hold hv.capacity (Nat.le_of_eq (hv.gen _).symm)
      | some u =>
        obtain ⟨⟨hocc', hgen'⟩, hholds'⟩ := hold
        have hne := ht.slot_ne hh ho hh' ho' hl
        exact ⟨⟨(hv.occ _).trans hocc', (hv.gen _).trans hgen'⟩, by rw [hv.cell _ hne]; exact hholds'⟩
  · rw [Pool.set, htaken]
    exact ht.nodup
  · intro s
    rw [Pool.set, htaken, ht.occ, hv.occ]
  · intro s n hocc' hc
    rw [hv.capacity] at hc
    rw [hv.occ] at hocc'
    exact ht.within s n hocc' hc

/-- A handle resolves exactly while its entry lives. -/
theorem Tracks.resolves_iff (ht : Tracks Holds p v hs) {k : Nat} {h : Handle} {o : Option W}
    (hh : hs[k]? = some h) (ho : p.issued[k]? = some o) : v.Resolves h ↔ o.isSome = true := by
  have hentry := ht.entry k h o hh ho
  cases o with
  | none => exact iff_of_false (View.Gone.not_resolves hentry ht.within) Bool.false_ne_true
  | some w => exact iff_of_true hentry.1 rfl

end Tracks

end Slab
