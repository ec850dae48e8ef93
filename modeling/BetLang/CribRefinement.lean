import BetLang.CribSession
import BetLang.HollaArena

/-! The interpreter's arena against the runtime's typed crib: the arena grows without a bound and
keeps the elements themselves, the crib has its slots and resolves nothing without storage. -/

namespace BetLang.CribRefinement

open Slab (Handle View Pool Cells Tracks)
open Holla (Arena)

/-- An element is its leaves, as the initialiser or the body of a `holla` leaves them; without an
update the body only looks. -/
abbrev Op := Slab.Op (List Holla.Value) (Option (List Holla.Value))

def elementCells : Cells (List Holla.Value) (List Holla.Value) (Option (List Holla.Value))
    (List Holla.Value) where
  init v := v
  act a v := (a.getD v, v)

section Interp

structure InterpSession where
  arena : Arena
  tags : List (Nat × BitVec 64)

/-- Past the tags that were returned, a tag is `ghosted`. -/
def interpStep : Lockstep.Machine InterpSession Op (Slab.Obs (List Holla.Value))
  | s, .alloc init =>
    (⟨(s.arena.alloc init).1, s.tags ++ [(s.arena.alloc init).2]⟩, .issued true)
  | s, .clear => ({ s with arena := s.arena.evict }, .done)
  | s, .free k =>
    match s.tags[k]? with
    | some (slot, generation) => ({ s with arena := s.arena.evictSlot slot generation }, .done)
    | none => (s, .done)
  | s, .access k a =>
    match s.tags[k]? with
    | none => (s, .absent)
    | some (slot, generation) =>
      match s.arena.resolve slot generation with
      | none => (s, .absent)
      | some v =>
        match a with
        | none => (s, .found v)
        | some updated => ({ s with arena := s.arena.writeSlot slot generation updated }, .found v)

def Live (s : InterpSession) (k : Nat) : Prop :=
  ∃ slot generation v, s.tags[k]? = some (slot, generation) ∧
    s.arena.resolve slot generation = some v

/-- No counter that the operation bumps is at its last value. -/
def InterpUnwrapped (s : InterpSession) : Op → Prop
  | .clear => ∀ x ∈ s.arena.slots, x.generation ≠ BitVec.allOnes 64
  | .free k => ∀ slot generation, s.tags[k]? = some (slot, generation) →
    generation ≠ BitVec.allOnes 64
  | _ => True

def interpView (a : Arena) : View (List Holla.Value) where
  capacity := none
  occ i := (a.slots[i]?).any (·.live)
  gen i := ((a.slots[i]?).map (·.generation.toNat)).getD 0
  cell i := ((a.slots[i]?).map (·.value)).getD []

def interpHandle (t : Nat × BitVec 64) : Handle := ⟨t.1, t.2.toNat⟩

end Interp

section Arena

variable {a b : Arena}

theorem view_of_slot {i : Nat} {x : Holla.Slot} (hx : a.slots[i]? = some x) :
    (interpView a).occ i = x.live ∧ (interpView a).gen i = x.generation.toNat ∧
      (interpView a).cell i = x.value := by
  simp [interpView, hx]

theorem view_slot_congr {i : Nat} (h : b.slots[i]? = a.slots[i]?) :
    (interpView b).occ i = (interpView a).occ i ∧ (interpView b).gen i = (interpView a).gen i ∧
      (interpView b).cell i = (interpView a).cell i := by
  simp [interpView, h]

theorem alloc_slot (a : Arena) (v : List Holla.Value) :
    (a.alloc v).1.slots[(a.alloc v).2.1]? = some ⟨v, (a.alloc v).2.2, true⟩ ∧
      (interpView a).occ (a.alloc v).2.1 = false ∧
      (interpView a).gen (a.alloc v).2.1 = (a.alloc v).2.2.toNat := by
  rw [Arena.alloc]
  cases hf : a.slots.findIdx? fun s => !s.live with
  | none => simp [interpView]
  | some i =>
    obtain ⟨hi, hfree, -⟩ := List.findIdx?_eq_some_iff_getElem.mp hf
    have hx := List.getElem?_eq_getElem hi
    obtain ⟨hocc, hgen, -⟩ := view_of_slot hx
    dsimp only
    rw [List.getElem?_modify_eq, hx, hocc, hgen]
    exact ⟨rfl, by simpa using hfree, rfl⟩

theorem takes_alloc (a : Arena) (v : List Holla.Value) :
    (interpView a).Takes (a.alloc v).2.1 (interpView (a.alloc v).1) := by
  obtain ⟨hnew, hocc, hgen⟩ := alloc_slot a v
  obtain ⟨hocc', hgen', -⟩ := view_of_slot hnew
  have hother : ∀ s, s ≠ (a.alloc v).2.1 → (a.alloc v).1.slots[s]? = a.slots[s]? := fun s hs =>
    Holla.alloc_other a v (Ne.symm hs)
  refine ⟨hocc, fun n hn => (by cases hn), rfl, fun s => ?_, fun s => ?_, fun s hs => ?_⟩
  · by_cases hs : s = (a.alloc v).2.1
    · rw [if_pos hs, hs, hocc']
    · rw [if_neg hs]
      exact (view_slot_congr (hother s hs)).1
  · by_cases hs : s = (a.alloc v).2.1
    · rw [hs, hgen, hgen']
    · exact (view_slot_congr (hother s hs)).2.1
  · exact (view_slot_congr (hother s hs)).2.2

theorem toNat_succ {g : BitVec 64} (h : g ≠ BitVec.allOnes 64) : (g + 1).toNat = g.toNat + 1 :=
  Runtime.bump_toNat (m := ⟨true, g⟩) h

theorem clears_evict (h : ∀ x ∈ a.slots, x.generation ≠ BitVec.allOnes 64) :
    (interpView a).Clears (interpView a.evict) := by
  have hslot : ∀ s : Nat, a.evict.slots[s]? =
      (a.slots[s]?).map fun x : Holla.Slot => { x with generation := x.generation + 1, live := false } := by
    intro s
    rw [Arena.evict, List.getElem?_map]
  have hgen : ∀ (s : Nat) x, a.slots[s]? = some x → (interpView a.evict).gen s = (interpView a).gen s + 1 := by
    intro s x hx
    have hx' := hslot s
    rw [hx] at hx'
    rw [(view_of_slot hx').2.1, (view_of_slot hx).2.1]
    exact toNat_succ (h x (List.mem_of_getElem? hx))
  refine ⟨rfl, fun s => ?_, fun s => ?_, fun s hs => ?_⟩
  · dsimp only [interpView]
    rw [hslot]
    cases a.slots[s]? with
    | none => rfl
    | some x => rfl
  · cases hx : a.slots[s]? with
    | none => simp [interpView, hx]
    | some x =>
      rw [hgen s x hx]
      omega
  · cases hx : a.slots[s]? with
    | none => simp [interpView, hx] at hs
    | some x =>
      rw [hgen s x hx]
      omega

theorem resolves_iff {slot : Nat} {g : BitVec 64} :
    (interpView a).Resolves (interpHandle (slot, g)) ↔
      ∃ x, a.slots[slot]? = some x ∧ x.live = true ∧ x.generation = g := by
  rw [View.Resolves]
  dsimp only [interpView, interpHandle]
  cases a.slots[slot]? with
  | none => simp
  | some x => simp [BitVec.toNat_inj]

theorem current_iff {x : Holla.Slot} {g : BitVec 64} :
    x.current g = true ↔ x.live = true ∧ x.generation = g := by
  simp [Holla.Slot.current]

theorem resolve_of_slot {slot : Nat} {g : BitVec 64} {x : Holla.Slot} (hx : a.slots[slot]? = some x)
    (hlive : x.live = true) (hg : x.generation = g) : a.resolve slot g = some x.value := by
  rw [Arena.resolve, hx, Option.filter_some, current_iff.mpr ⟨hlive, hg⟩]
  rfl

theorem resolve_of_dead {slot : Nat} {g : BitVec 64}
    (h : ¬ (interpView a).Resolves (interpHandle (slot, g))) : a.resolve slot g = none := by
  rw [resolves_iff] at h
  rw [Arena.resolve]
  cases hx : a.slots[slot]? with
  | none => rfl
  | some x =>
    have hc : x.current g = false := by
      rw [← Bool.not_eq_true, current_iff]
      exact fun hh => h ⟨x, hx, hh⟩
    rw [Option.filter_some, hc]
    rfl

theorem frees_evictSlot {slot : Nat} {g : BitVec 64} {x : Holla.Slot} (hx : a.slots[slot]? = some x)
    (hlive : x.live = true) (hg : x.generation = g) (hwrap : g ≠ BitVec.allOnes 64) :
    (interpView a).Frees slot (interpView (a.evictSlot slot g)) := by
  have hself : (a.evictSlot slot g).slots[slot]? =
      some { x with live := false, generation := x.generation + 1 } := by
    rw [Arena.evictSlot]
    dsimp only
    rw [List.getElem?_modify_eq, hx, Option.map_eq_map, Option.map_some,
      if_pos (current_iff.mpr ⟨hlive, hg⟩)]
  have hother : ∀ s, s ≠ slot → (a.evictSlot slot g).slots[s]? = a.slots[s]? := fun s hs =>
    List.getElem?_modify_ne _ _ (Ne.symm hs)
  obtain ⟨hocc', hgen', -⟩ := view_of_slot hself
  refine ⟨rfl, fun s => ?_, fun s hs => (view_slot_congr (hother s hs)).2.1, ?_,
    fun s hs => (view_slot_congr (hother s hs)).2.2⟩
  · by_cases hs : s = slot
    · rw [if_pos hs, hs, hocc']
    · rw [if_neg hs]
      exact (view_slot_congr (hother s hs)).1
  · rw [(view_of_slot hx).2.1, hgen', hg, toNat_succ hwrap]
    exact Nat.lt_succ_self _

theorem evictSlot_of_dead {slot : Nat} {g : BitVec 64}
    (h : ¬ (interpView a).Resolves (interpHandle (slot, g))) : a.evictSlot slot g = a := by
  rw [resolves_iff] at h
  have hslots : (a.evictSlot slot g).slots = a.slots := by
    refine List.ext_getElem? fun s => ?_
    rw [Arena.evictSlot]
    dsimp only
    by_cases hs : slot = s
    · subst hs
      rw [List.getElem?_modify_eq]
      cases hx : a.slots[slot]? with
      | none => rfl
      | some x =>
        rw [Option.map_eq_map, Option.map_some, if_neg]
        exact fun hc => h ⟨x, hx, current_iff.mp hc⟩
    · rw [List.getElem?_modify_ne _ _ hs]
  exact congrArg (fun slots => (⟨a.width, slots⟩ : Arena)) hslots

theorem writes_writeSlot {slot : Nat} {g : BitVec 64} {x : Holla.Slot} (hx : a.slots[slot]? = some x)
    (hlive : x.live = true) (hg : x.generation = g) (v : List Holla.Value) :
    (interpView a).Writes slot (interpView (a.writeSlot slot g v)) ∧
      (interpView (a.writeSlot slot g v)).cell slot = v := by
  have hself : (a.writeSlot slot g v).slots[slot]? = some { x with value := v } := by
    rw [Arena.writeSlot]
    dsimp only
    rw [List.getElem?_modify_eq, hx, Option.map_eq_map, Option.map_some,
      if_pos (current_iff.mpr ⟨hlive, hg⟩)]
  have hother : ∀ s, s ≠ slot → (a.writeSlot slot g v).slots[s]? = a.slots[s]? := fun s hs =>
    List.getElem?_modify_ne _ _ (Ne.symm hs)
  obtain ⟨hocc, hgen, -⟩ := view_of_slot hx
  obtain ⟨hocc', hgen', hcell'⟩ := view_of_slot hself
  refine ⟨⟨rfl, fun s => ?_, fun s => ?_, fun s hs => (view_slot_congr (hother s hs)).2.2⟩, hcell'⟩
  · by_cases hs : s = slot
    · rw [hs, hocc, hocc']
    · exact (view_slot_congr (hother s hs)).1
  · by_cases hs : s = slot
    · rw [hs, hgen, hgen']
    · exact (view_slot_congr (hother s hs)).2.1

end Arena

section InterpStep

variable {s : InterpSession} {p : Pool (List Holla.Value)}

def InterpSession.handles (s : InterpSession) : List Handle := s.tags.map interpHandle

/-- The arena has the elements of the pool. -/
abbrev InterpTracks (p : Pool (List Holla.Value)) (s : InterpSession) : Prop :=
  Tracks (· = ·) p (interpView s.arena) s.handles

theorem InterpTracks.tag (h : InterpTracks p s) {k : Nat} {o : Option (List Holla.Value)}
    (ho : p.issued[k]? = some o) :
    ∃ slot g, s.tags[k]? = some (slot, g) ∧ s.handles[k]? = some (interpHandle (slot, g)) := by
  obtain ⟨hd, hh⟩ := h.handle ho
  rw [InterpSession.handles, List.getElem?_map, Option.map_eq_some_iff] at hh
  obtain ⟨⟨slot, g⟩, htag, rfl⟩ := hh
  exact ⟨slot, g, htag, by rw [InterpSession.handles, List.getElem?_map, htag]; rfl⟩

theorem InterpTracks.no_tag (h : InterpTracks p s) {k : Nat} (ho : p.issued[k]? = none) :
    s.tags[k]? = none := by
  have hlen := List.getElem?_eq_none_iff.mp ho
  rw [← h.length, InterpSession.handles, List.length_map] at hlen
  exact List.getElem?_eq_none hlen

theorem InterpTracks.alloc (h : InterpTracks p s) (hp : p.capacity = none) (init : List Holla.Value) :
    InterpTracks (Pool.step elementCells p (.alloc init)).1 (interpStep s (.alloc init)).1 ∧
      (interpStep s (.alloc init)).2 = (Pool.step elementCells p (.alloc init)).2 := by
  have hopen : p.full = false := by rw [Pool.full, hp]; rfl
  obtain ⟨hnew, -, hgen⟩ := alloc_slot s.arena init
  have ht := Tracks.alloc h (takes_alloc s.arena init) (w := init) (view_of_slot hnew).2.2.symm
  have hhandle : interpHandle (s.arena.alloc init).2 =
      ⟨(s.arena.alloc init).2.1, (interpView s.arena).gen (s.arena.alloc init).2.1⟩ := by
    rw [hgen]
    rfl
  rw [Pool.step, hopen]
  refine ⟨?_, rfl⟩
  rw [InterpTracks, interpStep, InterpSession.handles, List.map_append, List.map_singleton, hhandle]
  exact ht

theorem InterpTracks.free (h : InterpTracks p s) {k : Nat} (hok : InterpUnwrapped s (.free k)) :
    InterpTracks (Pool.step elementCells p (.free k)).1 (interpStep s (.free k)).1 ∧
      (interpStep s (.free k)).2 = (Pool.step elementCells p (.free k)).2 := by
  rw [Pool.step, interpStep]
  cases ho : p.issued[k]? with
  | none =>
    rw [h.no_tag ho, Pool.set_dead fun w hw => by rw [ho] at hw; cases hw]
    exact ⟨h, rfl⟩
  | some o =>
    obtain ⟨slot, g, htag, hh⟩ := h.tag ho
    have hres := h.resolves_iff hh ho
    rw [htag]
    cases o with
    | none =>
      have hdead := evictSlot_of_dead fun hr => Bool.false_ne_true (hres.mp hr)
      rw [Pool.set_dead fun w hw => by rw [ho] at hw; cases hw]
      dsimp only
      rw [hdead]
      exact ⟨h, rfl⟩
    | some w =>
      obtain ⟨x, hx, hlive, hg⟩ := resolves_iff.mp (hres.mpr rfl)
      exact ⟨Tracks.free h hh ho (frees_evictSlot hx hlive hg (hok slot g htag)), rfl⟩

theorem InterpTracks.access (h : InterpTracks p s) (k : Nat) (a : Option (List Holla.Value)) :
    InterpTracks (Pool.step elementCells p (.access k a)).1 (interpStep s (.access k a)).1 ∧
      (interpStep s (.access k a)).2 = (Pool.step elementCells p (.access k a)).2 := by
  rw [interpStep]
  cases ho : p.issued[k]? with
  | none =>
    rw [h.no_tag ho, Pool.step_access_dead _ _ fun w hw => by rw [ho] at hw; cases hw]
    exact ⟨h, rfl⟩
  | some o =>
    obtain ⟨slot, g, htag, hh⟩ := h.tag ho
    have hres := h.resolves_iff hh ho
    rw [htag]
    dsimp only
    cases o with
    | none =>
      rw [resolve_of_dead fun hr => Bool.false_ne_true (hres.mp hr),
        Pool.step_access_dead _ _ fun w hw => by rw [ho] at hw; cases hw]
      exact ⟨h, rfl⟩
    | some w =>
      obtain ⟨x, hx, hlive, hg⟩ := resolves_iff.mp (hres.mpr rfl)
      have hw : w = x.value := (h.entry k _ _ hh ho).2.trans (view_of_slot hx).2.2
      rw [resolve_of_slot hx hlive hg, Pool.step_access _ _ ho, ← hw]
      cases a with
      | none =>
        rw [show elementCells.act none w = (w, w) from rfl, Pool.set_self ho]
        exact ⟨h, rfl⟩
      | some u =>
        obtain ⟨hwrites, hcell⟩ := writes_writeSlot hx hlive hg u
        exact ⟨Tracks.access h hh ho hwrites hcell.symm, rfl⟩

/-- An arena is an unbounded pool. -/
theorem interp_step (h : InterpTracks p s) (hp : p.capacity = none) (op : Op)
    (hok : InterpUnwrapped s op) :
    InterpTracks (Pool.step elementCells p op).1 (interpStep s op).1 ∧
      (interpStep s op).2 = (Pool.step elementCells p op).2 := by
  cases op with
  | alloc init => exact h.alloc hp init
  | clear => exact ⟨Tracks.clear h (clears_evict hok), rfl⟩
  | free k => exact h.free hok
  | access k a => exact h.access k a

end InterpStep

section Crib

/-- Elements at their addresses. -/
def elementStorage : Runtime.Storage (Nat → List Holla.Value) (List Holla.Value)
    (Option (List Holla.Value)) (List Holla.Value) (List Holla.Value) where
  cell mem ptr := mem ptr
  init mem ptr init := Function.update mem ptr init
  act mem ptr a := (Function.update mem ptr (a.getD (mem ptr)), mem ptr)

abbrev CribSession := Runtime.Session TypedCrib (Nat → List Holla.Value)

abbrev cribStep : Lockstep.Machine CribSession Op (Slab.Obs (List Holla.Value)) :=
  Runtime.real.step elementStorage

/-- Elements without a size have no storage that could hold anything. -/
def HoldsElement (n : Nat) (w c : List Holla.Value) : Prop := n ≠ 0 → w = c

theorem elementStorage_models (n : Nat) :
    elementStorage.Models n (n ≠ 0) elementCells (HoldsElement n) (· = ·) where
  init mem ptr i _ := (Function.update_self (f := mem) ptr i).symm
  init_frame := by
    intro mem ptr i q hn hq
    exact Function.update_of_ne (by omega) _ _
  act := by
    intro mem ptr a w hn hw
    have hw : w = mem ptr := hw hn
    refine ⟨fun _ => ?_, hw.symm⟩
    rw [hw]
    exact (Function.update_self (f := mem) ptr _).symm
  act_frame := by
    intro mem ptr a q hn hq
    exact Function.update_of_ne (by omega) _ _
  unstored h _ _ hn := absurd hn h

/-- A `cop` finds a free slot, and behind a live tag there is storage. -/
def CribServes (s : CribSession) : Op → Prop
  | .alloc _ => ∃ m ∈ s.crib.slots, m.occupied = false
  | .access k _ => s.crib.live (s.tag k) = true → s.crib.elemSize ≠ 0
  | _ => True

/-- Both have the elements of one pool, which is bounded for the crib. -/
def Rel (n : Nat) (i : InterpSession) (c : CribSession) : Prop :=
  ∃ p, InterpTracks p.unbounded i ∧
    Runtime.real.Rel elementStorage CribInv n (n ≠ 0) (HoldsElement n) c p

variable {n : Nat} {i : InterpSession} {c : CribSession}

theorem live_real_iff {p : Pool (List Holla.Value)}
    (h : Runtime.real.Rel elementStorage CribInv n (n ≠ 0) (HoldsElement n) c p) (k : Nat) :
    c.crib.live (c.tag k) = true ↔ ∃ w, p.issued[k]? = some (some w) := by
  rw [← Runtime.live_real]
  exact h.live_iff (Runtime.lawful_real.size _ h.inv) k

theorem full_iff {p : Pool (List Holla.Value)}
    (h : Runtime.real.Rel elementStorage CribInv n (n ≠ 0) (HoldsElement n) c p) :
    p.full = true ↔ ¬ ∃ m ∈ c.crib.slots, m.occupied = false := by
  rw [h.tracks.full_iff]
  constructor
  · rintro ⟨_, hn, hall⟩ ⟨m, hm, ho⟩
    cases hn
    obtain ⟨j, hj, rfl⟩ := List.mem_iff_getElem.mp hm
    have hocc := hall j hj
    rw [Runtime.occ_iff (List.getElem?_eq_getElem hj)] at hocc
    rw [show c.crib.slots[j].occupied = true from hocc] at ho
    cases ho
  · intro hnone
    refine ⟨_, rfl, fun j hj => ?_⟩
    rw [Runtime.occ_iff (List.getElem?_eq_getElem hj)]
    by_contra ho
    exact hnone ⟨_, List.getElem_mem hj, by simpa using ho⟩

/-- Where the crib serves the operation, both do and observe the same. -/
theorem rel_step (op : Op) (h : Rel n i c) (hi : InterpUnwrapped i op)
    (hc : Runtime.real.Unwrapped c op) (hok : CribServes c op) :
    Rel n (interpStep i op).1 (cribStep c op).1 ∧ (interpStep i op).2 = (cribStep c op).2 := by
  obtain ⟨p, hip, hcp⟩ := h
  have hopen : ∀ init, op = .alloc init → p.full = false := by
    intro init heq
    rw [heq] at hok
    rw [← Bool.not_eq_true, full_iff hcp, not_not]
    exact hok
  have hstored : ∀ k a, op = .access k a → Runtime.real.Live c.crib (c.tag k) → n ≠ 0 := by
    intro k a heq hl
    rw [heq] at hok
    have hsize := hok (Runtime.live_real.mp hl)
    rwa [show c.crib.elemSize = n from hcp.size] at hsize
  obtain ⟨hi', hio⟩ := interp_step hip rfl op hi
  obtain ⟨hc', hco⟩ := Runtime.rel_step Runtime.lawful_real (elementStorage_models n) c p op hcp
    ⟨hc, hstored⟩
  rw [Pool.step_unbounded elementCells p op hopen] at hi' hio
  exact ⟨⟨_, hi', hc'⟩, hio.trans hco.eq.symm⟩

/-- Where it does not, the crib is full or has no storage, and only the interpreter goes on. -/
theorem observes_differ (op : Op) (h : Rel n i c) (hok : ¬ CribServes c op) :
    (interpStep i op).2 ≠ (cribStep c op).2 := by
  obtain ⟨p, hip, hcp⟩ := h
  cases op with
  | alloc init =>
    have hfull : ∀ m ∈ c.crib.slots, m.occupied = true := by
      intro m hm
      by_contra ho
      exact hok ⟨m, hm, by simpa using ho⟩
    have hnull : (betCop c.crib).2 = Tag.null :=
      (betCop_null_iff hcp.inv).mpr ((free_nil_iff_full hcp.inv).mpr hfull)
    rw [show (cribStep c (.alloc init)).2 = .issued (decide ((betCop c.crib).2 ≠ Tag.null)) from rfl,
      hnull]
    simp [interpStep]
  | access k a =>
    obtain ⟨hl, hz⟩ := Classical.not_imp.mp hok
    have hz : c.crib.elemSize = 0 := not_not.mp hz
    obtain ⟨w, hw⟩ := (live_real_iff hcp k).mp hl
    have hn : n = 0 := hcp.size.symm.trans hz
    have hbase : c.crib.base = 0 := hcp.unstored (not_not.mpr hn)
    have hptr : Runtime.real.hollaCheck c.crib (c.tag k) = 0 := Runtime.lawful_real.unbased _ _ hbase
    have hcrib : (cribStep c (.access k a)).2 = .absent := congrArg Prod.snd (if_pos hptr)
    have hinterp := (InterpTracks.access hip k a).2
    rw [Pool.step_access elementCells (p := p.unbounded) a hw] at hinterp
    rw [hcrib, hinterp]
    exact fun heq => by cases heq
  | clear => exact absurd trivial hok
  | free k => exact absurd trivial hok

def interpStart (width : Nat) : InterpSession := ⟨⟨width, []⟩, []⟩

def cribStart (alloc : Nat → Nat → Nat) (elemSize elemAlign : Nat) (capacity : BitVec 32)
    (mem : Nat → List Holla.Value) : CribSession :=
  ⟨betCribNew alloc elemSize elemAlign capacity, [], mem⟩

theorem rel_start {alloc : Nat → Nat → Nat} (halloc : ∀ size align, alloc size align ≠ 0)
    (elemSize elemAlign : Nat) (capacity : BitVec 32) (mem : Nat → List Holla.Value) (width : Nat) :
    Rel elemSize (interpStart width) (cribStart alloc elemSize elemAlign capacity mem) := by
  refine ⟨⟨some capacity.toNat, []⟩, ?_, ?_⟩
  · refine ⟨rfl, rfl, fun k h o hh => by simp [interpStart, InterpSession.handles] at hh,
      List.nodup_nil, fun k => ?_, fun k m hk => ?_⟩
    · simp [Slab.taken, Pool.unbounded, interpView, interpStart]
    · simp [interpView, interpStart] at hk
  · have hlen : (cribStart alloc elemSize elemAlign capacity mem).crib.slots.length = capacity.toNat :=
      List.length_replicate
    have hfree : ∀ m ∈ (cribStart alloc elemSize elemAlign capacity mem).crib.slots,
        m.occupied = false := fun m hm => by rw [Runtime.fresh_slots hm]
    have htracks : Tracks (HoldsElement elemSize)
        ⟨some (Runtime.real.slots (cribStart alloc elemSize elemAlign capacity mem).crib).length, []⟩
        (Runtime.real.view elementStorage elemSize (cribStart alloc elemSize elemAlign capacity mem))
        (cribStart alloc elemSize elemAlign capacity mem).handles :=
      Runtime.tracks_start (R := Runtime.real)
        (s := cribStart alloc elemSize elemAlign capacity mem) hfree rfl
    rw [show (Runtime.real.slots (cribStart alloc elemSize elemAlign capacity mem).crib).length =
      capacity.toNat from hlen] at htracks
    refine ⟨cribInv_new alloc elemSize elemAlign capacity,
      fun hsize => Runtime.slab_base_ne_zero halloc hsize _, fun hsize => ?_, rfl, htracks⟩
    rw [not_not.mp hsize]
    exact if_pos (by simp [saturatingMul])

/-- While no generation comes round, a program sees the same of the interpreter's arena and of the
runtime's crib exactly when each `cop` of the crib finds a free slot and each `holla` of a live tag
finds storage. -/
theorem arena_refines_crib_iff {alloc : Nat → Nat → Nat} (halloc : ∀ size align, alloc size align ≠ 0)
    (elemSize elemAlign : Nat) (capacity : BitVec 32) (mem : Nat → List Holla.Value) (width : Nat)
    (ops : List Op) (hinterp : Lockstep.TraceOk interpStep InterpUnwrapped (interpStart width) ops)
    (hcrib : Lockstep.TraceOk cribStep Runtime.real.Unwrapped
      (cribStart alloc elemSize elemAlign capacity mem) ops) :
    Lockstep.trace interpStep (interpStart width) ops =
        Lockstep.trace cribStep (cribStart alloc elemSize elemAlign capacity mem) ops ↔
      Lockstep.TraceOk cribStep CribServes (cribStart alloc elemSize elemAlign capacity mem) ops := by
  have h : Lockstep.trace cribStep (cribStart alloc elemSize elemAlign capacity mem) ops =
      Lockstep.trace interpStep (interpStart width) ops ↔
        Lockstep.TraceOk cribStep CribServes (cribStart alloc elemSize elemAlign capacity mem) ops :=
    Lockstep.trace_eq_iff (R := fun c i => Rel elemSize i c) (fun c i op hr hc hi hok => ⟨(rel_step op hr hi hc hok).1, (rel_step op hr hi hc hok).2.symm⟩)
    (fun c i op hr hok heq => observes_differ op hr hok heq.symm)
    (rel_start halloc elemSize elemAlign capacity mem width) ops hcrib hinterp
  rw [← h, eq_comm]

/-- One `cop` into a crib of one slot. -/
theorem arena_refines_crib_first :
    Lockstep.trace interpStep (interpStart 1) [.alloc [.int 1], .access 0 none] =
      Lockstep.trace cribStep (cribStart (fun _ _ => 4096) 8 8 1 fun _ => [])
        [.alloc [.int 1], .access 0 none] :=
  (arena_refines_crib_iff (fun _ _ => by decide) 8 8 1 (fun _ => []) 1
    [.alloc [.int 1], .access 0 none] ⟨trivial, trivial, trivial⟩ ⟨trivial, trivial, trivial⟩).mpr
    ⟨⟨⟨false, 0⟩, by decide, rfl⟩, fun _ => by decide, trivial⟩

/-- The second `cop` into a crib of one slot has a tag in the interpreter and the null tag in the
crib; the only element of a drip without fields is there in the interpreter and not in the crib. -/
theorem full_crib_differs :
    Lockstep.trace interpStep (interpStart 1) [.alloc [.int 1], .alloc [.int 2]] ≠
        Lockstep.trace cribStep (cribStart (fun _ _ => 4096) 8 8 1 fun _ => [])
          [.alloc [.int 1], .alloc [.int 2]] ∧
      Lockstep.trace interpStep (interpStart 0) [.alloc [], .access 0 none] ≠
        Lockstep.trace cribStep (cribStart (fun _ _ => 4096) 0 1 1 fun _ => [])
          [.alloc [], .access 0 none] := by
  decide

end Crib

end BetLang.CribRefinement
