import BetLang.CribStub

/-! Runs of a typed crib: a program names tags by the `cop` that returned them, and works on what is
stored behind them. A crib is a pool of elements in the order of issue, as long as no generation comes
round. -/

namespace BetLang.Runtime

open Slab (Handle View Pool Cells Tracks)

variable {σ M ι α β β' W C : Type}

/-- Memory, with what is at an address, the store of an initialiser there, and an access. -/
structure Storage (M ι α β C : Type) where
  cell : M → Nat → C
  init : M → Nat → ι → M
  act : M → Nat → α → M × β

/-- The crib, the tags that its `cop`s returned, the memory. -/
structure Session (σ M : Type) where
  crib : σ
  tags : List Tag
  mem : M

def Session.tag (s : Session σ M) (k : Nat) : Tag := (s.tags[k]?).getD Tag.null

/-- The initialiser goes where the new tag resolves to. A store through the null pointer reaches no
element. -/
def place (R : Runtime σ) (St : Storage M ι α β C) (crib : σ) (tag : Tag) (mem : M) (i : ι) : M :=
  if R.hollaCheck crib tag = 0 then mem else St.init mem (R.hollaCheck crib tag) i

def step (R : Runtime σ) (St : Storage M ι α β C) :
    Lockstep.Machine (Session σ M) (Slab.Op ι α) (Slab.Obs β)
  | s, .alloc i =>
    (⟨(R.cop s.crib).1, s.tags ++ [(R.cop s.crib).2],
        R.place St (R.cop s.crib).1 (R.cop s.crib).2 s.mem i⟩,
      .issued ((R.cop s.crib).2 ≠ Tag.null))
  | s, .clear => ({ s with crib := R.evict s.crib }, .done)
  | s, .free k => ({ s with crib := R.evictSlot s.crib (s.tag k) }, .done)
  | s, .access k a =>
    let ptr := R.hollaCheck s.crib (s.tag k)
    if ptr = 0 then (s, .absent)
    else ({ s with mem := (St.act s.mem ptr a).1 }, .found (St.act s.mem ptr a).2)

/-- No counter that the operation bumps is at its last value. -/
def Unwrapped (R : Runtime σ) (s : Session σ M) : Slab.Op ι α → Prop
  | .clear => ∀ m ∈ R.slots s.crib, m.generation ≠ BitVec.allOnes 64
  | .free k => R.Live s.crib (s.tag k) → (s.tag k).generation ≠ BitVec.allOnes 64
  | _ => True

/-- The storage does for elements of `n` bytes what the cells do. Without storage (`stored` is false)
nothing can be asked of what is there. -/
structure Storage.Models (St : Storage M ι α β C) (n : Nat) (stored : Prop) (cells : Cells ι W α β')
    (Holds : W → C → Prop) (Ans : β → β' → Prop) : Prop where
  init : ∀ mem ptr i, Holds (cells.init i) (St.cell (St.init mem ptr i) ptr)
  init_frame : ∀ mem ptr i q, stored → ptr + n ≤ q ∨ q + n ≤ ptr →
    St.cell (St.init mem ptr i) q = St.cell mem q
  act : ∀ mem ptr a w, stored → Holds w (St.cell mem ptr) →
    Holds (cells.act a w).1 (St.cell (St.act mem ptr a).1 ptr) ∧
      Ans (St.act mem ptr a).2 (cells.act a w).2
  act_frame : ∀ mem ptr a q, stored → ptr + n ≤ q ∨ q + n ≤ ptr →
    St.cell (St.act mem ptr a).1 q = St.cell mem q
  unstored : ¬ stored → ∀ w c, Holds w c

inductive Answers (Ans : β → β' → Prop) : Slab.Obs β → Slab.Obs β' → Prop where
  | issued (ok : Bool) : Answers Ans (.issued ok) (.issued ok)
  | done : Answers Ans .done .done
  | absent : Answers Ans .absent .absent
  | found {x : β} {y : β'} (h : Ans x y) : Answers Ans (.found x) (.found y)

theorem Answers.eq {x y : Slab.Obs β} (h : Answers (· = ·) x y) : x = y := by
  cases h with
  | found h => rw [h]
  | _ => rfl

section View

variable (R : Runtime σ) (St : Storage M ι α β C) {s : Session σ M} {n : Nat}

def view (n : Nat) (s : Session σ M) : View C where
  capacity := some (R.slots s.crib).length
  occ i := ((R.slots s.crib)[i]?).any (·.occupied)
  gen i := (((R.slots s.crib)[i]?).map (·.generation.toNat)).getD 0
  cell i := St.cell s.mem (R.base s.crib + i * n)

def handle (t : Tag) : Handle := ⟨t.slot.toNat, t.generation.toNat⟩

def Session.handles (s : Session σ M) : List Handle := s.tags.map handle

structure Rel (Inv : σ → Prop) (n : Nat) (stored : Prop) (Holds : W → C → Prop) (s : Session σ M)
    (p : Pool W) : Prop where
  inv : Inv s.crib
  base : stored → R.slots s.crib ≠ [] → R.base s.crib ≠ 0
  unstored : ¬ stored → R.base s.crib = 0
  size : R.elemSize s.crib = n
  tracks : Tracks Holds p (R.view St n s) s.handles

variable {R St}

theorem resolves_iff {t : Tag} : (R.view St n s).Resolves (handle t) ↔ R.Live s.crib t := by
  rw [View.Resolves, Live]
  dsimp only [view, handle]
  cases hm : (R.slots s.crib)[t.slot.toNat]? with
  | none => simp
  | some m => simp [BitVec.toNat_inj]

theorem gone_null (hsize : (R.slots s.crib).length < 2 ^ 32) :
    (R.view St n s).Gone (handle Tag.null) := by
  refine Or.inl ⟨_, rfl, ?_⟩
  have hnull : (handle Tag.null).slot = 2 ^ 32 - 1 := by simp [handle, Tag.null]
  omega

theorem occ_iff {i : Nat} {m : SlotMeta} (hm : (R.slots s.crib)[i]? = some m) :
    (R.view St n s).occ i = m.occupied := by
  simp [view, hm]

theorem gen_of {i : Nat} {m : SlotMeta} (hm : (R.slots s.crib)[i]? = some m) :
    (R.view St n s).gen i = m.generation.toNat := by
  simp [view, hm]

end View

section Views

variable {R : Runtime σ} {St : Storage M ι α β C} {s s' : Session σ M} {n : Nat}

theorem view_congr (hslots : R.slots s'.crib = R.slots s.crib) (hbase : R.base s'.crib = R.base s.crib)
    (hmem : s'.mem = s.mem) : R.view St n s' = R.view St n s := by
  rw [view, view, hslots, hbase, hmem]

theorem cell_congr (hbase : R.base s'.crib = R.base s.crib) (hmem : s'.mem = s.mem) (i : Nat) :
    (R.view St n s').cell i = (R.view St n s).cell i := by
  rw [view, view, hbase, hmem]

theorem occ_set {i : Nat} {m : SlotMeta} (hslots : R.slots s'.crib = (R.slots s.crib).set i m)
    (hi : i < (R.slots s.crib).length) (k : Nat) :
    (R.view St n s').occ k = if k = i then m.occupied else (R.view St n s).occ k := by
  dsimp only [view]
  rw [hslots]
  by_cases hk : k = i
  · subst hk
    rw [List.getElem?_set_self hi, if_pos rfl, Option.any_some]
  · rw [List.getElem?_set_ne (Ne.symm hk), if_neg hk]

theorem gen_set {i : Nat} {m : SlotMeta} (hslots : R.slots s'.crib = (R.slots s.crib).set i m)
    (hi : i < (R.slots s.crib).length) (k : Nat) :
    (R.view St n s').gen k = if k = i then m.generation.toNat else (R.view St n s).gen k := by
  dsimp only [view]
  rw [hslots]
  by_cases hk : k = i
  · subst hk
    rw [List.getElem?_set_self hi, if_pos rfl]
    rfl
  · rw [List.getElem?_set_ne (Ne.symm hk), if_neg hk]

theorem capacity_set {i : Nat} {m : SlotMeta} (hslots : R.slots s'.crib = (R.slots s.crib).set i m) :
    (R.view St n s').capacity = (R.view St n s).capacity := by
  dsimp only [view]
  rw [hslots, List.length_set]

theorem bump_toNat {m : SlotMeta} (h : m.generation ≠ BitVec.allOnes 64) :
    m.bump.generation.toNat = m.generation.toNat + 1 := by
  have hlt := m.generation.isLt
  have hne : m.generation.toNat ≠ 2 ^ 64 - 1 := by
    intro heq
    exact h (BitVec.eq_of_toNat_eq (by simpa using heq))
  simp only [SlotMeta.bump, BitVec.toNat_add]
  exact Nat.mod_eq_of_lt (by simp; omega)

theorem takes_of_cop {i : Nat} {m : SlotMeta} (hm : (R.slots s.crib)[i]? = some m)
    (ho : m.occupied = false)
    (hslots : R.slots s'.crib = (R.slots s.crib).set i { m with occupied := true })
    (hcell : ∀ k, k ≠ i → (R.view St n s').cell k = (R.view St n s).cell k) :
    (R.view St n s).Takes i (R.view St n s') where
  free := (occ_iff hm).trans ho
  within := by
    intro k hk
    cases hk
    exact (List.getElem?_eq_some_iff.mp hm).1
  capacity := capacity_set hslots
  occ := occ_set hslots (List.getElem?_eq_some_iff.mp hm).1
  gen := by
    intro k
    rw [gen_set hslots (List.getElem?_eq_some_iff.mp hm).1]
    by_cases hk : k = i
    · rw [if_pos hk, hk, gen_of hm]
    · rw [if_neg hk]
  cell := hcell

theorem clears_of_evict (hslots : R.slots s'.crib = (R.slots s.crib).map SlotMeta.bump)
    (hwrap : ∀ m ∈ R.slots s.crib, m.generation ≠ BitVec.allOnes 64) :
    (R.view St n s).Clears (R.view St n s') := by
  have hgen : ∀ k m, (R.slots s.crib)[k]? = some m → (R.view St n s').gen k = m.generation.toNat + 1 := by
    intro k m hm
    have hm' : (R.slots s'.crib)[k]? = some m.bump := by rw [hslots, List.getElem?_map, hm]; rfl
    rw [gen_of hm', bump_toNat (hwrap m (List.mem_of_getElem? hm))]
  refine ⟨?_, fun k => ?_, fun k => ?_, fun k hk => ?_⟩
  · dsimp only [view]
    rw [hslots, List.length_map]
  · dsimp only [view]
    rw [hslots, List.getElem?_map]
    cases (R.slots s.crib)[k]? with
    | none => rfl
    | some m => rfl
  · cases hm : (R.slots s.crib)[k]? with
    | none => simp [view, hm]
    | some m =>
      rw [gen_of hm, hgen k m hm]
      omega
  · cases hm : (R.slots s.crib)[k]? with
    | none => simp [view, hm] at hk
    | some m =>
      rw [gen_of hm, hgen k m hm]
      omega

theorem frees_of_evictSlot {i : Nat} {m : SlotMeta} (hm : (R.slots s.crib)[i]? = some m)
    (hwrap : m.generation ≠ BitVec.allOnes 64)
    (hslots : R.slots s'.crib = (R.slots s.crib).set i m.bump)
    (hbase : R.base s'.crib = R.base s.crib) (hmem : s'.mem = s.mem) :
    (R.view St n s).Frees i (R.view St n s') := by
  have hi := (List.getElem?_eq_some_iff.mp hm).1
  refine ⟨capacity_set hslots, occ_set hslots hi, fun k hk => ?_, ?_, fun k _ => cell_congr hbase hmem k⟩
  · rw [gen_set hslots hi, if_neg hk]
  · rw [gen_set hslots hi, if_pos rfl, gen_of hm, bump_toNat hwrap]
    omega

/-- Different slots are apart. -/
theorem slots_apart (base : Nat) {i k : Nat} (n : Nat) (hk : k ≠ i) :
    base + i * n + n ≤ base + k * n ∨ base + k * n + n ≤ base + i * n := by
  rcases Nat.lt_or_gt_of_ne hk with hlk | hlk
  · have hmul := Nat.mul_le_mul_right n (Nat.succ_le_of_lt hlk)
    rw [Nat.succ_mul] at hmul
    omega
  · have hmul := Nat.mul_le_mul_right n (Nat.succ_le_of_lt hlk)
    rw [Nat.succ_mul] at hmul
    omega

theorem writes_of_access {i : Nat} (hcrib : s'.crib = s.crib)
    (hcell : ∀ q, R.base s.crib + i * n + n ≤ q ∨ q + n ≤ R.base s.crib + i * n →
      St.cell s'.mem q = St.cell s.mem q) :
    (R.view St n s).Writes i (R.view St n s') := by
  refine ⟨by dsimp only [view]; rw [hcrib], fun k => by dsimp only [view]; rw [hcrib],
    fun k => by dsimp only [view]; rw [hcrib], fun k hk => ?_⟩
  dsimp only [view]
  rw [hcrib]
  exact hcell _ (slots_apart _ n hk)

end Views

section Steps

variable {R : Runtime σ} {St : Storage M ι α β C} {Inv : σ → Prop} {n : Nat} {stored : Prop}
  {cells : Cells ι W α β'} {Holds : W → C → Prop} {Ans : β → β' → Prop} {s : Session σ M} {p : Pool W}

theorem handle_of_issued (ht : Tracks Holds p (R.view St n s) s.handles) {k : Nat} {o : Option W}
    (ho : p.issued[k]? = some o) : s.handles[k]? = some (handle (s.tag k)) := by
  obtain ⟨h, hh⟩ := ht.handle ho
  rw [Session.handles, List.getElem?_map, Option.map_eq_some_iff] at hh
  obtain ⟨t, ht, rfl⟩ := hh
  rw [Session.handles, List.getElem?_map, Session.tag, ht]
  rfl

theorem Rel.live_iff (h : Rel R St Inv n stored Holds s p) (hsize : (R.slots s.crib).length < 2 ^ 32)
    (k : Nat) : R.Live s.crib (s.tag k) ↔ ∃ w, p.issued[k]? = some (some w) := by
  have hres : (R.view St n s).Resolves (handle (s.tag k)) ↔ R.Live s.crib (s.tag k) := resolves_iff
  rw [← hres]
  cases ho : p.issued[k]? with
  | none =>
    have hlen : s.tags.length ≤ k := by
      have hp := List.getElem?_eq_none_iff.mp ho
      rwa [← h.tracks.length, Session.handles, List.length_map] at hp
    have hnull : s.tag k = Tag.null := by rw [Session.tag, List.getElem?_eq_none hlen, Option.getD_none]
    rw [hnull]
    exact iff_of_false ((gone_null hsize).not_resolves h.tracks.within) fun ⟨_, hw⟩ => by cases hw
  | some o =>
    rw [h.tracks.resolves_iff (handle_of_issued h.tracks ho) ho]
    cases o with
    | none => exact iff_of_false Bool.false_ne_true fun ⟨_, hw⟩ => by cases hw
    | some w => exact iff_of_true rfl ⟨w, rfl⟩

/-- The slot that a `cop` takes gets the initialiser and no other slot does. -/
theorem place_cell (hR : R.Lawful Inv) (hSt : St.Models n stored cells Holds Ans)
    (h : Rel R St Inv n stored Holds s p) {i : Nat} {m : SlotMeta}
    (hm : (R.slots s.crib)[i]? = some m) {crib : σ} (hbase : R.base crib = R.base s.crib)
    (helem : R.elemSize crib = n) {tag : Tag} (hslot : tag.slot.toNat = i) (hlive : R.Live crib tag)
    (init : ι) :
    Holds (cells.init init) (St.cell (R.place St crib tag s.mem init) (R.base s.crib + i * n)) ∧
      ∀ k, k ≠ i → St.cell (R.place St crib tag s.mem init) (R.base s.crib + k * n) =
        St.cell s.mem (R.base s.crib + k * n) := by
  by_cases hst : stored
  · have hne := h.base hst (List.ne_nil_of_mem (List.mem_of_getElem? hm))
    have hptr := hR.live crib tag (by rw [hbase]; exact hne) hlive
    rw [hbase, helem, hslot] at hptr
    rw [place, if_neg (by omega), hptr]
    exact ⟨hSt.init _ _ _, fun k hk => hSt.init_frame _ _ _ _ hst (slots_apart _ n hk)⟩
  · rw [place, if_pos (hR.unbased crib tag (hbase.trans (h.unstored hst)))]
    exact ⟨hSt.unstored hst _ _, fun _ _ => rfl⟩

theorem Rel.alloc (hR : R.Lawful Inv) (hSt : St.Models n stored cells Holds Ans)
    (h : Rel R St Inv n stored Holds s p) (init : ι) :
    Rel R St Inv n stored Holds (R.step St s (.alloc init)).1 (Pool.step cells p (.alloc init)).1 ∧
      Answers Ans (R.step St s (.alloc init)).2 (Pool.step cells p (.alloc init)).2 := by
  have hsize := hR.size _ h.inv
  obtain ⟨hinv, hbase, helem, hcop⟩ := hR.cop _ h.inv
  have helem := helem.trans h.size
  have hunstored := fun hst => hbase.trans (h.unstored hst)
  rw [step, Pool.step]
  rcases hcop with ⟨hfull, hslots, htag⟩ | ⟨i, m, hm, ho, hslots, htag⟩
  · have hpool : p.full = true := by
      rw [h.tracks.full_iff]
      refine ⟨_, rfl, fun k hk => ?_⟩
      rw [occ_iff (List.getElem?_eq_getElem hk)]
      exact hfull _ (List.getElem_mem hk)
    have hdead : ¬ R.Live (R.cop s.crib).1 Tag.null := by
      rintro ⟨m, hm, -⟩
      have hlt := (List.getElem?_eq_some_iff.mp hm).1
      rw [hslots] at hlt
      have hnull : Tag.null.slot.toNat = 2 ^ 32 - 1 := rfl
      omega
    have hmem : R.place St (R.cop s.crib).1 Tag.null s.mem init = s.mem :=
      if_pos (hR.dead _ _ hdead)
    have hview : R.view St n ⟨(R.cop s.crib).1, s.tags ++ [Tag.null], s.mem⟩ = R.view St n s :=
      view_congr hslots hbase rfl
    rw [if_pos hpool, htag, hmem]
    refine ⟨⟨hinv, by rw [hslots, hbase]; exact h.base, hunstored, helem, ?_⟩, ?_⟩
    · rw [hview, Session.handles, List.map_append]
      exact h.tracks.fail (gone_null hsize)
    · simpa using Answers.issued false
  · have hi := (List.getElem?_eq_some_iff.mp hm).1
    have hi32 : (BitVec.ofNat 32 i).toNat = i := by
      rw [BitVec.toNat_ofNat, Nat.mod_eq_of_lt (by omega)]
    have hlive : R.Live (R.cop s.crib).1 (R.cop s.crib).2 := by
      rw [htag]
      refine ⟨{ m with occupied := true }, ?_, rfl, rfl⟩
      rw [hslots, Tag.new, hi32, List.getElem?_set_self hi]
    obtain ⟨hholds, hcells⟩ := place_cell hR hSt h hm hbase helem (by rw [htag]; exact hi32) hlive init
    have hv : (R.view St n s).Takes i (R.view St n ⟨(R.cop s.crib).1, s.tags ++ [(R.cop s.crib).2],
        R.place St (R.cop s.crib).1 (R.cop s.crib).2 s.mem init⟩) := by
      refine takes_of_cop hm ho hslots fun k hk => ?_
      dsimp only [view]
      rw [hbase]
      exact hcells k hk
    have hpool : ¬ p.full = true := fun hf => hv.not_full (h.tracks.full_iff.mp hf)
    have hne : Tag.new (BitVec.ofNat 32 i) m.generation ≠ Tag.null := by
      intro heq
      have hslot := congrArg (fun t : Tag => t.slot.toNat) heq
      simp only [Tag.new, Tag.null, hi32, BitVec.toNat_allOnes] at hslot
      omega
    have hhandle : handle (R.cop s.crib).2 = ⟨i, (R.view St n s).gen i⟩ := by
      rw [htag, gen_of hm, handle, Tag.new, hi32]
    rw [if_neg hpool]
    refine ⟨⟨hinv, fun hst _ => ?_, hunstored, helem, ?_⟩, ?_⟩
    · dsimp only
      rw [hbase]
      exact h.base hst (List.ne_nil_of_length_pos (by omega))
    · have htracks := h.tracks.alloc hv (w := cells.init init) (by
        dsimp only [view]
        rw [hbase]
        exact hholds)
      rw [Session.handles, List.map_append, List.map_singleton]
      dsimp only
      rw [hhandle]
      exact htracks
    · dsimp only
      rw [htag]
      simpa [hne] using Answers.issued true

theorem Rel.clear (hR : R.Lawful Inv) (h : Rel R St Inv n stored Holds s p)
    (hok : R.Unwrapped (ι := ι) (α := α) s .clear) :
    Rel R St Inv n stored Holds (R.step St s .clear).1 (Pool.step cells p .clear).1 ∧
      Answers Ans (R.step St s .clear).2 (Pool.step cells p .clear).2 := by
  obtain ⟨hinv, hbase, helem, hslots⟩ := hR.evict _ h.inv
  have hv : (R.view St n s).Clears (R.view St n { s with crib := R.evict s.crib }) :=
    clears_of_evict hslots hok
  refine ⟨⟨hinv, fun hst hne => ?_, fun hst => hbase.trans (h.unstored hst), helem.trans h.size,
    h.tracks.clear hv⟩, .done⟩
  rw [show R.base (R.step St s .clear).1.crib = R.base s.crib from hbase]
  exact h.base hst fun hnil => hne (by rw [step, hslots, hnil]; rfl)

theorem Rel.free (hR : R.Lawful Inv) (h : Rel R St Inv n stored Holds s p) {k : Nat}
    (hok : R.Unwrapped (ι := ι) (α := α) s (.free k)) :
    Rel R St Inv n stored Holds (R.step St s (.free k)).1 (Pool.step cells p (.free k)).1 ∧
      Answers Ans (R.step St s (.free k)).2 (Pool.step cells p (.free k)).2 := by
  obtain ⟨hinv, hbase, helem, hdead, hlive⟩ := hR.evictSlot _ (s.tag k) h.inv
  have hunstored := fun hst => hbase.trans (h.unstored hst)
  rw [step, Pool.step]
  have hissued := h.live_iff (hR.size _ h.inv) k
  by_cases hl : R.Live s.crib (s.tag k)
  · obtain ⟨w, hw⟩ := hissued.mp hl
    obtain ⟨m, hm, ho, hg⟩ := hl
    have hslots := hlive m hm ⟨m, hm, ho, hg⟩
    have hwrap : m.generation ≠ BitVec.allOnes 64 := hg ▸ hok ⟨m, hm, ho, hg⟩
    have hv : (R.view St n s).Frees (handle (s.tag k)).slot
        (R.view St n { s with crib := R.evictSlot s.crib (s.tag k) }) :=
      frees_of_evictSlot hm hwrap hslots hbase rfl
    refine ⟨⟨hinv, fun hst _ => ?_, hunstored, helem.trans h.size, ?_⟩, .done⟩
    · dsimp only
      rw [hbase]
      exact h.base hst (List.ne_nil_of_mem (List.mem_of_getElem? hm))
    · exact h.tracks.free (handle_of_issued h.tracks hw) hw hv
  · have hdead := hdead hl
    have hview : R.view St n { s with crib := R.evictSlot s.crib (s.tag k) } = R.view St n s :=
      view_congr hdead hbase rfl
    have hpool : p.set k none = p := Pool.set_dead fun w hw => hl (hissued.mpr ⟨w, hw⟩)
    rw [hpool]
    refine ⟨⟨hinv, by rw [hdead, hbase]; exact h.base, hunstored, helem.trans h.size, ?_⟩, .done⟩
    rw [hview]
    exact h.tracks

theorem Rel.access (hR : R.Lawful Inv) (hSt : St.Models n stored cells Holds Ans)
    (h : Rel R St Inv n stored Holds s p) (k : Nat) (a : α)
    (hst : R.Live s.crib (s.tag k) → stored) :
    Rel R St Inv n stored Holds (R.step St s (.access k a)).1 (Pool.step cells p (.access k a)).1 ∧
      Answers Ans (R.step St s (.access k a)).2 (Pool.step cells p (.access k a)).2 := by
  have hissued := h.live_iff (hR.size _ h.inv) k
  rw [step]
  by_cases hl : R.Live s.crib (s.tag k)
  · have hst := hst hl
    obtain ⟨w, hw⟩ := hissued.mp hl
    obtain ⟨m, hm, -, -⟩ := id hl
    have hbase := h.base hst (List.ne_nil_of_mem (List.mem_of_getElem? hm))
    have hptr := hR.live _ _ hbase hl
    rw [h.size] at hptr
    have hne : R.hollaCheck s.crib (s.tag k) ≠ 0 := by omega
    have hentry := h.tracks.entry k _ _ (handle_of_issued h.tracks hw) hw
    obtain ⟨hholds, hans⟩ := hSt.act s.mem (R.hollaCheck s.crib (s.tag k)) a w hst
      (by rw [hptr]; exact hentry.2)
    rw [Pool.step_access _ _ hw]
    dsimp only
    rw [if_neg hne]
    have hwrites : (R.view St n s).Writes (handle (s.tag k)).slot (R.view St n
        { s with mem := (St.act s.mem (R.hollaCheck s.crib (s.tag k)) a).1 }) := by
      refine writes_of_access rfl fun q hq => ?_
      exact hSt.act_frame _ _ _ _ hst (hptr ▸ hq)
    refine ⟨⟨h.inv, h.base, h.unstored, h.size, ?_⟩, .found hans⟩
    exact h.tracks.access (handle_of_issued h.tracks hw) hw hwrites (by
      rw [hptr] at hholds
      rw [hptr]
      exact hholds)
  · have hdead := hR.dead _ _ hl
    rw [Pool.step_access_dead _ _ fun w hw => hl (hissued.mpr ⟨w, hw⟩)]
    dsimp only
    rw [if_pos hdead]
    exact ⟨h, .absent⟩

/-- What an operation must find: no counter at its last value, and storage behind a live tag. -/
def StepOk (R : Runtime σ) (stored : Prop) (s : Session σ M) (op : Slab.Op ι α) : Prop :=
  R.Unwrapped s op ∧ ∀ k a, op = .access k a → R.Live s.crib (s.tag k) → stored

theorem rel_step (hR : R.Lawful Inv) (hSt : St.Models n stored cells Holds Ans) (s : Session σ M)
    (p : Pool W) (op : Slab.Op ι α) (h : Rel R St Inv n stored Holds s p) (hok : R.StepOk stored s op) :
    Rel R St Inv n stored Holds (R.step St s op).1 (Pool.step cells p op).1 ∧
      Answers Ans (R.step St s op).2 (Pool.step cells p op).2 := by
  cases op with
  | alloc init => exact h.alloc hR hSt init
  | clear => exact h.clear hR hok.1
  | free k => exact h.free hR hok.1
  | access k a => exact h.access hR hSt k a (hok.2 k a rfl)

end Steps

section Runs

variable {R : Runtime σ} {St : Storage M ι α β C} {Inv : σ → Prop} {n : Nat} {stored : Prop}
  {cells : Cells ι W α β'} {Holds : W → C → Prop} {Ans : β → β' → Prop}

theorem tracks_start {s : Session σ M} (hfree : ∀ m ∈ R.slots s.crib, m.occupied = false)
    (htags : s.tags = []) :
    Tracks Holds ⟨some (R.slots s.crib).length, []⟩ (R.view St n s) s.handles := by
  have hocc : ∀ k, (R.view St n s).occ k = false := by
    intro k
    dsimp only [view]
    cases hm : (R.slots s.crib)[k]? with
    | none => rfl
    | some m => exact hfree m (List.mem_of_getElem? hm)
  have hnil : s.handles = [] := by rw [Session.handles, htags]; rfl
  rw [hnil]
  refine ⟨rfl, rfl, fun k h o hh => by simp at hh, List.nodup_nil, fun k => ?_, fun k m hk => ?_⟩
  · rw [hocc]
    simp [Slab.taken]
  · rw [hocc] at hk
    cases hk

theorem trace_answers (hR : R.Lawful Inv) (hSt : St.Models n stored cells Holds Ans) {s : Session σ M}
    (hinv : Inv s.crib) (hbase : stored → R.slots s.crib ≠ [] → R.base s.crib ≠ 0)
    (hunstored : ¬ stored → R.base s.crib = 0) (hsize : R.elemSize s.crib = n)
    (hfree : ∀ m ∈ R.slots s.crib, m.occupied = false) (htags : s.tags = [])
    (ops : List (Slab.Op ι α)) (hok : Lockstep.TraceOk (R.step St) (R.StepOk stored) s ops) :
    List.Forall₂ (Answers Ans) (Lockstep.trace (R.step St) s ops)
      (Lockstep.trace (Pool.step cells) ⟨some (R.slots s.crib).length, []⟩ ops) :=
  Lockstep.trace_rel ⟨hinv, hbase, hunstored, hsize, tracks_start hfree htags⟩ (rel_step hR hSt) ops hok

/-- A counter is at most the number of operations. -/
theorem gen_le_step (hR : R.Lawful Inv) {s : Session σ M} (hinv : Inv s.crib) {j : Nat}
    (hj : ∀ m ∈ R.slots s.crib, m.generation.toNat ≤ j) (op : Slab.Op ι α) :
    Inv (R.step St s op).1.crib ∧ ∀ m ∈ R.slots (R.step St s op).1.crib, m.generation.toNat ≤ j + 1 := by
  have hbump : ∀ m : SlotMeta, m.generation.toNat ≤ j → m.bump.generation.toNat ≤ j + 1 := by
    intro m hm
    simp only [SlotMeta.bump, BitVec.toNat_add]
    exact Nat.le_trans (Nat.mod_le _ _) (by simpa using hm)
  have hsame : ∀ m ∈ R.slots s.crib, m.generation.toNat ≤ j + 1 := fun m hm =>
    Nat.le_succ_of_le (hj m hm)
  cases op with
  | alloc _ =>
    obtain ⟨hcop, -, -, hcases⟩ := hR.cop _ hinv
    refine ⟨hcop, ?_⟩
    rcases hcases with ⟨_, hslots, _⟩ | ⟨i, m, hm, _, hslots, _⟩
    · exact hslots ▸ hsame
    · intro m' hm'
      rw [step, hslots] at hm'
      rcases List.mem_or_eq_of_mem_set hm' with hold | rfl
      · exact hsame m' hold
      · exact hsame m (List.mem_of_getElem? hm)
  | clear =>
    obtain ⟨hevict, -, -, hslots⟩ := hR.evict _ hinv
    refine ⟨hevict, fun m hm => ?_⟩
    rw [step, hslots] at hm
    obtain ⟨m', hm', rfl⟩ := List.mem_map.mp hm
    exact hbump m' (hj m' hm')
  | free k =>
    obtain ⟨hevict, -, -, hdead, hlive⟩ := hR.evictSlot _ (s.tag k) hinv
    refine ⟨hevict, fun m hm => ?_⟩
    rw [step] at hm
    by_cases hl : R.Live s.crib (s.tag k)
    · obtain ⟨m', hm', -, -⟩ := id hl
      rw [hlive m' hm' hl] at hm
      rcases List.mem_or_eq_of_mem_set hm with hold | rfl
      · exact hsame m hold
      · exact hbump m' (hj m' (List.mem_of_getElem? hm'))
    · rw [hdead hl] at hm
      exact hsame m hm
  | access k a =>
    rw [step]
    by_cases hp : R.hollaCheck s.crib (s.tag k) = 0
    · rw [if_pos hp]
      exact ⟨hinv, hsame⟩
    · rw [if_neg hp]
      exact ⟨hinv, hsame⟩

/-- No counter comes round in fewer than `2 ^ 64` operations. -/
theorem unwrapped_of_length (hR : R.Lawful Inv) {s : Session σ M} (hinv : Inv s.crib) {j : Nat}
    (hj : ∀ m ∈ R.slots s.crib, m.generation.toNat ≤ j) (ops : List (Slab.Op ι α))
    (hlen : j + ops.length < 2 ^ 64) : Lockstep.TraceOk (R.step St) R.Unwrapped s ops := by
  induction ops generalizing s j with
  | nil => trivial
  | cons op ops ih =>
    rw [List.length_cons] at hlen
    have hne : ∀ m ∈ R.slots s.crib, m.generation ≠ BitVec.allOnes 64 := by
      intro m hm heq
      have hle := hj m hm
      rw [heq, BitVec.toNat_allOnes] at hle
      omega
    obtain ⟨hinv', hj'⟩ := gen_le_step hR hinv hj op
    refine ⟨?_, ih hinv' hj' (by omega)⟩
    cases op with
    | alloc _ => trivial
    | clear => exact hne
    | free k =>
      rintro ⟨m, hm, _, hg⟩
      exact hg ▸ hne m (List.mem_of_getElem? hm)
    | access k a => trivial

end Runs

end BetLang.Runtime
