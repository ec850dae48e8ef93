import BetLang.CribInvariant

/-! Generational safety of the typed crib over whole runs: a tag resolves until it is
evicted and never again, and the live tags are counted exactly. -/

namespace BetLang

/-- The generation counter of a slot, `0` past the end of the slab. -/
def TypedCrib.gen (c : TypedCrib) (s : BitVec 32) : Nat :=
  match c.slots[s.toNat]? with
  | none => 0
  | some m => m.generation.toNat

/-- How often one operation bumps the generation of slot `s`. -/
def CribOp.bumps (c : TypedCrib) (s : BitVec 32) : CribOp → Nat
  | .evict => 1
  | .evictSlot tag => if tag.slot = s ∧ c.live tag then 1 else 0
  | .cop => 0
  | .hollaCheck _ => 0

def TypedCrib.bumps (c : TypedCrib) (s : BitVec 32) : List CribOp → Nat
  | [] => 0
  | op :: ops => op.bumps c s + (op.exec c).bumps s ops

/-- The operation names the occupant of `tag`: a mass evict, or an evict through an equal handle. -/
def CribOp.evicts (tag : Tag) : CribOp → Bool
  | .evict => true
  | .evictSlot u => decide (u.SameHandle tag)
  | .cop => false
  | .hollaCheck _ => false

/-- The abstract crib: the tags handed out and not evicted since. -/
def CribOp.record (c : TypedCrib) (tags : List Tag) : CribOp → List Tag
  | .cop => if (betCop c).2 = Tag.null then tags else (betCop c).2 :: tags
  | op => tags.filter fun t => !op.evicts t

def TypedCrib.liveTags (c : TypedCrib) (tags : List Tag) : List CribOp → List Tag
  | [] => tags
  | op :: ops => (op.exec c).liveTags (op.record c tags) ops

theorem gen_exec {c : TypedCrib} (h : CribInv c) (op : CribOp) {s : BitVec 32}
    (hs : s.toNat < c.slots.length) (hlt : c.gen s + op.bumps c s < 2 ^ 64) :
    (op.exec c).gen s = c.gen s + op.bumps c s := by
  have hbump : ∀ m : SlotMeta, m.generation.toNat + 1 < 2 ^ 64 →
      m.bump.generation.toNat = m.generation.toNat + 1 := by
    intro m hm
    simp only [SlotMeta.bump, BitVec.toNat_add]
    exact Nat.mod_eq_of_lt hm
  cases op with
  | cop =>
    simp only [CribOp.exec, CribOp.bumps, Nat.add_zero]
    rcases betCop_cases h with ⟨_, he⟩ | ⟨rest, u, m, _, hm, _, he⟩
    · rw [he]
    · rw [he]
      unfold TypedCrib.gen
      by_cases hu : u = s
      · subst hu
        simp only [List.getElem?_set_self hs, hm]
      · have hne : u.toNat ≠ s.toNat := fun hh => hu (BitVec.eq_of_toNat_eq hh)
        simp only [List.getElem?_set_ne hne]
  | evict =>
    have hm := List.getElem?_eq_getElem hs
    simp only [TypedCrib.gen, hm, CribOp.bumps] at hlt
    simp only [CribOp.exec, CribOp.bumps, betEvict, TypedCrib.gen, List.getElem?_map, hm,
      Option.map_some]
    exact hbump _ hlt
  | evictSlot tag =>
    simp only [CribOp.exec]
    rcases betEvictSlot_cases c tag with ⟨hl, he⟩ | ⟨m, hl, hm, _, _, he⟩
    · simp [he, CribOp.bumps, hl]
    · rw [he]
      unfold TypedCrib.gen
      by_cases hu : tag.slot = s
      · subst hu
        simp only [TypedCrib.gen, hm, CribOp.bumps, hl, and_self, if_true] at hlt
        simp only [List.getElem?_set_self hs, CribOp.bumps, hl, and_self, if_true, hm]
        exact hbump m hlt
      · have hne : tag.slot.toNat ≠ s.toNat := fun hh => hu (BitVec.eq_of_toNat_eq hh)
        simp [List.getElem?_set_ne hne, CribOp.bumps, hu]
  | hollaCheck tag => simp [CribOp.exec, CribOp.bumps]

/-- Below `2 ^ 64` bumps the counter of a slot is the exact number of its bumps. -/
theorem gen_run {c : TypedCrib} (h : CribInv c) (ops : List CribOp) {s : BitVec 32}
    (hs : s.toNat < c.slots.length) (hlt : c.gen s + c.bumps s ops < 2 ^ 64) :
    (c.run ops).gen s = c.gen s + c.bumps s ops := by
  induction ops generalizing c with
  | nil => rfl
  | cons op ops ih =>
    simp only [TypedCrib.bumps] at hlt ⊢
    have hg := gen_exec h op hs (by omega)
    have hh := ih (cribInv_exec h op) (by rw [(exec_frame c op).2.2]; exact hs) (by omega)
    rw [run_cons, hh, hg]
    omega

theorem bumps_append (c : TypedCrib) (s : BitVec 32) (pre post : List CribOp) :
    c.bumps s (pre ++ post) = c.bumps s pre + (c.run pre).bumps s post := by
  induction pre generalizing c with
  | nil => simp [TypedCrib.bumps, run_nil]
  | cons op pre ih =>
    simp only [List.cons_append, TypedCrib.bumps, ih, run_cons]
    omega

theorem slot_lt_of_live {c : TypedCrib} {t : Tag} (h : c.live t = true) :
    t.slot.toNat < c.slots.length := by
  obtain ⟨m, hm, _⟩ := live_iff.mp h
  exact (List.getElem?_eq_some_iff.mp hm).1

theorem gen_of_live {c : TypedCrib} {t : Tag} (h : c.live t = true) :
    c.gen t.slot = t.generation.toNat := by
  obtain ⟨m, hm, _, hg⟩ := live_iff.mp h
  simp [TypedCrib.gen, hm, hg]

theorem not_live_of_gen {c : TypedCrib} {t : Tag} (h : c.gen t.slot ≠ t.generation.toNat) :
    c.live t = false := by
  by_contra hl
  exact h (gen_of_live (by simpa using hl))

theorem live_cop {c : TypedCrib} (h : CribInv c) (hne : (betCop c).2 ≠ Tag.null) :
    (betCop c).1.live (betCop c).2 = true := by
  rcases betCop_cases h with ⟨_, he⟩ | ⟨rest, s, m, _, hm, _, he⟩
  · exact absurd (by rw [he]) hne
  · have hs := (List.getElem?_eq_some_iff.mp hm).1
    rw [he]
    exact live_iff.mpr ⟨{ m with occupied := true }, by simp [Tag.new, hs], rfl, rfl⟩

/-- No operation but one that names its occupant ends a live tag. -/
theorem live_exec {c : TypedCrib} (h : CribInv c) {t : Tag} (hl : c.live t = true) (op : CribOp)
    (hop : op.evicts t = false) : (op.exec c).live t = true := by
  obtain ⟨mt, hmt, hot, hgt⟩ := live_iff.mp hl
  cases op with
  | cop =>
    simp only [CribOp.exec]
    rcases betCop_cases h with ⟨_, he⟩ | ⟨rest, s, m, _, hm, ho, he⟩
    · rw [he]
      exact hl
    · have hne : s.toNat ≠ t.slot.toNat := by
        intro hst
        rw [hst, hmt] at hm
        cases hm
        simp [ho] at hot
      rw [he]
      exact live_iff.mpr ⟨mt, by rw [List.getElem?_set_ne hne]; exact hmt, hot, hgt⟩
  | evict => simp [CribOp.evicts] at hop
  | evictSlot u =>
    simp only [CribOp.exec]
    rcases betEvictSlot_cases c u with ⟨_, he⟩ | ⟨m, _, hm, _, hg, he⟩
    · rw [he]
      exact hl
    · have hne : u.slot.toNat ≠ t.slot.toNat := by
        intro hst
        have hslot : u.slot = t.slot := BitVec.eq_of_toNat_eq hst
        rw [hst, hmt] at hm
        cases hm
        simp only [CribOp.evicts, decide_eq_false_iff_not] at hop
        exact hop ⟨hslot, hg.symm.trans hgt⟩
      rw [he]
      exact live_iff.mpr ⟨mt, by rw [List.getElem?_set_ne hne]; exact hmt, hot, hgt⟩
  | hollaCheck u => exact hl

/-- An operation that names the occupant of a live tag bumps its slot. -/
theorem bumps_of_evicts {c : TypedCrib} {t : Tag} (hl : c.live t = true) {op : CribOp}
    (hop : op.evicts t = true) : op.bumps c t.slot = 1 := by
  cases op with
  | cop => simp [CribOp.evicts] at hop
  | evict => rfl
  | evictSlot u =>
    have hh : u.SameHandle t := by simpa [CribOp.evicts] using hop
    simp [CribOp.bumps, hh.1, live_congr hh, hl]
  | hollaCheck u => simp [CribOp.evicts] at hop

/-- A live tag stays live over a run exactly while nothing in it names its occupant. -/
theorem live_run {c : TypedCrib} (h : CribInv c) {t : Tag} (hl : c.live t = true)
    (ops : List CribOp) (hlt : c.gen t.slot + c.bumps t.slot ops < 2 ^ 64) :
    (c.run ops).live t = !ops.any (CribOp.evicts t) := by
  induction ops generalizing c with
  | nil => simpa [run_nil] using hl
  | cons op ops ih =>
    simp only [TypedCrib.bumps] at hlt
    have hs := slot_lt_of_live hl
    have hg := gen_exec h op hs (by omega)
    have hs' : t.slot.toNat < (op.exec c).slots.length := by rw [(exec_frame c op).2.2]; exact hs
    rw [run_cons]
    cases hop : op.evicts t with
    | false =>
      rw [ih (cribInv_exec h op) (live_exec h hl op hop) (by omega)]
      simp [hop]
    | true =>
      have hb := bumps_of_evicts hl hop
      have hgr := gen_run (cribInv_exec h op) ops hs' (by omega)
      have hgl := gen_of_live hl
      simp only [List.any_cons, hop, Bool.true_or, Bool.not_true]
      exact not_live_of_gen (by omega)

/-- The recorded tags are the occupants of the slab, one for each occupied slot. -/
structure Ledger (c : TypedCrib) (tags : List Tag) : Prop where
  live : ∀ t ∈ tags, c.live t = true
  slots_nodup : (tags.map Tag.slot).Nodup
  covers : ∀ (s : BitVec 32) (m : SlotMeta), c.slots[s.toNat]? = some m → m.occupied = true →
    s ∈ tags.map Tag.slot

theorem tag_new_ne_null {c : TypedCrib} (h : CribInv c) {s : BitVec 32} {m : SlotMeta}
    (hm : c.slots[s.toNat]? = some m) (g : BitVec 64) : Tag.new s g ≠ Tag.null := by
  intro he
  have hs : s.toNat < c.slots.length := (List.getElem?_eq_some_iff.mp hm).1
  have hlt := h.length_lt
  rw [show s = BitVec.allOnes 32 from congrArg Tag.slot he] at hs
  simp only [BitVec.toNat_allOnes] at hs
  omega

theorem live_null {c : TypedCrib} (h : CribInv c) : c.live Tag.null = false := by
  by_contra hl
  obtain ⟨m, hm, _⟩ := live_iff.mp (by simpa using hl)
  exact tag_new_ne_null h hm 0 rfl

theorem betCop_null_iff {c : TypedCrib} (h : CribInv c) :
    (betCop c).2 = Tag.null ↔ c.free = [] := by
  rcases betCop_cases h with ⟨hf, he⟩ | ⟨rest, s, m, hf, hm, _, he⟩
  · simp [hf, he]
  · simp [hf, he, tag_new_ne_null h hm]

theorem ledger_cop {c : TypedCrib} (h : CribInv c) {tags : List Tag} (hl : Ledger c tags) :
    Ledger (betCop c).1 (CribOp.cop.record c tags) := by
  rcases betCop_cases h with ⟨_, he⟩ | ⟨rest, s, m, _, hm, ho, he⟩
  · simpa [CribOp.record, he] using hl
  · have hne : (betCop c).2 ≠ Tag.null := by
      rw [he]
      exact tag_new_ne_null h hm _
    have hrec : CribOp.cop.record c tags = (betCop c).2 :: tags := by simp [CribOp.record, hne]
    have hfresh : s ∉ tags.map Tag.slot := by
      intro hmem
      obtain ⟨t, ht, rfl⟩ := List.mem_map.mp hmem
      obtain ⟨mt, hmt, hot, _⟩ := live_iff.mp (hl.live t ht)
      rw [hm] at hmt
      cases hmt
      simp [ho] at hot
    rw [hrec]
    refine ⟨?_, ?_, ?_⟩
    · intro t ht
      rcases List.mem_cons.mp ht with rfl | ht
      · exact live_cop h hne
      · exact live_exec h (hl.live t ht) .cop rfl
    · rw [List.map_cons, he]
      exact List.nodup_cons.mpr ⟨hfresh, hl.slots_nodup⟩
    · intro u mu hmu hou
      rw [he] at hmu ⊢
      by_cases hus : u = s
      · simp [hus, Tag.new]
      · have hne' : s.toNat ≠ u.toNat := fun hh => hus (BitVec.eq_of_toNat_eq hh.symm)
        rw [List.getElem?_set_ne hne'] at hmu
        exact List.mem_cons_of_mem _ (hl.covers u mu hmu hou)

/-- Besides `cop`, an operation only removes the occupants it names. -/
theorem ledger_filter {c : TypedCrib} (h : CribInv c) {tags : List Tag} (hl : Ledger c tags)
    (op : CribOp)
    (hkeep : ∀ (s : BitVec 32) (m : SlotMeta), (op.exec c).slots[s.toNat]? = some m →
      m.occupied = true → c.slots[s.toNat]? = some m ∧
        ∀ t ∈ tags, t.slot = s → op.evicts t = false) :
    Ledger (op.exec c) (tags.filter fun t => !op.evicts t) := by
  refine ⟨?_, ?_, ?_⟩
  · intro t ht
    obtain ⟨ht, hop⟩ := List.mem_filter.mp ht
    exact live_exec h (hl.live t ht) op (by simpa using hop)
  · exact hl.slots_nodup.sublist (List.filter_sublist.map _)
  · intro s m hm ho
    obtain ⟨hm', hop⟩ := hkeep s m hm ho
    obtain ⟨t, ht, rfl⟩ := List.mem_map.mp (hl.covers s m hm' ho)
    exact List.mem_map.mpr ⟨t, List.mem_filter.mpr ⟨ht, by simp [hop t ht rfl]⟩, rfl⟩

theorem ledger_exec {c : TypedCrib} (h : CribInv c) {tags : List Tag} (hl : Ledger c tags)
    (op : CribOp) : Ledger (op.exec c) (op.record c tags) := by
  cases op with
  | cop => exact ledger_cop h hl
  | evict =>
    refine ledger_filter h hl .evict fun s m hm ho => ?_
    simp only [CribOp.exec, betEvict, List.getElem?_map, Option.map_eq_some_iff] at hm
    obtain ⟨m', _, rfl⟩ := hm
    simp [SlotMeta.bump] at ho
  | evictSlot u =>
    refine ledger_filter h hl (.evictSlot u) fun s m hm ho => ?_
    simp only [CribOp.exec] at hm
    rcases betEvictSlot_cases c u with ⟨hlu, he⟩ | ⟨mu, _, hmu, _, _, he⟩
    · rw [he] at hm
      refine ⟨hm, fun t ht _ => ?_⟩
      simp only [CribOp.evicts, decide_eq_false_iff_not]
      intro hh
      rw [live_congr hh, hl.live t ht] at hlu
      simp at hlu
    · rw [he] at hm
      have hus : u.slot ≠ s := by
        rintro rfl
        have hs := (List.getElem?_eq_some_iff.mp hmu).1
        rw [List.getElem?_set_self hs] at hm
        cases hm
        simp [SlotMeta.bump] at ho
      rw [List.getElem?_set_ne fun hh => hus (BitVec.eq_of_toNat_eq hh)] at hm
      refine ⟨hm, fun t _ hts => ?_⟩
      simp only [CribOp.evicts, decide_eq_false_iff_not]
      exact fun hh => hus (hh.1.trans hts)
  | hollaCheck u => exact ledger_filter h hl (.hollaCheck u) fun s m hm _ => ⟨hm, fun _ _ _ => rfl⟩

theorem ledger_run {c : TypedCrib} (h : CribInv c) {tags : List Tag} (hl : Ledger c tags)
    (ops : List CribOp) : Ledger (c.run ops) (c.liveTags tags ops) := by
  induction ops generalizing c tags with
  | nil => exact hl
  | cons op ops ih => exact ih (cribInv_exec h op) (ledger_exec h hl op)

/-- Free slots and recorded tags share out the slab. -/
theorem ledger_length {c : TypedCrib} (h : CribInv c) {tags : List Tag} (hl : Ledger c tags) :
    c.free.length + tags.length = c.slots.length := by
  have hperm : (c.free ++ tags.map Tag.slot).Perm
      ((List.range c.slots.length).map (BitVec.ofNat 32)) := by
    refine (List.perm_ext_iff_of_nodup ?_ (slotRange_nodup h.length_lt)).mpr fun s => ?_
    · refine List.nodup_append.mpr ⟨h.free_nodup, hl.slots_nodup, ?_⟩
      rintro s hs _ ht rfl
      obtain ⟨t, hmem, rfl⟩ := List.mem_map.mp ht
      obtain ⟨m, hm, ho⟩ := (h.mem_free _).mp hs
      obtain ⟨m', hm', ho', _⟩ := live_iff.mp (hl.live t hmem)
      rw [hm] at hm'
      cases hm'
      simp [ho] at ho'
    · rw [mem_slotRange h.length_lt, List.mem_append, h.mem_free]
      constructor
      · rintro (⟨m, hm, _⟩ | ht)
        · exact (List.getElem?_eq_some_iff.mp hm).1
        · obtain ⟨t, hmem, rfl⟩ := List.mem_map.mp ht
          exact slot_lt_of_live (hl.live t hmem)
      · intro hs
        have hm := List.getElem?_eq_getElem hs
        cases ho : (c.slots[s.toNat]).occupied with
        | false => exact Or.inl ⟨_, hm, ho⟩
        | true => exact Or.inr (hl.covers s _ hm ho)
  simpa using hperm.length_eq

theorem ledger_new (alloc : Nat → Nat → Nat) (elemSize elemAlign : Nat) (capacity : BitVec 32) :
    Ledger (betCribNew alloc elemSize elemAlign capacity) [] := by
  refine ⟨by simp, by simp, fun s m hm ho => ?_⟩
  simp only [betCribNew, List.getElem?_replicate] at hm
  split at hm
  · cases hm
    simp at ho
  · cases hm

/-- Different slots have disjoint storage. -/
theorem storage_disjoint {c : TypedCrib} {t u : Tag} (hne : t.slot ≠ u.slot) :
    (c.base + t.slot.toNat * c.elemSize) + c.elemSize ≤ c.base + u.slot.toNat * c.elemSize ∨
      (c.base + u.slot.toNat * c.elemSize) + c.elemSize ≤ c.base + t.slot.toNat * c.elemSize := by
  have hn : t.slot.toNat ≠ u.slot.toNat := fun hh => hne (BitVec.eq_of_toNat_eq hh)
  rcases Nat.lt_or_gt_of_ne hn with hlt | hlt
  · left
    have hh := Nat.mul_le_mul_right c.elemSize (Nat.succ_le_of_lt hlt)
    rw [Nat.succ_mul] at hh
    omega
  · right
    have hh := Nat.mul_le_mul_right c.elemSize (Nat.succ_le_of_lt hlt)
    rw [Nat.succ_mul] at hh
    omega

/-- A tag is live in the state its `cop` leads to, and its life ends with the first
operation that names it. -/
theorem live_after_cop {c : TypedCrib} (h : CribInv c) (pre post : List CribOp)
    (hlt : ∀ s, c.gen s + c.bumps s (pre ++ .cop :: post) < 2 ^ 64)
    (hne : (betCop (c.run pre)).2 ≠ Tag.null) :
    (c.run (pre ++ .cop :: post)).live (betCop (c.run pre)).2 =
      !post.any (CribOp.evicts (betCop (c.run pre)).2) := by
  have hp := cribInv_run h pre
  have hl := live_cop hp hne
  have hs := slot_lt_of_live hl
  have hslots : (betCop (c.run pre)).2.slot.toNat < c.slots.length := by
    have h1 := (exec_frame (c.run pre) .cop).2.2
    have h2 := (run_frame c pre).2.2
    simp only [CribOp.exec] at h1
    omega
  have hb := hlt (betCop (c.run pre)).2.slot
  rw [bumps_append] at hb
  have hg := gen_run h pre hslots (by omega)
  have hg' := gen_exec hp .cop (s := (betCop (c.run pre)).2.slot)
    (by rw [(run_frame c pre).2.2]; exact hslots) (by simp only [CribOp.bumps]; omega)
  simp only [TypedCrib.bumps, CribOp.exec, CribOp.bumps] at hb hg'
  rw [run_append, run_cons]
  exact live_run (cribInv_exec hp .cop) hl post (by simp only [CribOp.exec]; omega)

theorem slot_ne_of_live_cop {c : TypedCrib} (h : CribInv c) {t : Tag} (hl : c.live t = true)
    (hne : (betCop c).2 ≠ Tag.null) : t.slot ≠ (betCop c).2.slot := by
  rcases betCop_cases h with ⟨_, he⟩ | ⟨rest, s, m, _, hm, ho, he⟩
  · exact absurd (by rw [he]) hne
  · intro hts
    rw [he] at hts
    obtain ⟨mt, hmt, hot, _⟩ := live_iff.mp hl
    rw [show t.slot = s from hts, hm] at hmt
    cases hmt
    simp [ho] at hot

theorem gen_new (alloc : Nat → Nat → Nat) (elemSize elemAlign : Nat) (capacity : BitVec 32)
    (s : BitVec 32) : (betCribNew alloc elemSize elemAlign capacity).gen s = 0 := by
  simp only [TypedCrib.gen, betCribNew, List.getElem?_replicate]
  split
  · rfl
  · rename_i hm
    split at hm
    · cases hm
      rfl
    · cases hm

/-- Every run of a crib with a slab is generationally safe, up to the `2 ^ 64` wrap of a
counter: a tag resolves to its own storage until it is evicted and never again, live tags
have disjoint storage, the null tag never resolves, `cop` fails exactly when as many tags
are live as there are slots, and the free list is the set of unoccupied slots. -/
theorem crib_generational_safety (alloc : Nat → Nat → Nat) (elemSize elemAlign : Nat)
    (capacity : BitVec 32) (ops : List CribOp)
    (hbase : (betCribNew alloc elemSize elemAlign capacity).base ≠ 0)
    (hbumps : ∀ s, (betCribNew alloc elemSize elemAlign capacity).bumps s ops < 2 ^ 64) :
    let start := betCribNew alloc elemSize elemAlign capacity
    let c := start.run ops
    (∀ pre post, ops = pre ++ .cop :: post →
      let t := (betCop (start.run pre)).2
      t ≠ Tag.null →
        t.slot.toNat < capacity.toNat ∧
        betHollaCheck c t =
          if post.any (CribOp.evicts t) then 0 else start.base + t.slot.toNat * elemSize) ∧
    (∀ pre mid post, ops = pre ++ .cop :: (mid ++ .cop :: post) →
      let t := (betCop (start.run pre)).2
      let u := (betCop (start.run (pre ++ .cop :: mid))).2
      betHollaCheck c t ≠ 0 → betHollaCheck c u ≠ 0 →
        t.slot ≠ u.slot ∧
        (betHollaCheck c t + elemSize ≤ betHollaCheck c u ∨
          betHollaCheck c u + elemSize ≤ betHollaCheck c t)) ∧
    betHollaCheck c Tag.null = 0 ∧
    ((betCop c).2 = Tag.null ↔ (start.liveTags [] ops).length = capacity.toNat) ∧
    c.free.Nodup ∧
    ∀ s, s ∈ c.free ↔ ∃ m, c.slots[s.toNat]? = some m ∧ m.occupied = false := by
  intro start c
  have h0 : CribInv start := cribInv_new alloc elemSize elemAlign capacity
  have hc : CribInv c := cribInv_run h0 ops
  have hl : Ledger c (start.liveTags [] ops) :=
    ledger_run h0 (ledger_new alloc elemSize elemAlign capacity) ops
  obtain ⟨hcb, hce, hcl⟩ := run_frame start ops
  have hcap : start.slots.length = capacity.toNat := by simp [start, betCribNew]
  have hlt : ∀ s, start.gen s + start.bumps s ops < 2 ^ 64 := fun s => by
    rw [gen_new alloc elemSize elemAlign capacity s, Nat.zero_add]
    exact hbumps s
  have hholla : ∀ t, betHollaCheck c t =
      if c.live t then start.base + t.slot.toNat * elemSize else 0 := fun t => by
    rw [betHollaCheck_eq (by rw [hcb]; exact hbase) t, hcb, hce]
    rfl
  have hresolves : ∀ t, betHollaCheck c t ≠ 0 → c.live t = true := fun t ht => by
    by_contra hh
    exact ht (by rw [hholla, if_neg hh])
  have htag : ∀ t, c.live t = true → t ≠ Tag.null := fun t ht he => by
    rw [he, live_null hc] at ht
    cases ht
  refine ⟨?_, ?_, ?_, ?_, hc.free_nodup, hc.mem_free⟩
  · intro pre post hops t hne
    have hlive : c.live t = !post.any (CribOp.evicts t) := by
      have hh := live_after_cop h0 pre post (by rw [← hops]; exact hlt) hne
      rwa [← hops] at hh
    refine ⟨?_, ?_⟩
    · have hs := slot_lt_of_live (live_cop (cribInv_run h0 pre) hne)
      rwa [show (betCop (start.run pre)).1.slots.length = (start.run pre).slots.length from
        (exec_frame _ .cop).2.2, (run_frame start pre).2.2, hcap] at hs
    · rw [hholla, hlive]
      cases post.any (CribOp.evicts t) <;> rfl
  · intro pre mid post hops t u ht hu
    have hlt' := hresolves t ht
    have hlu' := hresolves u hu
    have hops' : ops = (pre ++ .cop :: mid) ++ .cop :: post := by simpa using hops
    have hend : c.live t = !(mid ++ .cop :: post).any (CribOp.evicts t) := by
      have hh := live_after_cop h0 pre (mid ++ .cop :: post) (by rw [← hops]; exact hlt) (htag t hlt')
      rwa [← hops] at hh
    have hmid : (start.run (pre ++ .cop :: mid)).live t = true := by
      have hh := live_after_cop h0 pre mid (fun s => by
        have hb := hlt s
        rw [hops', bumps_append] at hb
        omega) (htag t hlt')
      rw [hh]
      rw [hend, List.any_append, Bool.not_eq_true', Bool.or_eq_false_iff] at hlt'
      simp [t, hlt'.1]
    have hne := slot_ne_of_live_cop (cribInv_run h0 _) hmid (htag u hlu')
    refine ⟨hne, ?_⟩
    rw [hholla, hholla, if_pos hlt', if_pos hlu']
    exact storage_disjoint (c := start) hne
  · rw [hholla, live_null hc]
    rfl
  · have hlen := ledger_length hc hl
    rw [show c.slots.length = capacity.toNat from hcl.trans hcap] at hlen
    rw [betCop_null_iff hc, ← List.length_eq_zero_iff]
    omega

/-- One slot, filled, evicted and filled again: the first tag stays ghosted. -/
theorem crib_generational_safety_reuse :
    (∀ s, (betCribNew (fun _ _ => 4096) 8 8 1).bumps s
        [.cop, .evictSlot (Tag.new 0 0), .cop] < 2 ^ 64) ∧
      betHollaCheck ((betCribNew (fun _ _ => 4096) 8 8 1).run
        [.cop, .evictSlot (Tag.new 0 0), .cop]) (Tag.new 0 0) = 0 ∧
      betHollaCheck ((betCribNew (fun _ _ => 4096) 8 8 1).run
        [.cop, .evictSlot (Tag.new 0 0), .cop]) (Tag.new 0 1) = 4096 ∧
      (betCop ((betCribNew (fun _ _ => 4096) 8 8 1).run
        [.cop, .evictSlot (Tag.new 0 0), .cop])).2 = Tag.null := by
  have hb : ∀ s, (betCribNew (fun _ _ => 4096) 8 8 1).bumps s
      [.cop, .evictSlot (Tag.new 0 0), .cop] < 2 ^ 64 := by
    intro s
    simp only [TypedCrib.bumps, CribOp.bumps]
    split <;> omega
  have hs := crib_generational_safety (fun _ _ => 4096) 8 8 1
    [.cop, .evictSlot (Tag.new 0 0), .cop] (by decide) hb
  refine ⟨hb, ?_, ?_, ?_⟩
  · exact (hs.1 [] [.evictSlot (Tag.new 0 0), .cop] rfl (by decide)).2.trans (by decide)
  · exact (hs.1 [.cop, .evictSlot (Tag.new 0 0)] [] rfl (by decide)).2.trans (by decide)
  · exact hs.2.2.2.1.mpr (by decide)

end BetLang
