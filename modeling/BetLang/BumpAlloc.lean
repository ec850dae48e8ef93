import BetLang.BumpCrib
import Mathlib.Algebra.Group.Nat.Defs

/-! The blocks of a bump crib: aligned, each in one chunk, and apart from each other until the next
reset. -/

namespace BetLang.Bump

open Regions

/-- What the system allocator documents: the base of a chunk is aligned, the chunk does not run past
the end of the address space, and it is apart from the ones in use. -/
structure Lawful (sys : System) : Prop where
  aligned : ∀ {chunks size align base}, layoutOk size align = true →
    sys chunks size align = some base → align ∣ base
  inSpace : ∀ {chunks size align base}, layoutOk size align = true →
    sys chunks size align = some base → base + size ≤ usizeMax
  apart : ∀ {chunks size align base}, layoutOk size align = true →
    sys chunks size align = some base → ∀ c ∈ chunks, (Region.mk base size).Apart c.region

section Arithmetic

theorem toNat_and_not_mask (x : BitVec 64) (k : Nat) :
    (x &&& ~~~BitVec.ofNat 64 (2 ^ k - 1)).toNat = x.toNat / 2 ^ k * 2 ^ k := by
  apply Nat.eq_of_testBit_eq
  intro i
  rw [BitVec.testBit_toNat, BitVec.getLsbD_and, BitVec.getLsbD_not, BitVec.getLsbD_ofNat,
    Nat.testBit_two_pow_sub_one, Nat.testBit_mul_two_pow, Nat.testBit_div_two_pow,
    ← BitVec.testBit_toNat]
  by_cases hk : k ≤ i
  · have hno : ¬i < k := by omega
    rw [Nat.sub_add_cancel hk]
    by_cases hi : i < 64
    · simp [hi, hk, hno]
    · have hx : x.toNat.testBit i = false := Nat.testBit_lt_two_pow
        (Nat.lt_of_lt_of_le x.isLt (Nat.pow_le_pow_right (by decide) (by omega)))
      simp [hi, hx]
  · simp [hk, Nat.lt_of_not_le hk]

/-- Without an overflow, the mask rounds up. -/
theorem alignUp_eq {addr align k : Nat} (hk : align = 2 ^ k) (h : addr + align ≤ addressSpace) :
    alignUp addr align = Llvm.alignUp addr align := by
  have hpos : 0 < align := hk ▸ Nat.two_pow_pos k
  have hlt : addr + align - 1 < 2 ^ 64 := by
    unfold addressSpace at h
    omega
  unfold alignUp Llvm.alignUp
  rw [Nat.max_eq_left hpos]
  dsimp only
  rw [hk, toNat_and_not_mask, BitVec.toNat_ofNat, Nat.mod_eq_of_lt (by rw [← hk]; exact hlt)]

theorem fitsIn_iff {aligned size base cap : Nat} :
    fitsIn aligned size base cap = true ↔ base + cap ≤ usizeMax ∧ aligned + size ≤ base + cap := by
  unfold fitsIn checkedAdd
  by_cases hb : base + cap ≤ usizeMax
  · by_cases ha : aligned + size ≤ usizeMax
    · simp [hb, ha]
    · simp [hb, ha]
      omega
  · simp [hb]

end Arithmetic

section Requests

/-- The crib between two requests: the cursor is in a chunk, and the chunks are apart. -/
structure Ready (b : BumpCrib) : Prop where
  cursor : ∃ c, b.chunks[b.current]? = some c ∧ b.offset ≤ c.cap
  apart : AllApart (b.chunks.map Chunk.region)
  inSpace : ∀ c ∈ b.chunks, c.base + c.cap ≤ usizeMax

/-- A power of two that no chunk address overflows with. -/
structure Admissible (b : BumpCrib) (align : Nat) : Prop where
  pow : ∃ k, align = 2 ^ k
  inSpace : ∀ c ∈ b.chunks, c.base + c.cap + align ≤ addressSpace

theorem Admissible.pos {b : BumpCrib} {align : Nat} (h : Admissible b align) : 0 < align := by
  obtain ⟨k, rfl⟩ := h.pow
  exact Nat.two_pow_pos k

/-- What a request that got the block at `addr` leaves. -/
structure Served (b b' : BumpCrib) (size align addr : Nat) : Prop where
  ready : Ready b'
  aligned : align ∣ addr
  chunk : ∃ c, b'.chunks[b'.current]? = some c ∧ (Region.mk addr size).Within c.region ∧
    addr + size ≤ c.base + b'.offset
  keeps : ∀ j ≤ b.current, b'.chunks[j]? = b.chunks[j]?
  forward : b.current < b'.current ∨ b'.current = b.current ∧
    ∀ c, b.chunks[b.current]? = some c → c.base + b.offset ≤ addr

variable {sys : System} {b : BumpCrib} {size align : Nat}

theorem mem_chunk {c : Chunk} {i : Nat} (h : b.chunks[i]? = some c) : c ∈ b.chunks :=
  List.mem_of_getElem? h

/-- A request that fits behind the offset in the chunk at the cursor. -/
theorem served_here (hready : Ready b) (hpow : ∃ k, align = 2 ^ k) {c : Chunk}
    (hc : b.chunks[b.current]? = some c) (hspace : c.base + b.offset + align ≤ addressSpace)
    (hfits : fitsIn (alignUp (c.base + b.offset) align) size c.base c.cap = true) :
    Served b { b with offset := alignUp (c.base + b.offset) align + size - c.base } size align
      (alignUp (c.base + b.offset) align) := by
  obtain ⟨k, hk⟩ := hpow
  have heq := alignUp_eq hk hspace
  have hle : c.base + b.offset ≤ alignUp (c.base + b.offset) align := by
    rw [heq]
    exact Llvm.le_alignUp (hk ▸ Nat.two_pow_pos k)
  have hstop := (fitsIn_iff.mp hfits).2
  refine ⟨⟨⟨c, hc, ?_⟩, hready.apart, hready.inSpace⟩, ?_, ⟨c, hc, ⟨?_, ?_⟩, ?_⟩, fun j _ => rfl, .inr ⟨rfl, ?_⟩⟩
  · dsimp only
    omega
  · rw [heq]
    exact Llvm.dvd_alignUp _ _
  · show c.base ≤ alignUp (c.base + b.offset) align
    omega
  · exact hstop
  · dsimp only
    omega
  · intro c' hc'
    rw [hc] at hc'
    cases hc'
    exact hle

/-- The crib that the loop goes on with: the next chunk can hold the request. -/
structure Provided (b b' : BumpCrib) (size align : Nat) : Prop where
  current : b'.current = b.current
  apart : AllApart (b'.chunks.map Chunk.region)
  inSpace : ∀ c ∈ b'.chunks, c.base + c.cap ≤ usizeMax
  next : ∃ c, b'.chunks[b.current + 1]? = some c ∧ c.base + align ≤ addressSpace ∧
    fitsIn (alignUp c.base align) size c.base c.cap = true
  keeps : ∀ j ≤ b.current, b'.chunks[j]? = b.chunks[j]?

theorem provided_reused (hready : Ready b) (hadm : Admissible b align) (h : reuses b size align = true) :
    Provided b b size align := by
  refine ⟨rfl, hready.apart, hready.inSpace, ?_, fun j _ => rfl⟩
  unfold reuses at h
  split at h
  · rename_i next hnext
    have hend := hadm.inSpace next (mem_chunk hnext)
    exact ⟨next, hnext, by omega, h⟩
  · cases h

theorem allocOrDie_some {chunks : List Chunk} {want base : Nat}
    (h : allocOrDie sys chunks want (max align 16) = some base) :
    layoutOk want (max align 16) = true ∧ sys chunks (max want 1) (max align 16) = some base := by
  have hmax : max (max align 16) 1 = max align 16 := by omega
  unfold allocOrDie at h
  rw [hmax] at h
  by_cases hok : layoutOk want (max align 16) = true
  · rw [if_pos hok] at h
    exact ⟨hok, h⟩
  · rw [if_neg hok] at h
    cases h

theorem layoutOk_max {want align : Nat} (h : layoutOk want align = true) :
    layoutOk (max want 1) align = true := by
  have hmax : max (max want 1) 1 = max want 1 := by omega
  unfold layoutOk at h ⊢
  rw [hmax]
  exact h

theorem dvd_max_sixteen (h : ∃ k, align = 2 ^ k) : align ∣ max align 16 := by
  obtain ⟨k, rfl⟩ := h
  by_cases hk : k ≤ 4
  · have hle : 2 ^ k ≤ 2 ^ 4 := Nat.pow_le_pow_right (by decide) hk
    show 2 ^ k ∣ max (2 ^ k) (2 ^ 4)
    rw [Nat.max_eq_right hle]
    exact Nat.pow_dvd_pow 2 hk
  · have hle : 2 ^ 4 ≤ 2 ^ k := Nat.pow_le_pow_right (by decide) (by omega)
    have hmax : max (2 ^ k) 16 = 2 ^ k := Nat.max_eq_left hle
    exact hmax.symm ▸ Nat.dvd_refl _

/-- What a chunk that the system gave for a request has room for. -/
theorem fresh_chunk (hsys : Lawful sys) (hpos : 0 < align) {base : Nat}
    (h : allocOrDie sys b.chunks (wanted b size align) (max align 16) = some base) :
    layoutOk (wanted b size align) (max align 16) = true ∧
      sys b.chunks (wanted b size align) (max align 16) = some base ∧
      size + align ≤ wanted b size align ∧ base + wanted b size align ≤ usizeMax := by
  obtain ⟨hok, hbase⟩ := allocOrDie_some h
  have hok' := layoutOk_max hok
  have hlimit : max (wanted b size align) 1 ≤ isizeMax + 1 - max align 16 := by
    unfold layoutOk at hok
    exact of_decide_eq_true (Bool.and_eq_true_iff.mp hok).2
  have hwant : size + align ≤ wanted b size align := by
    unfold wanted saturatingAdd usizeMax at hlimit ⊢
    unfold isizeMax at hlimit
    omega
  have hone : max (wanted b size align) 1 = wanted b size align := by omega
  rw [hone] at hok' hbase
  exact ⟨hok', hbase, hwant, hsys.inSpace hok' hbase⟩

theorem splice_next (h : b.current < b.chunks.length) (c : Chunk) :
    (splice b c).chunks[b.current + 1]? = some c := by
  have htake : (b.chunks.take (b.current + 1)).length = b.current + 1 := by
    rw [List.length_take]
    omega
  show (b.chunks.take (b.current + 1) ++ c :: b.chunks.drop (b.current + 1))[b.current + 1]? = _
  rw [List.getElem?_append_right (Nat.le_of_eq htake), htake, Nat.sub_self]
  rfl

theorem splice_keeps (h : b.current < b.chunks.length) (c : Chunk) {j : Nat} (hj : j ≤ b.current) :
    (splice b c).chunks[j]? = b.chunks[j]? := by
  have htake : (b.chunks.take (b.current + 1)).length = b.current + 1 := by
    rw [List.length_take]
    omega
  show (b.chunks.take (b.current + 1) ++ c :: b.chunks.drop (b.current + 1))[j]? = _
  rw [List.getElem?_append_left (by omega), List.getElem?_take_of_lt (by omega)]

theorem provided_spliced (hsys : Lawful sys) (hready : Ready b) (hadm : Admissible b align)
    {base : Nat} (h : allocOrDie sys b.chunks (wanted b size align) (max align 16) = some base) :
    Provided b (splice b ⟨base, wanted b size align, max align 16⟩) size align := by
  have hpos := hadm.pos
  obtain ⟨hok, hbase, hwant, hend⟩ := fresh_chunk hsys hpos h
  have hapart := hsys.apart hok hbase
  have hlt : b.current < b.chunks.length := by
    obtain ⟨c, hc, _⟩ := hready.cursor
    exact (List.getElem?_eq_some_iff.mp hc).1
  have hspace : base + align ≤ addressSpace := by
    unfold addressSpace
    unfold usizeMax at hend
    omega
  refine ⟨rfl, ?_, ?_, ⟨_, splice_next hlt _, hspace, ?_⟩, fun j hj => splice_keeps hlt _ hj⟩
  · have hsplit := hready.apart
    rw [← List.take_append_drop (b.current + 1) b.chunks, List.map_append] at hsplit
    show AllApart ((b.chunks.take (b.current + 1) ++ _ :: b.chunks.drop (b.current + 1)).map _)
    rw [List.map_append, List.map_cons]
    refine hsplit.insert fun s hs => ?_
    rw [← List.map_append, List.take_append_drop] at hs
    obtain ⟨c, hc, rfl⟩ := List.mem_map.mp hs
    exact hapart c hc
  · intro c hc
    rcases List.mem_append.mp hc with hc | hc
    · exact hready.inSpace c (List.mem_of_mem_take hc)
    · rcases List.mem_cons.mp hc with rfl | hc
      · exact hend
      · exact hready.inSpace c (List.mem_of_mem_drop hc)
  · obtain ⟨k, hk⟩ := hadm.pow
    have hdvd : align ∣ base := Nat.dvd_trans (dvd_max_sixteen hadm.pow) (hsys.aligned hok hbase)
    rw [fitsIn_iff, alignUp_eq hk hspace, Llvm.alignUp_of_dvd hpos hdvd]
    dsimp only
    exact ⟨hend, by omega⟩

theorem provide_spec (hsys : Lawful sys) (hready : Ready b) (hadm : Admissible b align)
    {b' : BumpCrib} (h : provide sys b size align = some b') : Provided b b' size align := by
  unfold provide at h
  by_cases hre : reuses b size align = true
  · rw [if_pos hre] at h
    cases h
    exact provided_reused hready hadm hre
  · rw [if_neg hre] at h
    obtain ⟨base, hbase, h⟩ := Option.bind_eq_some_iff.mp h
    cases h
    exact provided_spliced hsys hready hadm hbase

/-- The crib after the cursor has moved on serves the request in the next round. -/
theorem served_next (sys : System) {b' : BumpCrib} (hpow : ∃ k, align = 2 ^ k)
    (hprov : Provided b b' size align) :
    ∃ addr b'', (∀ fuel, allocLoop sys size align (fuel + 1) (advance b') = some (.block addr b'')) ∧
      Served b b'' size align addr := by
  obtain ⟨c, hc, hspace, hfits⟩ := hprov.next
  have hcur : (advance b').chunks[(advance b').current]? = some c := by
    show b'.chunks[b'.current + 1]? = some c
    rw [hprov.current, hc]
  have hready : Ready (advance b') := ⟨⟨c, hcur, Nat.zero_le _⟩, hprov.apart, hprov.inSpace⟩
  have hserved := served_here hready hpow hcur hspace hfits
  refine ⟨_, _, fun fuel => ?_, hserved.ready, hserved.aligned, hserved.chunk, hprov.keeps, .inl ?_⟩
  · rw [allocLoop, hcur]
    exact if_pos hfits
  · show b.current < b'.current + 1
    rw [hprov.current]
    exact Nat.lt_succ_self _

/-- Every request ends, within two rounds, in a block or in the death of the process. -/
theorem alloc_spec (hsys : Lawful sys) (hready : Ready b) (size : Nat) (hadm : Admissible b align)
    (fuel : Nat) :
    (∃ addr b', b.alloc sys (fuel + 2) size align = some (.block addr b') ∧
      Served b b' size align addr) ∨ b.alloc sys (fuel + 2) size align = some .died := by
  obtain ⟨c, hc, hoff⟩ := hready.cursor
  have hone : max align 1 = align := Nat.max_eq_left hadm.pos
  unfold BumpCrib.alloc
  rw [hone, allocLoop, hc]
  dsimp only
  by_cases hfits : fitsIn (alignUp (c.base + b.offset) align) size c.base c.cap = true
  · have hspace : c.base + b.offset + align ≤ addressSpace := by
      have hend := hadm.inSpace c (mem_chunk hc)
      omega
    rw [if_pos hfits]
    exact .inl ⟨_, _, rfl, served_here hready hadm.pow hc hspace hfits⟩
  · rw [if_neg hfits]
    cases hprov : provide sys b size align with
    | none => exact .inr rfl
    | some b' =>
      obtain ⟨addr, b'', hloop, hserved⟩ :=
        served_next sys hadm.pow (provide_spec hsys hready hadm hprov)
      exact .inl ⟨addr, b'', hloop fuel, hserved⟩

end Requests

section Sessions

/-- Where a block that was returned since the last reset is. -/
structure Placed (b : BumpCrib) (blk : Block) : Prop where
  aligned : blk.align ∣ blk.region.base
  chunk : ∃ j c, j ≤ b.current ∧ b.chunks[j]? = some c ∧ blk.region.Within c.region ∧
    (j = b.current → blk.region.stop ≤ c.base + b.offset)

structure Sound (s : Session) : Prop where
  ready : Ready s.crib
  placed : ∀ blk ∈ s.live, Placed s.crib blk
  apart : AllApart (s.live.map Block.region)

variable {sys : System}

theorem sound_reset {s : Session} (h : Sound s) : Sound ⟨s.crib.reset, []⟩ := by
  have hcursor : ∃ c, s.crib.chunks[0]? = some c ∧ 0 ≤ c.cap := by
    obtain ⟨c, hc, _⟩ := h.ready.cursor
    have hlt := (List.getElem?_eq_some_iff.mp hc).1
    exact ⟨_, List.getElem?_eq_getElem (by omega), Nat.zero_le _⟩
  exact ⟨⟨hcursor, h.ready.apart, h.ready.inSpace⟩, List.forall_mem_nil _, List.Pairwise.nil⟩

theorem getElem?_region {b : BumpCrib} {j : Nat} {c : Chunk} (h : b.chunks[j]? = some c) :
    (b.chunks.map Chunk.region)[j]? = some c.region := by
  rw [List.getElem?_map, h]
  rfl

/-- The blocks from before a request stay where they are. -/
theorem Placed.keep {b b' : BumpCrib} {blk : Block} {size align addr : Nat} (h : Placed b blk)
    (hserved : Served b b' size align addr) : Placed b' blk := by
  obtain ⟨j, c, hj, hc, hin, hstop⟩ := h.chunk
  have hc' : b'.chunks[j]? = some c := by rw [hserved.keeps j hj, hc]
  refine ⟨h.aligned, j, c, ?_, hc', hin, fun hcur => ?_⟩
  · rcases hserved.forward with hlt | ⟨heq, _⟩
    · omega
    · omega
  · rcases hserved.forward with hlt | ⟨heq, hbehind⟩
    · omega
    · have hjb : j = b.current := by omega
      obtain ⟨c', hc'', hin', hoff⟩ := hserved.chunk
      rw [← hcur, hc'] at hc''
      cases hc''
      have hold := hstop hjb
      have hnew := hbehind c (hjb ▸ hc)
      omega

/-- A new block is apart from the ones before it: in the same chunk it is behind them, and other
chunks are apart from its own. -/
theorem apart_new {b b' : BumpCrib} {blk : Block} {size align addr : Nat} (h : Placed b blk)
    (hserved : Served b b' size align addr) : blk.region.Apart ⟨addr, size⟩ := by
  obtain ⟨j, c, hj, hc, hin, hstop⟩ := h.chunk
  obtain ⟨c', hc', hin', _⟩ := hserved.chunk
  have hcj : b'.chunks[j]? = some c := by rw [hserved.keeps j hj, hc]
  by_cases hcur : j = b'.current
  · rcases hserved.forward with hlt | ⟨heq, hbehind⟩
    · omega
    · have hjb : j = b.current := by omega
      have hold := hstop hjb
      have hnew := hbehind c (hjb ▸ hc)
      refine Region.apart_of_le ?_
      show blk.region.stop ≤ addr
      omega
  · have hlt : j < b'.current := by
      rcases hserved.forward with hlt | ⟨heq, _⟩
      · omega
      · omega
    have hregions := hserved.ready.apart.getElem? hlt
      (getElem?_region hcj) (getElem?_region hc')
    exact hregions.within hin hin'

theorem sound_alloc {s : Session} {b' : BumpCrib} {size align addr : Nat} (h : Sound s)
    (hserved : Served s.crib b' size align addr) :
    Sound ⟨b', s.live ++ [⟨⟨addr, size⟩, align⟩]⟩ := by
  obtain ⟨c, hc, hin, hoff⟩ := hserved.chunk
  refine ⟨hserved.ready, fun blk hblk => ?_, ?_⟩
  · rcases List.mem_append.mp hblk with hblk | hblk
    · exact (h.placed blk hblk).keep hserved
    · cases List.mem_singleton.mp hblk
      exact ⟨hserved.aligned, _, c, Nat.le_refl _, hc, hin, fun _ => hoff⟩
  · rw [List.map_append]
    refine List.pairwise_append.mpr ⟨h.apart, List.pairwise_singleton _ _, ?_⟩
    intro r hr r' hr'
    obtain ⟨blk, hblk, rfl⟩ := List.mem_map.mp hr
    cases List.mem_singleton.mp hr'
    exact apart_new (h.placed blk hblk) hserved

theorem sound_new (hsys : Lawful sys) {reserve : Nat} {b : BumpCrib}
    (h : BumpCrib.new sys reserve = some b) : Sound ⟨b, []⟩ := by
  obtain ⟨base, hbase, h⟩ := Option.bind_eq_some_iff.mp h
  cases h
  have hlayout : layoutOk (max reserve 16) (max 16 16) = true ∧
      sys [] (max (max reserve 16) 1) (max 16 16) = some base := allocOrDie_some hbase
  obtain ⟨hok, hbase⟩ := hlayout
  have hone : max (max reserve 16) 1 = max reserve 16 := by omega
  rw [hone] at hbase
  have hend := hsys.inSpace hok hbase
  refine ⟨⟨⟨_, rfl, Nat.zero_le _⟩, List.pairwise_singleton _ _, fun c hc => ?_⟩,
    List.forall_mem_nil _, List.Pairwise.nil⟩
  cases List.mem_singleton.mp hc
  exact hend

/-- The requests of a sequence are admissible where the run comes to them. -/
def Requests (sys : System) (fuel : Nat) : List Op → Session → Prop
  | [], _ => True
  | op :: ops, s =>
    (∀ size align, op = .alloc size align → Admissible s.crib align) ∧
      ∀ s', step sys fuel s op = some s' → Requests sys fuel ops s'

theorem sound_step {fuel : Nat} (hsys : Lawful sys) {s s' : Session} {op : Op} (h : Sound s)
    (hadm : ∀ size align, op = .alloc size align → Admissible s.crib align)
    (hstep : step sys (fuel + 2) s op = some s') : Sound s' := by
  cases op with
  | reset =>
    cases hstep
    exact sound_reset h
  | alloc size align =>
    rcases alloc_spec hsys h.ready size (hadm size align rfl) fuel with
      ⟨addr, b', hrun, hserved⟩ | hdied
    · simp only [step, hrun] at hstep
      cases hstep
      exact sound_alloc h hserved
    · simp only [step, hdied] at hstep
      cases hstep

theorem sound_run {fuel : Nat} (hsys : Lawful sys) {ops : List Op} {s s' : Session} (h : Sound s)
    (hreq : Requests sys (fuel + 2) ops s) (hrun : run sys (fuel + 2) ops s = some s') : Sound s' := by
  induction ops generalizing s with
  | nil =>
    cases hrun
    exact h
  | cons op ops ih =>
    obtain ⟨s₁, hstep, hrest⟩ := Option.bind_eq_some_iff.mp hrun
    exact ih (sound_step hsys h hreq.1 hstep) (hreq.2 s₁ hstep) hrest

/-- In every run of a crib over a lawful system allocator, the blocks since the last reset are
aligned, in one chunk each and apart; and the next request ends. -/
theorem bump_blocks_apart (hsys : Lawful sys) {reserve : Nat} {b : BumpCrib}
    (hnew : BumpCrib.new sys reserve = some b) {fuel : Nat} {ops : List Op} {s : Session}
    (hreq : Requests sys (fuel + 2) ops ⟨b, []⟩) (hrun : run sys (fuel + 2) ops ⟨b, []⟩ = some s) :
    (∀ blk ∈ s.live, blk.align ∣ blk.region.base ∧
      ∃ c ∈ s.crib.chunks, blk.region.Within c.region) ∧
    AllApart (s.live.map Block.region) ∧
    ∀ size align, Admissible s.crib align →
      (∃ addr crib, s.crib.alloc sys (fuel + 2) size align = some (.block addr crib)) ∨
        s.crib.alloc sys (fuel + 2) size align = some .died := by
  have hsound := sound_run hsys (sound_new hsys hnew) hreq hrun
  refine ⟨fun blk hblk => ?_, hsound.apart, fun size align hadm => ?_⟩
  · obtain ⟨j, c, _, hc, hin, _⟩ := (hsound.placed blk hblk).chunk
    exact ⟨(hsound.placed blk hblk).aligned, c, mem_chunk hc, hin⟩
  · rcases alloc_spec hsys hsound.ready size hadm fuel with ⟨addr, b', hrun, _⟩ | hdied
    · exact .inl ⟨addr, b', hrun⟩
    · exact .inr hdied

section Witness

/-- The first aligned address behind every chunk. -/
def behind : System := fun chunks size align =>
  let base := Llvm.alignUp (chunks.foldr (fun c stop => max (c.base + c.cap) stop) 4096) align
  if base + size ≤ usizeMax then some base else none

theorem le_foldr_stop {chunks : List Chunk} {c : Chunk} (hc : c ∈ chunks) :
    c.base + c.cap ≤ chunks.foldr (fun c stop => max (c.base + c.cap) stop) 4096 := by
  induction chunks with
  | nil => cases hc
  | cons d chunks ih =>
    rcases List.mem_cons.mp hc with rfl | hc
    · exact Nat.le_max_left _ _
    · exact Nat.le_trans (ih hc) (Nat.le_max_right _ _)

theorem behind_some {chunks : List Chunk} {size align base : Nat}
    (h : behind chunks size align = some base) : base + size ≤ usizeMax ∧ base =
      Llvm.alignUp (chunks.foldr (fun c stop => max (c.base + c.cap) stop) 4096) align := by
  obtain ⟨hle, heq⟩ := Option.ite_none_right_eq_some.mp h
  cases heq
  exact ⟨hle, rfl⟩

theorem behind_lawful : Lawful behind := by
  constructor
  · intro chunks size align base _ h
    rw [(behind_some h).2]
    exact Llvm.dvd_alignUp _ _
  · intro chunks size align base _ h
    exact (behind_some h).1
  · intro chunks size align base hok h c hc
    have hpow : align.isPowerOfTwo := of_decide_eq_true (Bool.and_eq_true_iff.mp hok).1
    refine (Region.apart_of_le ?_).symm
    show c.base + c.cap ≤ base
    rw [(behind_some h).2]
    exact Nat.le_trans (le_foldr_stop hc) (Llvm.le_alignUp (Nat.pos_of_isPowerOfTwo hpow))

theorem Requests.next {fuel : Nat} {ops : List Op} {s s' : Session} {op : Op}
    (hadm : ∀ size align, op = .alloc size align → Admissible s.crib align)
    (hstep : step sys fuel s op = some s') (h : Requests sys fuel ops s') :
    Requests sys fuel (op :: ops) s := by
  refine ⟨hadm, fun s₁ h₁ => ?_⟩
  rw [hstep] at h₁
  cases h₁
  exact h

/-- Two blocks of the second frame: one in the retained chunk, one in a chunk spliced behind it. -/
theorem bump_blocks_apart_two : ∃ s, run behind 2
      [.alloc 40 8, .reset, .alloc 3 1, .alloc 100 32] ⟨⟨[⟨4096, 64, 16⟩], 0, 0, 64⟩, []⟩ = some s ∧
    s.live.length = 2 ∧ (∀ blk ∈ s.live, blk.align ∣ blk.region.base ∧
      ∃ c ∈ s.crib.chunks, blk.region.Within c.region) ∧ AllApart (s.live.map Block.region) := by
  have hrequests : Requests behind 2 [.alloc 40 8, .reset, .alloc 3 1, .alloc 100 32]
      ⟨⟨[⟨4096, 64, 16⟩], 0, 0, 64⟩, []⟩ := by
    refine .next ?_ rfl (.next (fun _ _ h => nomatch h) rfl (.next ?_ rfl (.next ?_ rfl trivial)))
    · rintro _ _ ⟨⟩
      exact ⟨⟨3, rfl⟩, by decide⟩
    · rintro _ _ ⟨⟩
      exact ⟨⟨0, rfl⟩, by decide⟩
    · rintro _ _ ⟨⟩
      exact ⟨⟨5, rfl⟩, by decide⟩
  have hnew : BumpCrib.new behind 64 = some ⟨[⟨4096, 64, 16⟩], 0, 0, 64⟩ := rfl
  have h := bump_blocks_apart behind_lawful hnew hrequests (s := _) rfl
  exact ⟨_, rfl, rfl, h.1, h.2.1⟩

end Witness

end Sessions

end BetLang.Bump
