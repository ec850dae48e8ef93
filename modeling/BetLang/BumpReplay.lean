import BetLang.BumpAlloc

/-! The same requests after a reset: a bump crib walks the chunks that the first run left, and asks
the system for none. -/

namespace BetLang.Bump

/-- The addresses of a sequence of requests, and the crib after it; `none` if a request got none. -/
def allocs (sys : System) (fuel : Nat) : List (Nat × Nat) → BumpCrib → Option (List Nat × BumpCrib)
  | [], b => some ([], b)
  | (size, align) :: reqs, b =>
    match b.alloc sys fuel size align with
    | some (.block addr b') => (allocs sys fuel reqs b').map fun rest => (addr :: rest.1, rest.2)
    | _ => none

/-- A workload that is run once a frame, from a reset on. -/
def frames (sys : System) (fuel : Nat) (reqs : List (Nat × Nat)) :
    Nat → BumpCrib → Option (List (List Nat) × BumpCrib)
  | 0, b => some ([], b)
  | n + 1, b => do
    let (addrs, b') ← allocs sys fuel reqs b.reset
    let (rest, last) ← frames sys fuel reqs n b'
    return (addrs :: rest, last)

section Requests

variable {sys : System} {b b' r : BumpCrib} {size align addr : Nat}

theorem alignUp_le {align : Nat} (hpos : 0 < align) (h : addr + align ≤ addressSpace) :
    alignUp addr align ≤ addr + align - 1 := by
  have hlt : addr + align - 1 < 2 ^ 64 := by
    unfold addressSpace at h
    omega
  have hand : alignUp addr align ≤ (BitVec.ofNat 64 (addr + align - 1)).toNat := by
    unfold alignUp
    rw [Nat.max_eq_left hpos, BitVec.toNat_and]
    exact Nat.and_le_left
  rwa [BitVec.toNat_ofNat, Nat.mod_eq_of_lt hlt] at hand

/-- The chunk behind the cursor holds the request, and the ones up to the cursor are as before. -/
structure Supplied (b b' : BumpCrib) (size align : Nat) : Prop where
  current : b'.current = b.current
  next : ∃ c, b'.chunks[b.current + 1]? = some c ∧ fitsIn (alignUp c.base align) size c.base c.cap = true
  keeps : ∀ j ≤ b.current, b'.chunks[j]? = b.chunks[j]?

/-- A fresh chunk holds the request that it is made for, whatever its alignment. -/
theorem supplied_spliced (hsys : Lawful sys) (hpos : 0 < align) (hcur : b.current < b.chunks.length)
    {base : Nat} (h : allocOrDie sys b.chunks (wanted b size align) (max align 16) = some base) :
    Supplied b (splice b ⟨base, wanted b size align, max align 16⟩) size align := by
  obtain ⟨_, _, hwant, hend⟩ := fresh_chunk hsys hpos h
  have hspace : base + align ≤ addressSpace := by
    unfold addressSpace
    unfold usizeMax at hend
    omega
  have hup := alignUp_le hpos hspace
  refine ⟨rfl, ⟨_, splice_next hcur _, ?_⟩, fun j hj => splice_keeps hcur _ hj⟩
  rw [fitsIn_iff]
  dsimp only
  exact ⟨hend, by omega⟩

theorem supplied (hsys : Lawful sys) (hpos : 0 < align) (hcur : b.current < b.chunks.length)
    (h : provide sys b size align = some b') : Supplied b b' size align := by
  unfold provide at h
  by_cases hre : reuses b size align = true
  · rw [if_pos hre] at h
    cases h
    refine ⟨rfl, ?_, fun _ _ => rfl⟩
    unfold reuses at hre
    split at hre
    · rename_i next hnext
      exact ⟨next, hnext, hre⟩
    · cases hre
  · rw [if_neg hre] at h
    obtain ⟨base, hbase, h⟩ := Option.bind_eq_some_iff.mp h
    cases h
    exact supplied_spliced hsys hpos hcur hbase

/-- What the second round of the loop returns: the request is at the start of the next chunk. -/
theorem loop_next (fuel : Nat) {c : Chunk} (hc : b'.chunks[b'.current + 1]? = some c)
    (hfits : fitsIn (alignUp c.base align) size c.base c.cap = true) :
    allocLoop sys size align (fuel + 1) (advance b') = some (.block (alignUp c.base align)
      { b' with current := b'.current + 1, offset := alignUp c.base align + size - c.base }) := by
  simp [allocLoop, advance, hc, hfits]

/-- The chunk at the cursor holds the request. -/
def Fits (b : BumpCrib) (size align : Nat) (c : Chunk) : Prop :=
  b.chunks[b.current]? = some c ∧
    fitsIn (alignUp (c.base + b.offset) (max align 1)) size c.base c.cap = true

/-- The chunk at the cursor does not hold the request. -/
def Full (b : BumpCrib) (size align : Nat) : Prop :=
  ∃ c, b.chunks[b.current]? = some c ∧
    fitsIn (alignUp (c.base + b.offset) (max align 1)) size c.base c.cap = false

/-- The chunk behind the cursor of `b` holds the request at its start. -/
def Behind (b b' : BumpCrib) (size align : Nat) (c : Chunk) : Prop :=
  b'.chunks[b.current + 1]? = some c ∧
    fitsIn (alignUp c.base (max align 1)) size c.base c.cap = true

theorem alloc_here {c : Chunk} (h : Fits b size align c) (fuel : Nat) :
    b.alloc sys (fuel + 1) size align = some (.block (alignUp (c.base + b.offset) (max align 1))
      { b with offset := alignUp (c.base + b.offset) (max align 1) + size - c.base }) := by
  simp [BumpCrib.alloc, allocLoop, h.1, h.2]

theorem alloc_supplied (h : Full b size align) (hprov : provide sys b size (max align 1) = some b')
    (fuel : Nat) :
    b.alloc sys (fuel + 1) size align = allocLoop sys size (max align 1) fuel (advance b') := by
  obtain ⟨c, hc, hfull⟩ := h
  simp [BumpCrib.alloc, allocLoop, hc, hfull, hprov]

theorem alloc_died (h : Full b size align) (hprov : provide sys b size (max align 1) = none)
    (fuel : Nat) : b.alloc sys (fuel + 1) size align = some .died := by
  obtain ⟨c, hc, hfull⟩ := h
  simp [BumpCrib.alloc, allocLoop, hc, hfull, hprov]

/-- A crib that has a chunk for the request behind its cursor asks the system for nothing. -/
theorem alloc_again {c : Chunk} (hfull : Full b size align) (hc : Behind b b size align c) (fuel : Nat) :
    b.alloc sys (fuel + 2) size align = some (.block (alignUp c.base (max align 1))
      { b with current := b.current + 1, offset := alignUp c.base (max align 1) + size - c.base }) := by
  have hreuse : provide sys b size (max align 1) = some b := by
    simp [provide, reuses, hc.1, hc.2]
  rw [alloc_supplied hfull hreuse, loop_next fuel hc.1 hc.2]

/-- Where a request is served: at the cursor, or at the start of the next chunk. -/
theorem alloc_cases (hsys : Lawful sys) {fuel : Nat}
    (h : b.alloc sys (fuel + 2) size align = some (.block addr b')) :
    (∃ c, Fits b size align c ∧ addr = alignUp (c.base + b.offset) (max align 1) ∧
      b' = { b with offset := addr + size - c.base }) ∨
    ∃ c, Full b size align ∧ Behind b b' size align c ∧ addr = alignUp c.base (max align 1) ∧
      b'.current = b.current + 1 ∧ b'.offset = addr + size - c.base ∧
      ∀ j ≤ b.current, b'.chunks[j]? = b.chunks[j]? := by
  cases hcur : b.chunks[b.current]? with
  | none => simp [BumpCrib.alloc, allocLoop, hcur] at h
  | some c =>
    have hlt := (List.getElem?_eq_some_iff.mp hcur).1
    cases hfits : fitsIn (alignUp (c.base + b.offset) (max align 1)) size c.base c.cap with
    | true =>
      rw [alloc_here ⟨hcur, hfits⟩] at h
      cases h
      exact .inl ⟨c, ⟨hcur, hfits⟩, rfl, rfl⟩
    | false =>
      have hfull : Full b size align := ⟨c, hcur, hfits⟩
      cases hprov : provide sys b size (max align 1) with
      | none =>
        rw [alloc_died hfull hprov] at h
        cases h
      | some b₂ =>
        have hsup := supplied hsys (Nat.le_max_right align 1) hlt hprov
        obtain ⟨next, hnext, hin⟩ := hsup.next
        rw [← hsup.current] at hnext
        rw [alloc_supplied hfull hprov, loop_next fuel hnext hin] at h
        cases h
        refine .inr ⟨next, hfull, ⟨?_, hin⟩, rfl, ?_, rfl, hsup.keeps⟩
        · rw [← hsup.current]
          exact hnext
        · rw [← hsup.current]

/-- Two rounds are enough for every request. -/
theorem alloc_ends (hsys : Lawful sys) (b : BumpCrib) (size align fuel : Nat) :
    b.alloc sys (fuel + 2) size align ≠ none := by
  cases hcur : b.chunks[b.current]? with
  | none => simp [BumpCrib.alloc, allocLoop, hcur]
  | some c =>
    have hlt := (List.getElem?_eq_some_iff.mp hcur).1
    cases hfits : fitsIn (alignUp (c.base + b.offset) (max align 1)) size c.base c.cap with
    | true => simp [alloc_here ⟨hcur, hfits⟩]
    | false =>
      have hfull : Full b size align := ⟨c, hcur, hfits⟩
      cases hprov : provide sys b size (max align 1) with
      | none => simp [alloc_died hfull hprov]
      | some b₂ =>
        have hsup := supplied hsys (Nat.le_max_right align 1) hlt hprov
        obtain ⟨next, hnext, hin⟩ := hsup.next
        rw [← hsup.current] at hnext
        simp [alloc_supplied hfull hprov, loop_next fuel hnext hin]

end Requests

section Replay

variable {sys : System} {b b' r : BumpCrib} {fuel : Nat}

/-- The cursor does not go back, and the chunks up to it stay. -/
theorem alloc_keeps (hsys : Lawful sys) {size align addr : Nat}
    (h : b.alloc sys (fuel + 2) size align = some (.block addr b')) :
    b.current ≤ b'.current ∧ ∀ j ≤ b.current, b'.chunks[j]? = b.chunks[j]? := by
  rcases alloc_cases hsys h with ⟨c, _, _, rfl⟩ | ⟨c, _, _, _, hcur, _, hkeeps⟩
  · exact ⟨Nat.le_refl _, fun _ _ => rfl⟩
  · exact ⟨by omega, hkeeps⟩

/-- At the same place, with the chunks that the request has left, it is served in the same way. -/
theorem alloc_replay (hsys : Lawful sys) {size align addr : Nat}
    (h : b.alloc sys (fuel + 2) size align = some (.block addr b'))
    (hcur : r.current = b.current) (hoff : r.offset = b.offset)
    (hchunks : ∀ j ≤ b'.current, r.chunks[j]? = b'.chunks[j]?) :
    r.alloc sys (fuel + 2) size align =
      some (.block addr { r with current := b'.current, offset := b'.offset }) := by
  rcases alloc_cases hsys h with ⟨c, ⟨hc, hfits⟩, rfl, rfl⟩ | ⟨c, ⟨c₀, hc₀, hfull⟩, ⟨hc, hfits⟩, rfl, hnext, hend, hkeeps⟩
  · have hsame : Fits r size align c := by
      refine ⟨?_, by rw [hoff]; exact hfits⟩
      rw [hcur, hchunks b.current (Nat.le_refl _)]
      exact hc
    rw [alloc_here hsame (fuel + 1), hoff]
    simp [hcur]
  · have hold : Full r size align := by
      refine ⟨c₀, ?_, by rw [hoff]; exact hfull⟩
      rw [hcur, hchunks b.current (by omega), hkeeps b.current (Nat.le_refl _)]
      exact hc₀
    have hbehind : Behind r r size align c := by
      refine ⟨?_, hfits⟩
      rw [hcur, hchunks (b.current + 1) (by omega)]
      exact hc
    rw [alloc_again hold hbehind, hnext, hend, hcur]

theorem allocs_cons {size align : Nat} {reqs : List (Nat × Nat)} {addrs : List Nat}
    (h : allocs sys fuel ((size, align) :: reqs) b = some (addrs, b')) :
    ∃ addr mid rest, b.alloc sys fuel size align = some (.block addr mid) ∧
      allocs sys fuel reqs mid = some (rest, b') ∧ addrs = addr :: rest := by
  unfold allocs at h
  split at h
  · rename_i addr mid hone
    obtain ⟨⟨rest, last⟩, hrest, heq⟩ := Option.map_eq_some_iff.mp h
    cases heq
    exact ⟨addr, mid, rest, hone, hrest, rfl⟩
  · cases h

theorem allocs_keeps (hsys : Lawful sys) {reqs : List (Nat × Nat)} {addrs : List Nat}
    (h : allocs sys (fuel + 2) reqs b = some (addrs, b')) :
    b.current ≤ b'.current ∧ ∀ j ≤ b.current, b'.chunks[j]? = b.chunks[j]? := by
  induction reqs generalizing b addrs with
  | nil =>
    cases h
    exact ⟨Nat.le_refl _, fun _ _ => rfl⟩
  | cons req reqs ih =>
    obtain ⟨addr, mid, rest, hone, hrest, _⟩ := allocs_cons h
    obtain ⟨hle, hkeeps⟩ := alloc_keeps hsys hone
    obtain ⟨hle', hkeeps'⟩ := ih hrest
    refine ⟨Nat.le_trans hle hle', fun j hj => ?_⟩
    rw [hkeeps' j (by omega), hkeeps j hj]

/-- A crib that has the chunks which a run has left serves its requests in the same way. -/
theorem allocs_replay (hsys : Lawful sys) {reqs : List (Nat × Nat)} {addrs : List Nat}
    (h : allocs sys (fuel + 2) reqs b = some (addrs, b'))
    (hcur : r.current = b.current) (hoff : r.offset = b.offset)
    (hchunks : ∀ j ≤ b'.current, r.chunks[j]? = b'.chunks[j]?) :
    allocs sys (fuel + 2) reqs r = some (addrs, { r with current := b'.current, offset := b'.offset }) := by
  induction reqs generalizing b r addrs with
  | nil =>
    cases h
    simp [allocs, ← hcur, ← hoff]
  | cons req reqs ih =>
    obtain ⟨addr, mid, rest, hone, hrest, rfl⟩ := allocs_cons h
    obtain ⟨hle, hkeeps⟩ := allocs_keeps hsys hrest
    have hmid : ∀ j ≤ mid.current, r.chunks[j]? = mid.chunks[j]? := by
      intro j hj
      rw [hchunks j (by omega), hkeeps j hj]
    have hfirst := alloc_replay hsys hone hcur hoff hmid
    have hlater := ih (r := { r with current := mid.current, offset := mid.offset }) hrest rfl rfl hchunks
    simp [allocs, hfirst, hlater]

/-- The second run of a workload is the first one again, and leaves the crib as it is. -/
theorem allocs_reset (hsys : Lawful sys) {reqs : List (Nat × Nat)} {addrs : List Nat}
    (h : allocs sys (fuel + 2) reqs b.reset = some (addrs, b')) :
    allocs sys (fuel + 2) reqs b'.reset = some (addrs, b') :=
  allocs_replay hsys h rfl rfl fun _ _ => rfl

/-- A crib is created as a reset leaves it. -/
theorem reset_new {reserve : Nat} (h : BumpCrib.new sys reserve = some b) : b.reset = b := by
  obtain ⟨base, _, h⟩ := Option.bind_eq_some_iff.mp h
  cases h
  rfl

theorem frames_replay (hsys : Lawful sys) {reqs : List (Nat × Nat)} {addrs : List Nat}
    (h : allocs sys (fuel + 2) reqs b.reset = some (addrs, b')) (n : Nat) :
    frames sys (fuel + 2) reqs (n + 1) b = some (List.replicate (n + 1) addrs, b') := by
  induction n generalizing b with
  | zero => simp [frames, h]
  | succ n ih =>
    have hrest := ih (allocs_reset hsys h)
    rw [frames, h, List.replicate_succ]
    simp only [Option.bind_eq_bind, Option.bind_some, hrest, Option.pure_def]

/-- Every request ends; and from a reset on, if the first frame of a workload gets its blocks, every
later one gets the same addresses in the same order, and leaves the crib with the chunks of the
first. -/
theorem bump_replay (hsys : Lawful sys) (fuel : Nat) (b : BumpCrib) (reqs : List (Nat × Nat)) :
    (∀ b' size align, BumpCrib.alloc sys (fuel + 2) b' size align ≠ none) ∧
    ∀ addrs b', allocs sys (fuel + 2) reqs b.reset = some (addrs, b') → ∀ n,
      frames sys (fuel + 2) reqs (n + 1) b = some (List.replicate (n + 1) addrs, b') :=
  ⟨fun b' size align => alloc_ends hsys b' size align fuel, fun _ _ h n => frames_replay hsys h n⟩

/-- Three frames; the first one adds a chunk. -/
theorem bump_replay_three : ∃ addrs crib, frames behind 2 [(40, 8), (100, 32), (3, 1)] 3
      ⟨[⟨4096, 64, 16⟩], 0, 0, 64⟩ = some ([addrs, addrs, addrs], crib) ∧ crib.chunks.length = 2 := by
  have h : allocs behind 2 [(40, 8), (100, 32), (3, 1)]
      (BumpCrib.reset ⟨[⟨4096, 64, 16⟩], 0, 0, 64⟩) = some _ := rfl
  exact ⟨_, _, (bump_replay behind_lawful 0 _ _).2 _ _ h 2, rfl⟩

end Replay

end BetLang.Bump
