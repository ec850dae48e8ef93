import BetLang.FixedWidth
import BetLang.Sequencing
import Mathlib.Algebra.Group.Int.Defs

/-! Resampling a sound for the device, and when the length, the positions and the averages stay in
the machine's integers. -/

namespace BetLang.Resampling

/-- What stops `resample`: arithmetic out of range, a vector too large, an index out of range. -/
inductive Fault where
  | overflow
  | capacity
  | index
  deriving DecidableEq, Repr

def isizeMax : Nat := 2 ^ 63 - 1

def InI32 (n : Int) : Prop := -2 ^ 31 ≤ n ∧ n < 2 ^ 31

instance (n : Int) : Decidable (InI32 n) := inferInstanceAs (Decidable (_ ∧ _))

def checkU64 (n : Nat) : Except Fault Nat := if n < 2 ^ 64 then .ok n else .error .overflow

def checkI32 (n : Int) : Except Fault Int := if InI32 n then .ok n else .error .overflow

/-- `as i32`. -/
def castI32 (n : Nat) : Int := (n : Int).bmod (2 ^ 32)

def sampleAt (pcm : List Int16) (i : Nat) : Except Fault Int16 :=
  match pcm[i]? with
  | some s => .ok s
  | none => .error .index

/-- The average of the frame at `base`, in an `i32` accumulator. -/
def mixDown (pcm : List Int16) (base srcCh : Nat) : Except Fault Int16 := do
  let acc ← (List.range srcCh).foldlM (fun acc c => do
    let s ← sampleAt pcm (base + c)
    checkI32 (acc + s.toInt)) 0
  let mean ← checkI32 (acc.tdiv (castI32 srcCh))
  return Int16.ofInt mean

/-- The output frame for the input frame at `base`. -/
def convert (pcm : List Int16) (base srcCh dstCh : Nat) : Except Fault (List Int16) :=
  if dstCh = srcCh then (List.range srcCh).mapM fun c => sampleAt pcm (base + c)
  else if srcCh = 1 then (sampleAt pcm base).map fun s => List.replicate dstCh s
  else if dstCh = 1 then (mixDown pcm base srcCh).map fun s => [s]
  else (List.range dstCh).mapM fun c => if c < srcCh then sampleAt pcm (base + c) else .ok 0

/-- A sound and a device, with a zero channel count or rate taken as one. -/
structure Job where
  pcm : List Int16
  srcCh : Nat
  srcRate : Nat
  dstCh : Nat
  dstRate : Nat

def Job.of (pcm : List Int16) (srcCh srcRate dstCh dstRate : UInt32) : Job :=
  ⟨pcm, max srcCh.toNat 1, max srcRate.toNat 1, max dstCh.toNat 1, max dstRate.toNat 1⟩

def Job.srcFrames (j : Job) : Nat := j.pcm.length / j.srcCh

/-- One round of the loop. -/
def Job.frame (j : Job) (f : Nat) : Except Fault (List Int16) := do
  let pos ← checkU64 (f * j.srcRate)
  let sf := min (pos / j.dstRate) (j.srcFrames - 1)
  convert j.pcm (sf * j.srcCh) j.srcCh j.dstCh

def Job.run (j : Job) : Except Fault (List Int16) :=
  if j.srcFrames = 0 then .ok []
  else do
    let scaled ← checkU64 (j.srcFrames * j.dstRate)
    let dstFrames := scaled / j.srcRate
    let capacity ← checkU64 (dstFrames * j.dstCh)
    if isizeMax < 2 * capacity then .error .capacity
    else do
      let frames ← (List.range dstFrames).mapM j.frame
      return frames.flatten

def resample (pcm : List Int16) (srcCh srcRate dstCh dstRate : UInt32) : Except Fault (List Int16) :=
  (Job.of pcm srcCh srcRate dstCh dstRate).run

section Purpose

def total (frame : List Int16) : Int := frame.foldl (fun acc s => acc + s.toInt) 0

/-- The average, rounded towards zero. -/
def average (frame : List Int16) : Int16 := Int16.ofInt ((total frame).tdiv frame.length)

/-- A frame in another number of channels: copied, duplicated, averaged, or the shared channels copied
and the rest silent. -/
def converted (frame : List Int16) (dstCh : Nat) : List Int16 :=
  if dstCh = frame.length then frame
  else if frame.length = 1 then List.replicate dstCh (frame.headD 0)
  else if dstCh = 1 then [average frame]
  else (List.range dstCh).map fun c => frame.getD c 0

variable (j : Job)

/-- Input frame `k`. -/
def Job.input (k : Nat) : List Int16 := (j.pcm.drop (k * j.srcCh)).take j.srcCh

def Job.dstFrames : Nat := j.srcFrames * j.dstRate / j.srcRate

/-- The input frame that output frame `k` is taken from. -/
def Job.source (k : Nat) : Nat := min (k * j.srcRate / j.dstRate) (j.srcFrames - 1)

/-- `resample` goes through with the frames that it is for. -/
def Job.Meets : Prop :=
  ∃ out, j.run = .ok out ∧ out.length = j.dstFrames * j.dstCh ∧
    ∀ k < j.dstFrames, (out.drop (k * j.dstCh)).take j.dstCh = converted (j.input (j.source k)) j.dstCh

/-- A frame whose sums fit the accumulator, and whose length fits it or divides as if it did. -/
structure Averageable (frame : List Int16) : Prop where
  sums : ∀ n ≤ frame.length, InI32 (total (frame.take n))
  divisor : frame.length < 2 ^ 31 ∨ InI32 ((total frame).tdiv (castI32 frame.length)) ∧
    Int16.ofInt ((total frame).tdiv (castI32 frame.length)) = average frame

/-- The buffer holds no frame, or: the frames scaled by the device's rate are a `u64`, the output is
not larger than a vector can be, and every frame that is averaged can be. -/
def Job.Fits : Prop :=
  j.srcFrames = 0 ∨ j.srcFrames * j.dstRate < 2 ^ 64 ∧ 2 * (j.dstFrames * j.dstCh) ≤ isizeMax ∧
    (j.dstCh = 1 → j.srcCh ≠ 1 → ∀ k < j.dstFrames, Averageable (j.input (j.source k)))

end Purpose

section Frames

variable {pcm : List Int16} {base n : Nat} {frame : List Int16}

theorem sampleAt_ok {i : Nat} (hi : i < pcm.length) : sampleAt pcm i = .ok pcm[i] := by
  simp [sampleAt, hi]

/-- The frame of `n` samples at `base`. -/
structure FrameAt (pcm : List Int16) (base n : Nat) (frame : List Int16) : Prop where
  eq : frame = (pcm.drop base).take n
  fits : base + n ≤ pcm.length

theorem FrameAt.length (h : FrameAt pcm base n frame) : frame.length = n := by
  have hfits := h.fits
  simp only [h.eq, List.length_take, List.length_drop]
  omega

theorem FrameAt.sampleAt (h : FrameAt pcm base n frame) {c : Nat} (hc : c < n) :
    sampleAt pcm (base + c) = .ok (frame.getD c 0) := by
  have hfits := h.fits
  have hget : frame.getD c 0 = pcm[base + c] := by
    have hlt : base + c < pcm.length := by omega
    simp [h.eq, List.getD_eq_getElem?_getD, List.getElem?_drop, hc, hlt]
  rw [sampleAt_ok (by omega), hget]

theorem mapM_range {α : Type} {g : Nat → Except Fault α} {v : Nat → α} (h : ∀ c < n, g c = .ok (v c)) :
    (List.range n).mapM g = .ok ((List.range n).map v) := by
  rw [mapM_ok_iff, List.forall₂_map_right_iff]
  exact List.forall₂_same.mpr fun c hc => h c (List.mem_range.mp hc)

theorem map_getD (frame : List Int16) : (List.range frame.length).map (fun c => frame.getD c 0) = frame := by
  apply List.ext_getElem
  · simp
  · intro c hc hc'
    simp [hc']

end Frames

section Sums

variable {frame : List Int16}

theorem foldl_total (frame : List Int16) (acc : Int) :
    frame.foldl (fun acc s => acc + s.toInt) acc = acc + total frame := by
  induction frame generalizing acc with
  | nil => simp [total]
  | cons s frame ih =>
    have hcons : total (s :: frame) = frame.foldl (fun acc s => acc + s.toInt) (0 + s.toInt) := rfl
    rw [List.foldl_cons, hcons, ih, ih, Int.zero_add, Int.add_assoc]

theorem total_cons (s : Int16) (frame : List Int16) : total (s :: frame) = s.toInt + total frame := by
  show frame.foldl (fun acc s => acc + s.toInt) (0 + s.toInt) = _
  rw [foldl_total, Int.zero_add]

/-- The loop over the samples of a frame: the accumulator is checked at every step. -/
def sumI32 (frame : List Int16) (acc : Int) : Except Fault Int :=
  frame.foldlM (fun acc s => checkI32 (acc + s.toInt)) acc

theorem checkI32_ok_iff {n r : Int} : checkI32 n = .ok r ↔ InI32 n ∧ r = n := by
  by_cases h : InI32 n <;> simp [checkI32, h, eq_comm]

/-- The sum is right if no prefix leaves the accumulator, and else there is none. -/
theorem sumI32_ok_iff {acc r : Int} : sumI32 frame acc = .ok r ↔
    r = acc + total frame ∧ ∀ n, 0 < n → n ≤ frame.length → InI32 (acc + total (frame.take n)) := by
  induction frame generalizing acc r with
  | nil =>
    have hno : ∀ n, 0 < n → ¬n ≤ ([] : List Int16).length := by
      intro n hn hle
      exact absurd hle (Nat.not_le.mpr hn)
    simp only [sumI32, List.foldlM_nil, pure, Except.pure, Except.ok.injEq, total, List.foldl_nil,
      Int.add_zero]
    exact ⟨fun h => ⟨h.symm, fun n hn hle => absurd hle (hno n hn)⟩, fun h => h.1.symm⟩
  | cons s frame ih =>
    have hstep : sumI32 (s :: frame) acc = checkI32 (acc + s.toInt) >>= sumI32 frame := rfl
    rw [hstep]
    constructor
    · intro h
      obtain ⟨acc', hacc, h⟩ := except_bind_ok h
      obtain ⟨hin, rfl⟩ := checkI32_ok_iff.mp hacc
      obtain ⟨hr, hall⟩ := ih.mp h
      refine ⟨by rw [hr, total_cons, Int.add_assoc], fun n hn hle => ?_⟩
      cases n with
      | zero => omega
      | succ n =>
        rw [List.take_succ_cons, total_cons, ← Int.add_assoc]
        by_cases hzero : n = 0
        · simpa [hzero, total] using hin
        · exact hall n (by omega) (by simpa using hle)
    · rintro ⟨hr, hall⟩
      have hin : InI32 (acc + s.toInt) := by
        have hone := hall 1 (by omega) (by simp)
        simpa [total] using hone
      have hrest : sumI32 frame (acc + s.toInt) = .ok (acc + s.toInt + total frame) := by
        refine ih.mpr ⟨rfl, ?_⟩
        intro n hn hle
        have hnext := hall (n + 1) (by omega) (by simpa using hle)
        rwa [List.take_succ_cons, total_cons, ← Int.add_assoc] at hnext
      rw [checkI32_ok_iff.mpr ⟨hin, rfl⟩, except_ok_bind, hrest, hr, total_cons, Int.add_assoc]

theorem foldlM_congr {α β ε : Type} {f g : β → α → Except ε β} {l : List α}
    (h : ∀ a ∈ l, ∀ b, f b a = g b a) (b : β) : l.foldlM f b = l.foldlM g b := by
  induction l generalizing b with
  | nil => rfl
  | cons a l ih =>
    have hrest : ∀ b, l.foldlM f b = l.foldlM g b :=
      ih fun a' ha' => h a' (List.mem_cons_of_mem _ ha')
    simp only [List.foldlM_cons, h a List.mem_cons_self, hrest]

variable {pcm : List Int16} {base n : Nat}

theorem mixDown_eq (h : FrameAt pcm base n frame) : mixDown pcm base n = do
    let acc ← sumI32 frame 0
    let mean ← checkI32 (acc.tdiv (castI32 n))
    return Int16.ofInt mean := by
  have hframe : (List.range n).map (fun c => frame.getD c 0) = frame := by
    rw [← h.length]
    exact map_getD frame
  have hloop : (List.range n).foldlM (fun acc c => do
      let s ← sampleAt pcm (base + c)
      checkI32 (acc + s.toInt)) 0 = sumI32 frame 0 := by
    rw [sumI32, ← hframe, List.foldlM_map]
    refine foldlM_congr (fun c hc acc => ?_) 0
    rw [h.sampleAt (List.mem_range.mp hc)]
    rfl
  rw [mixDown, hloop]

/-- The average is never outside the samples' range. -/
theorem total_bounds (frame : List Int16) :
    -32768 * (frame.length : Int) ≤ total frame ∧ total frame ≤ 32767 * (frame.length : Int) := by
  induction frame with
  | nil => simp [total]
  | cons s frame ih =>
    have hlo := Int16.le_toInt s
    have hhi := Int16.toInt_lt s
    rw [total_cons, List.length_cons]
    omega

theorem tdiv_bounds {a b : Int} (hb : 0 < b) (hlo : -32768 * b ≤ a) (hhi : a ≤ 32767 * b) :
    -32768 ≤ a.tdiv b ∧ a.tdiv b ≤ 32767 := by
  by_cases ha : 0 ≤ a
  · rw [Int.tdiv_eq_ediv_of_nonneg ha]
    have hpos : 0 ≤ a / b := Int.ediv_nonneg ha (by omega)
    have hle : a / b ≤ 32767 := Int.ediv_le_of_le_mul hb hhi
    omega
  · have hneg : a.tdiv b = -((-a).tdiv b) := by rw [Int.neg_tdiv, Int.neg_neg]
    rw [hneg, Int.tdiv_eq_ediv_of_nonneg (by omega)]
    have hpos : 0 ≤ -a / b := Int.ediv_nonneg (by omega) (by omega)
    have hle : -a / b ≤ 32768 := Int.ediv_le_of_le_mul hb (by omega)
    omega

theorem average_bounds (h : 0 < frame.length) :
    -32768 ≤ (total frame).tdiv frame.length ∧ (total frame).tdiv frame.length ≤ 32767 := by
  obtain ⟨hlo, hhi⟩ := total_bounds frame
  exact tdiv_bounds (by omega) hlo hhi

theorem castI32_small (h : n < 2 ^ 31) : castI32 n = n :=
  Int.bmod_eq_of_le (by omega) (by omega)

/-- The average comes out just of the frames that can be averaged. -/
theorem mixDown_iff (h : FrameAt pcm base n frame) (hn : 0 < n) :
    mixDown pcm base n = .ok (average frame) ↔ Averageable frame := by
  have hlen := h.length
  rw [mixDown_eq h]
  constructor
  · intro hok
    obtain ⟨acc, hsum, hok⟩ := except_bind_ok hok
    obtain ⟨mean, hmean, hok⟩ := except_bind_ok hok
    obtain ⟨hacc, hall⟩ := sumI32_ok_iff.mp hsum
    obtain ⟨hin, hmean⟩ := checkI32_ok_iff.mp hmean
    rw [Int.zero_add] at hacc
    subst hacc hmean
    refine ⟨fun k hk => ?_, .inr ?_⟩
    · cases k with
      | zero => exact (by decide : InI32 0)
      | succ k => simpa using hall (k + 1) (by omega) hk
    · rw [hlen]
      exact ⟨hin, Except.ok.inj hok⟩
  · intro hav
    have hsum : sumI32 frame 0 = .ok (total frame) := by
      refine sumI32_ok_iff.mpr ⟨(Int.zero_add _).symm, fun k _ hk => ?_⟩
      rw [Int.zero_add]
      exact hav.sums k hk
    have hmean : InI32 ((total frame).tdiv (castI32 n)) ∧
        Int16.ofInt ((total frame).tdiv (castI32 n)) = average frame := by
      rw [← hlen]
      rcases hav.divisor with hsmall | hcast
      · have hpos : 0 < frame.length := by omega
        obtain ⟨hlo, hhi⟩ := average_bounds hpos
        rw [castI32_small hsmall]
        exact ⟨⟨by omega, by omega⟩, rfl⟩
      · exact hcast
    rw [hsum, except_ok_bind, checkI32_ok_iff.mpr ⟨hmean.1, rfl⟩, except_ok_bind, hmean.2]
    rfl

end Sums

section Conversion

variable {pcm frame piece : List Int16} {base srcCh dstCh : Nat}

theorem convert_length (h : convert pcm base srcCh dstCh = .ok piece) : piece.length = dstCh := by
  unfold convert at h
  split at h
  · rename_i hsame
    have hall := mapM_ok_iff.mp h
    rw [← hall.length_eq, List.length_range, hsame]
  · split at h
    · obtain ⟨s, _, h⟩ := except_map_ok h
      simp [← h]
    · split at h
      · rename_i hone
        obtain ⟨s, _, h⟩ := except_map_ok h
        simp [← h, hone]
      · have hall := mapM_ok_iff.mp h
        rw [← hall.length_eq, List.length_range]

/-- A frame is converted, unless its average leaves the machine's integers. -/
theorem convert_iff (h : FrameAt pcm base srcCh frame) (hpos : 0 < srcCh) :
    convert pcm base srcCh dstCh = .ok (converted frame dstCh) ↔
      (dstCh = 1 → srcCh ≠ 1 → Averageable frame) := by
  have hlen := h.length
  unfold convert converted
  rw [hlen]
  by_cases hsame : dstCh = srcCh
  · have hread := mapM_range fun c hc => h.sampleAt hc
    have hframe := map_getD frame
    rw [hlen] at hframe
    rw [if_pos hsame, if_pos hsame, hread, hframe]
    exact ⟨fun _ hdst hsrc => absurd (hsame.symm.trans hdst) hsrc, fun _ => rfl⟩
  · rw [if_neg hsame, if_neg hsame]
    by_cases hmono : srcCh = 1
    · have hread := h.sampleAt (c := 0) hpos
      have hhead : frame.headD 0 = frame.getD 0 0 := by cases frame <;> rfl
      rw [if_pos hmono, if_pos hmono, hhead]
      rw [Nat.add_zero] at hread
      rw [hread]
      exact ⟨fun _ _ hsrc => absurd hmono hsrc, fun _ => rfl⟩
    · rw [if_neg hmono, if_neg hmono]
      by_cases hdst : dstCh = 1
      · have hmix := mixDown_iff h hpos
        rw [if_pos hdst, if_pos hdst]
        constructor
        · intro hok _ _
          obtain ⟨s, hs, heq⟩ := except_map_ok hok
          cases heq
          exact hmix.mp hs
        · intro hav
          rw [hmix.mpr (hav hdst hmono)]
          rfl
      · have hread : (List.range dstCh).mapM (fun c => if c < srcCh then sampleAt pcm (base + c)
            else .ok 0) = .ok ((List.range dstCh).map fun c => frame.getD c 0) := by
          refine mapM_range fun c _ => ?_
          by_cases hc : c < srcCh
          · rw [if_pos hc, h.sampleAt hc]
          · have hnone : frame[c]? = none := List.getElem?_eq_none (by omega)
            simp [hc, hnone]
        rw [if_neg hdst, if_neg hdst, hread]
        exact ⟨fun _ hone => absurd hone hdst, fun _ => rfl⟩

end Conversion

section Runs

variable {j : Job}

/-- A job as `resample` sets it up. -/
structure Job.Positive (j : Job) : Prop where
  srcCh : 0 < j.srcCh
  srcRate : 0 < j.srcRate
  dstRate : 0 < j.dstRate

theorem frameAt_source (hframes : j.srcFrames ≠ 0) (k : Nat) :
    FrameAt j.pcm (j.source k * j.srcCh) j.srcCh (j.input (j.source k)) := by
  refine ⟨rfl, ?_⟩
  have hlast : j.source k ≤ j.srcFrames - 1 := Nat.min_le_right _ _
  have hall : j.srcFrames * j.srcCh ≤ j.pcm.length := Nat.div_mul_le_self _ _
  calc j.source k * j.srcCh + j.srcCh = (j.source k + 1) * j.srcCh := by rw [Nat.add_mul, Nat.one_mul]
    _ ≤ j.srcFrames * j.srcCh := Nat.mul_le_mul_right _ (by omega)
    _ ≤ j.pcm.length := hall

/-- Positions of output frames are not larger than the scaled length. -/
theorem frame_eq (hscaled : j.srcFrames * j.dstRate < 2 ^ 64) {k : Nat} (hk : k < j.dstFrames) :
    j.frame k = convert j.pcm (j.source k * j.srcCh) j.srcCh j.dstCh := by
  have hlt : k * j.srcRate < 2 ^ 64 := by
    calc k * j.srcRate ≤ j.dstFrames * j.srcRate := Nat.mul_le_mul_right _ (Nat.le_of_lt hk)
      _ ≤ j.srcFrames * j.dstRate := Nat.div_mul_le_self _ _
      _ < 2 ^ 64 := hscaled
  simp only [Job.frame, checkU64, if_pos hlt, except_ok_bind]
  rfl

theorem checkU64_ok_iff {n r : Nat} : checkU64 n = .ok r ↔ n < 2 ^ 64 ∧ r = n := by
  unfold checkU64
  by_cases h : n < 2 ^ 64
  · rw [if_pos h]
    exact ⟨fun heq => ⟨h, (Except.ok.inj heq).symm⟩, fun heq => congrArg _ heq.2.symm⟩
  · rw [if_neg h]
    exact ⟨fun heq => (nomatch heq), fun heq => absurd heq.1 h⟩

/-- A run with at least one frame goes through with the pieces of its rounds. -/
theorem run_ok_iff (hframes : j.srcFrames ≠ 0) {out : List Int16} :
    j.run = .ok out ↔ j.srcFrames * j.dstRate < 2 ^ 64 ∧ 2 * (j.dstFrames * j.dstCh) ≤ isizeMax ∧
      ∃ frames, (List.range j.dstFrames).mapM j.frame = .ok frames ∧ out = frames.flatten := by
  unfold Job.run
  rw [if_neg hframes]
  constructor
  · intro h
    obtain ⟨scaled, hscaled, h⟩ := except_bind_ok h
    obtain ⟨hlt, rfl⟩ := checkU64_ok_iff.mp hscaled
    obtain ⟨capacity, hcapacity, h⟩ := except_bind_ok h
    obtain ⟨_, rfl⟩ := checkU64_ok_iff.mp hcapacity
    by_cases hbig : isizeMax < 2 * (j.srcFrames * j.dstRate / j.srcRate * j.dstCh)
    · rw [if_pos hbig] at h
      cases h
    · rw [if_neg hbig] at h
      obtain ⟨frames, hrounds, h⟩ := except_bind_ok h
      exact ⟨hlt, Nat.le_of_not_lt hbig, frames, hrounds, (Except.ok.inj h).symm⟩
  · rintro ⟨hlt, hsmall, frames, hrounds, rfl⟩
    have hcapacity : j.srcFrames * j.dstRate / j.srcRate * j.dstCh < 2 ^ 64 := by
      unfold isizeMax at hsmall
      show j.dstFrames * j.dstCh < 2 ^ 64
      omega
    have hnot : ¬isizeMax < 2 * (j.srcFrames * j.dstRate / j.srcRate * j.dstCh) := Nat.not_lt.mpr hsmall
    have hrounds' : (List.range (j.srcFrames * j.dstRate / j.srcRate)).mapM j.frame = .ok frames := hrounds
    rw [checkU64_ok_iff.mpr ⟨hlt, rfl⟩, except_ok_bind]
    dsimp only
    rw [checkU64_ok_iff.mpr ⟨hcapacity, rfl⟩, except_ok_bind, if_neg hnot, hrounds', except_ok_bind]
    rfl

/-- The pieces of an output that each round makes as long as a frame. -/
theorem pieces {frames : List (List Int16)} (hlen : ∀ piece ∈ frames, piece.length = n) :
    frames.flatten.length = frames.length * n ∧
      ∀ k (hk : k < frames.length), (frames.flatten.drop (k * n)).take n = frames[k] := by
  rw [← List.flatMap_id]
  exact ⟨FixedWidth.length_flatMap hlen, fun k hk => FixedWidth.piece_flatMap hlen hk⟩

theorem meets_iff (hpos : j.Positive) : j.Meets ↔ j.Fits := by
  by_cases hframes : j.srcFrames = 0
  · have hdst : j.dstFrames = 0 := by simp [Job.dstFrames, hframes]
    refine ⟨fun _ => .inl hframes, fun _ => ⟨[], ?_, ?_, ?_⟩⟩
    · simp [Job.run, hframes]
    · simp [hdst]
    · intro k hk
      omega
  · rw [Job.Fits, or_iff_right hframes]
    constructor
    · rintro ⟨out, hrun, _, hpiece⟩
      obtain ⟨hscaled, hsmall, frames, hrounds, rfl⟩ := (run_ok_iff hframes).mp hrun
      refine ⟨hscaled, hsmall, fun hdst hsrc k hk => ?_⟩
      have hall := mapM_ok_iff.mp hrounds
      have hcount : frames.length = j.dstFrames := by rw [← hall.length_eq, List.length_range]
      have hround : ∀ i (hi : i < frames.length), j.frame i = .ok frames[i] := by
        intro i hi
        have hget := List.Forall₂.get hall (i := i) (by simpa [hcount] using hi) hi
        simpa using hget
      have hlen : ∀ piece ∈ frames, piece.length = j.dstCh := by
        intro piece hmem
        obtain ⟨i, hi, rfl⟩ := List.mem_iff_getElem.mp hmem
        have hone := hround i hi
        rw [frame_eq hscaled (by omega)] at hone
        exact convert_length hone
      have hone := hround k (by omega)
      have hchunk := (pieces hlen).2 k (by omega)
      rw [hpiece k hk] at hchunk
      rw [frame_eq hscaled hk, ← hchunk] at hone
      exact (convert_iff (frameAt_source hframes k) hpos.srcCh).mp hone hdst hsrc
    · rintro ⟨hscaled, hsmall, hav⟩
      have hround : ∀ k < j.dstFrames,
          j.frame k = .ok (converted (j.input (j.source k)) j.dstCh) := by
        intro k hk
        rw [frame_eq hscaled hk]
        exact (convert_iff (frameAt_source hframes k) hpos.srcCh).mpr fun hdst hsrc => hav hdst hsrc k hk
      have hlen : ∀ piece ∈ (List.range j.dstFrames).map fun k => converted (j.input (j.source k)) j.dstCh,
          piece.length = j.dstCh := by
        intro piece hmem
        obtain ⟨k, hk, rfl⟩ := List.mem_map.mp hmem
        rw [List.mem_range] at hk
        have hone := hround k hk
        rw [frame_eq hscaled hk] at hone
        exact convert_length hone
      obtain ⟨hout, hchunk⟩ := pieces hlen
      refine ⟨_, (run_ok_iff hframes).mpr ⟨hscaled, hsmall, _, mapM_range hround, rfl⟩, ?_, ?_⟩
      · rw [hout, List.length_map, List.length_range]
      · intro k hk
        rw [hchunk k (by simpa using hk)]
        simp

/-- `resample` returns the frames it is for exactly when the scaled length is a `u64`, the output can
be a vector, and the frames to be averaged have sums that fit the accumulator. -/
theorem resample_iff (pcm : List Int16) (srcCh srcRate dstCh dstRate : UInt32) :
    (Job.of pcm srcCh srcRate dstCh dstRate).Meets ↔ (Job.of pcm srcCh srcRate dstCh dstRate).Fits :=
  meets_iff ⟨Nat.le_max_right _ _, Nat.le_max_right _ _, Nat.le_max_right _ _⟩

theorem total_replicate (n : Nat) (s : Int16) : total (List.replicate n s) = n * s.toInt := by
  induction n with
  | zero => simp [total]
  | succ n ih =>
    rw [List.replicate_succ, total_cons, ih, Int.natCast_succ, Int.add_mul, Int.one_mul, Int.add_comm]

/-- A frame of one sample over and over is averaged only if its sum fits the accumulator. -/
theorem uniform_frame {n : Nat} {s : Int16} (hn : 1 < n)
    (h : (⟨List.replicate n s, n, 1, 1, 1⟩ : Job).Meets) : InI32 (n * s.toInt) := by
  have hpos : 0 < n := by omega
  have hframes : (⟨List.replicate n s, n, 1, 1, 1⟩ : Job).srcFrames = 1 := by
    simp [Job.srcFrames, Nat.div_self hpos]
  have hdst : (⟨List.replicate n s, n, 1, 1, 1⟩ : Job).dstFrames = 1 := by
    simp [Job.dstFrames, hframes]
  have hinput : (⟨List.replicate n s, n, 1, 1, 1⟩ : Job).input
      ((⟨List.replicate n s, n, 1, 1, 1⟩ : Job).source 0) = List.replicate n s := by
    simp [Job.input, Job.source]
  rcases (meets_iff ⟨hpos, Nat.one_pos, Nat.one_pos⟩).mp h with hnone | ⟨_, _, hav⟩
  · omega
  · have hall := (hav rfl (by simp only; omega) 0 (by omega)).sums n
    rw [hinput, List.take_replicate, Nat.min_self, total_replicate] at hall
    exact hall (by simp)

/-- One sample, at rates and a channel count that ask for more than a vector can hold; and a frame of
as many of the lowest samples as leave the accumulator. -/
theorem resample_stops : ¬(Job.of [0] 1 1 4294967295 4294967295).Meets ∧
    ¬(Job.of (List.replicate 65537 (-32768)) 65537 1 1 1).Meets := by
  constructor
  · rintro ⟨out, hrun, _⟩
    have hfault : (Job.of [0] 1 1 4294967295 4294967295).run = .error .capacity := by decide
    rw [hfault] at hrun
    cases hrun
  · intro hmeets
    exact absurd (uniform_frame (n := 65537) (s := -32768) (by decide) hmeets) (by decide)

end Runs

end BetLang.Resampling
