import BetLang.Sequencing
import BetLang.Voices
import Mathlib.Algebra.Group.Int.Defs
import Mathlib.Algebra.Group.Nat.Defs

/-! The mixer's arithmetic: what a mixed sample is in exact integers, and where the `i32` operations
that compute it stay in range. -/

namespace BetLang.Mixing

/-- An `i32` operation that overflows, or a read behind the end of a buffer. -/
inductive Fault where
  | overflow
  | range

def InI32 (x : Int) : Prop := -2 ^ 31 ≤ x ∧ x < 2 ^ 31

instance (x : Int) : Decidable (InI32 x) := inferInstanceAs (Decidable (_ ∧ _))

def i32 (x : Int) : Except Fault Int := if InI32 x then .ok x else .error .overflow

/-- `Voice.gain`, where an operation that overflows is a fault. -/
def Voice.gainI32 (v : Voice) (mono : Bool) (chan : Nat) : Except Fault Int :=
  let vol := v.volQ8.toInt32.toInt
  let pan := v.panQ8.toInt32.toInt
  if mono then .ok vol
  else if chan % 2 = 0 then do
    let side ← i32 (255 - pan)
    let scaled ← i32 (vol * side)
    return scaled.tdiv 255
  else do
    let scaled ← i32 (vol * pan)
    return scaled.tdiv 255

/-- The sample at the voice's position, times the gain, is added to `acc`. -/
def addSample (acc gain : Int) : Option Int16 → Except Fault Int
  | none => .error .range
  | some sample => do
    let scaled ← i32 (sample.toInt * gain)
    i32 (acc + scaled / 256)

def mixVoiceI32 (mono : Bool) (chan : Nat) (acc : Int) (v : Voice) : Except Fault Int :=
  if v.active = false then .ok acc
  else
    match v.pcm with
    | some (first :: rest) => do
      let gain ← v.gainI32 mono chan
      addSample acc gain (first :: rest)[v.pos]?
    | _ => .ok acc

def Mixer.sumI32 (m : Mixer) (sample : Int16) (chan : Nat) : Except Fault Int :=
  m.voices.foldlM (mixVoiceI32 m.mono chan) sample.toInt

/-- The output of `mix_sample`, where an operation that overflows is a fault. -/
def Mixer.outputI32 (m : Mixer) (sample : Int16) (chan : Nat) : Except Fault Int := do
  return max (-32768) (min (← m.sumI32 sample chan) 32767)

/-- The voice is played and has samples. -/
def Voice.Sounding (v : Voice) : Prop :=
  v.active = true ∧ ∃ first rest, v.pcm = some (first :: rest)

def Voice.buffer (v : Voice) : List Int16 := v.pcm.getD []

/-- How much of the volume goes to a channel, of 255 parts; all of it where there is one channel. -/
def Voice.side (v : Voice) (mono : Bool) (chan : Nat) : Nat :=
  if mono then 1 else if chan % 2 = 0 then 255 - v.panQ8.toNat else v.panQ8.toNat

def Voice.exactGain (v : Voice) (mono : Bool) (chan : Nat) : Nat :=
  if mono then v.volQ8.toNat else v.volQ8.toNat * v.side mono chan / 255

def Voice.sample (v : Voice) : Int := (v.buffer.getD v.pos 0).toInt

def Voice.exactAdded (v : Voice) (mono : Bool) (chan : Nat) : Int :=
  if v.active && !v.buffer.isEmpty then v.sample * v.exactGain mono chan / 256 else 0

/-- The raw sample and what every voice adds. -/
def Mixer.exactSum (m : Mixer) (sample : Int16) (chan : Nat) : Int :=
  m.voices.foldl (fun acc v => acc + v.exactAdded m.mono chan) sample.toInt

/-- No operation overflows, every gain is that of the pan law, and the output is the clamped sum. -/
structure Mixer.Exact (m : Mixer) (sample : Int16) (chan : Nat) : Prop where
  gains : ∀ v ∈ m.voices, v.Sounding → v.gainI32 m.mono chan = .ok (v.exactGain m.mono chan)
  checked : m.outputI32 sample chan = .ok (max (-32768) (min (m.exactSum sample chan) 32767))
  output : (m.mixSample sample chan).2.toInt = max (-32768) (min (m.exactSum sample chan) 32767)

/-- The two products of the voice are in range. -/
def Voice.InRange (v : Voice) (mono : Bool) (chan : Nat) : Prop :=
  v.volQ8.toNat * v.side mono chan < 2 ^ 31 ∧ InI32 (v.sample * v.exactGain mono chan)

inductive Callback where
  | apply (cmd : MixCmd)
  | mix (sample : Int16) (chan : Nat)

def Mixer.callback (m : Mixer) : Callback → Mixer
  | .apply cmd => m.apply cmd
  | .mix sample chan => (m.mixSample sample chan).1

/-- What every run keeps of a voice. -/
structure Voice.Ok (v : Voice) : Prop where
  pan : v.panQ8.toNat ≤ 255
  pos : v.Sounding → v.pos < v.buffer.length

section Gain

theorem toInt_toInt32 (x : UInt32) :
    x.toInt32.toInt = if x.toNat < 2 ^ 31 then (x.toNat : Int) else x.toNat - 2 ^ 32 := by
  have hcond := BitVec.toInt_eq_toNat_cond x.toBitVec
  have htoNat : x.toBitVec.toNat = x.toNat := rfl
  have hint : x.toInt32.toInt = x.toBitVec.toInt := rfl
  rw [hint, hcond, htoNat]
  split_ifs <;> omega

theorem i32_ok {x y : Int} : i32 x = .ok y ↔ InI32 x ∧ x = y := by
  rw [i32]
  by_cases hx : InI32 x
  · simp [hx]
  · simp [hx]

/-- The scaling of a volume is exact where the product is in range. -/
theorem scaled_iff (vol : UInt32) {side : Int} {s : Nat} (hside : side = s) (hs : s ≤ 255) :
    (do
      let scaled ← i32 (vol.toInt32.toInt * side)
      return scaled.tdiv 255 : Except Fault Int) = .ok ((vol.toNat * s / 255 : Nat) : Int) ↔
      vol.toNat * s < 2 ^ 31 := by
  have hlt := vol.toNat_lt
  subst hside
  constructor
  · intro h
    obtain ⟨scaled, hscaled, h⟩ := except_bind_ok h
    obtain ⟨hin, rfl⟩ := i32_ok.mp hscaled
    rw [toInt_toInt32] at hin h
    by_cases hvol : vol.toNat < 2 ^ 31
    · rw [if_pos hvol] at hin
      exact_mod_cast hin.2
    · rw [if_neg hvol] at h
      have hdiv : ((vol.toNat - 2 ^ 32 : Int) * s).tdiv 255 = ((vol.toNat * s / 255 : Nat) : Int) :=
        Except.ok.inj h
      by_contra hge
      have hflip : (vol.toNat - 2 ^ 32 : Int) * s = -((2 ^ 32 - vol.toNat) * s) := by
        rw [← Int.neg_mul, Int.neg_sub]
      have hneg : ((vol.toNat - 2 ^ 32 : Int) * s).tdiv 255 ≤ 0 := by
        rw [hflip, Int.neg_tdiv]
        exact Int.neg_nonpos_of_nonneg (Int.tdiv_nonneg
          (Int.mul_nonneg (by omega) (Int.natCast_nonneg s)) (by decide))
      have hpos : 0 < vol.toNat * s / 255 := Nat.div_pos (by omega) (by decide)
      omega
  · intro h
    by_cases hvol : vol.toNat < 2 ^ 31
    · have hin : InI32 (vol.toInt32.toInt * s) := by
        rw [toInt_toInt32, if_pos hvol]
        constructor
        · exact Int.le_trans (by decide)
            (Int.mul_nonneg (Int.natCast_nonneg _) (Int.natCast_nonneg _))
        · exact_mod_cast h
      rw [i32_ok.mpr ⟨hin, rfl⟩, except_ok_bind, toInt_toInt32, if_pos hvol]
      rfl
    · have hzero : s = 0 := by
        by_contra hs
        have : vol.toNat * 1 ≤ vol.toNat * s := Nat.mul_le_mul_left _ (by omega)
        omega
      subst hzero
      rw [i32_ok.mpr ⟨by rw [Int.natCast_zero, Int.mul_zero]; decide, rfl⟩, except_ok_bind]
      simp
      rfl

variable {v : Voice} {mono : Bool} {chan : Nat}

theorem pan_toInt (hpan : v.panQ8.toNat ≤ 255) : v.panQ8.toInt32.toInt = v.panQ8.toNat := by
  rw [toInt_toInt32, if_pos (by omega)]

/-- The gain is that of the pan law where the volume's product is in range. -/
theorem gainI32_iff (hpan : v.panQ8.toNat ≤ 255) :
    v.gainI32 mono chan = .ok (v.exactGain mono chan) ↔
      v.volQ8.toNat * v.side mono chan < 2 ^ 31 := by
  have hlt := v.volQ8.toNat_lt
  cases mono with
  | true =>
    have hgain : v.gainI32 true chan = .ok v.volQ8.toInt32.toInt := rfl
    have hside : v.side true chan = 1 := rfl
    have hexact : v.exactGain true chan = v.volQ8.toNat := rfl
    rw [hgain, hside, hexact, toInt_toInt32, Except.ok.injEq]
    split_ifs <;> omega
  | false =>
    by_cases hchan : chan % 2 = 0
    · have hside : v.side false chan = 255 - v.panQ8.toNat := by simp [Voice.side, hchan]
      have hleft : (255 - v.panQ8.toInt32.toInt : Int) = (255 - v.panQ8.toNat : Nat) := by
        rw [pan_toInt hpan]
        omega
      have hin : i32 (255 - v.panQ8.toInt32.toInt) = .ok (255 - v.panQ8.toInt32.toInt) :=
        i32_ok.mpr ⟨by rw [hleft]; constructor <;> omega, rfl⟩
      have hgain : v.gainI32 false chan = (do
          let scaled ← i32 (v.volQ8.toInt32.toInt * (255 - v.panQ8.toInt32.toInt))
          return scaled.tdiv 255) := by
        simp only [Voice.gainI32, hchan, hin, except_ok_bind]
        rfl
      have hexact : v.exactGain false chan = v.volQ8.toNat * (255 - v.panQ8.toNat) / 255 := by
        simp [Voice.exactGain, hside]
      rw [hgain, hexact, hside, scaled_iff v.volQ8 hleft (by omega)]
    · have hside : v.side false chan = v.panQ8.toNat := by simp [Voice.side, hchan]
      have hgain : v.gainI32 false chan = (do
          let scaled ← i32 (v.volQ8.toInt32.toInt * v.panQ8.toInt32.toInt)
          return scaled.tdiv 255) := by
        simp only [Voice.gainI32, hchan]
        rfl
      have hexact : v.exactGain false chan = v.volQ8.toNat * v.panQ8.toNat / 255 := by
        simp [Voice.exactGain, hside]
      rw [hgain, hexact, hside, scaled_iff v.volQ8 (pan_toInt hpan) hpan]

end Gain

section Sum

variable {v : Voice} {mono : Bool} {chan : Nat}

theorem mixVoiceI32_quiet (h : ¬v.Sounding) (mono : Bool) (chan : Nat) (acc : Int) :
    mixVoiceI32 mono chan acc v = .ok acc ∧ v.exactAdded mono chan = 0 := by
  by_cases hactive : v.active = true
  · cases hpcm : v.pcm with
    | none => simp [mixVoiceI32, Voice.exactAdded, Voice.buffer, hpcm]
    | some samples =>
      cases samples with
      | nil => simp [mixVoiceI32, Voice.exactAdded, Voice.buffer, hpcm]
      | cons first rest => exact absurd ⟨hactive, first, rest, hpcm⟩ h
  · simp [mixVoiceI32, Voice.exactAdded, hactive]

theorem mixVoiceI32_sounding (hok : v.Ok) (h : v.Sounding) (mono : Bool) (chan : Nat) (acc : Int) :
    mixVoiceI32 mono chan acc v = (do
      let gain ← v.gainI32 mono chan
      let scaled ← i32 (v.sample * gain)
      i32 (acc + scaled / 256)) ∧
    v.exactAdded mono chan = v.sample * v.exactGain mono chan / 256 := by
  have hpos := hok.pos h
  obtain ⟨hactive, first, rest, hpcm⟩ := h
  have hbuffer : v.buffer = first :: rest := by simp [Voice.buffer, hpcm]
  rw [hbuffer] at hpos
  obtain ⟨sample, hget⟩ : ∃ sample, (first :: rest)[v.pos]? = some sample :=
    ⟨_, List.getElem?_eq_getElem hpos⟩
  have hsample : v.sample = sample.toInt := by
    rw [Voice.sample, hbuffer, List.getD_eq_getElem?_getD, hget, Option.getD_some]
  constructor
  · have hnot : ¬v.active = false := by simp [hactive]
    rw [mixVoiceI32, if_neg hnot, hpcm, hsample]
    simp only [hget]
    rfl
  · simp [Voice.exactAdded, hactive, hbuffer]

theorem shifted_bound {x : Int} (h : InI32 x) : -2 ^ 23 ≤ x / 256 ∧ x / 256 < 2 ^ 23 := by
  obtain ⟨hlo, hhi⟩ := h
  omega

/-- What a voice adds is exact, and small. -/
theorem mixVoiceI32_ok (hok : v.Ok) (hin : v.Sounding → v.InRange mono chan) (acc : Int)
    (hlo : -2 ^ 31 + 2 ^ 23 ≤ acc) (hhi : acc + 2 ^ 23 ≤ 2 ^ 31) :
    mixVoiceI32 mono chan acc v = .ok (acc + v.exactAdded mono chan) ∧
      -2 ^ 23 ≤ v.exactAdded mono chan ∧ v.exactAdded mono chan < 2 ^ 23 := by
  by_cases h : v.Sounding
  · obtain ⟨hmul, hscaled⟩ := hin h
    obtain ⟨hmix, hadded⟩ := mixVoiceI32_sounding hok h mono chan acc
    have hbound := shifted_bound hscaled
    rw [hmix, hadded, (gainI32_iff hok.pan).mpr hmul, except_ok_bind,
      i32_ok.mpr ⟨hscaled, rfl⟩, except_ok_bind]
    refine ⟨i32_ok.mpr ⟨⟨?_, ?_⟩, rfl⟩, hbound⟩ <;> omega
  · obtain ⟨hmix, hadded⟩ := mixVoiceI32_quiet h mono chan acc
    rw [hmix, hadded]
    exact ⟨by rw [Int.add_zero], by decide, by decide⟩

/-- A voice can add so little that the sum stays in range. -/
theorem sum_ok {vs : List Voice} (hok : ∀ v ∈ vs, v.Ok)
    (hin : ∀ v ∈ vs, v.Sounding → v.InRange mono chan) (acc : Int)
    (hlo : -2 ^ 31 + vs.length * 2 ^ 23 ≤ acc) (hhi : acc + vs.length * 2 ^ 23 ≤ 2 ^ 31) :
    vs.foldlM (mixVoiceI32 mono chan) acc =
      .ok (vs.foldl (fun acc v => acc + v.exactAdded mono chan) acc) := by
  induction vs generalizing acc with
  | nil => rfl
  | cons v vs ih =>
    rw [List.length_cons] at hlo hhi
    push_cast at hlo hhi
    obtain ⟨hmix, hmin, hmax⟩ := mixVoiceI32_ok (hok v List.mem_cons_self)
      (hin v List.mem_cons_self) acc (by omega) (by omega)
    rw [List.foldlM_cons, hmix, except_ok_bind, List.foldl_cons]
    exact ih (fun w hw => hok w (List.mem_cons_of_mem _ hw))
      (fun w hw => hin w (List.mem_cons_of_mem _ hw)) _ (by omega) (by omega)

/-- Where nothing overflows, the product of each voice is in range. -/
theorem sum_sounding {vs : List Voice} {acc r : Int} (hok : ∀ v ∈ vs, v.Ok)
    (h : vs.foldlM (mixVoiceI32 mono chan) acc = .ok r) (hv : v ∈ vs) (hsound : v.Sounding)
    {gain : Int} (hgain : v.gainI32 mono chan = .ok gain) : InI32 (v.sample * gain) := by
  induction vs generalizing acc with
  | nil => cases hv
  | cons w vs ih =>
    rw [List.foldlM_cons] at h
    obtain ⟨acc', hmix, h⟩ := except_bind_ok h
    rcases List.mem_cons.mp hv with rfl | hv
    · rw [(mixVoiceI32_sounding (hok v List.mem_cons_self) hsound mono chan acc).1, hgain,
        except_ok_bind] at hmix
      obtain ⟨scaled, hscaled, -⟩ := except_bind_ok hmix
      exact (i32_ok.mp hscaled).1
    · exact ih (fun w hw => hok w (List.mem_cons_of_mem _ hw)) h hv

end Sum

section Wrapping

variable {v : Voice} {mono : Bool} {chan : Nat}

theorem bmod_of_inI32 {x : Int} (h : InI32 x) : x.bmod (2 ^ 32) = x := by
  obtain ⟨hlo, hhi⟩ := h
  exact Int.bmod_eq_of_le (by omega) (by omega)

/-- The wrapping gain is the checked one where nothing overflows. -/
theorem gain_toInt {gain : Int} (hgain : v.gainI32 mono chan = .ok gain) :
    (v.gain mono chan).toInt = gain := by
  have hdiv : ∀ a : Int32, (a / 255).toInt = a.toInt.tdiv 255 :=
    fun a => Int32.toInt_div_of_ne_right a 255 (by decide)
  rw [Voice.gainI32] at hgain
  rw [Voice.gain]
  cases mono with
  | true => exact Except.ok.inj hgain
  | false =>
    by_cases hchan : chan % 2 = 0
    · simp only [hchan, if_true, Bool.false_eq_true, if_false] at hgain ⊢
      obtain ⟨side, hside, hgain⟩ := except_bind_ok hgain
      obtain ⟨scaled, hscaled, hgain⟩ := except_bind_ok hgain
      obtain ⟨hin, rfl⟩ := i32_ok.mp hside
      obtain ⟨hin', rfl⟩ := i32_ok.mp hscaled
      have hside : (255 - v.panQ8.toInt32).toInt = 255 - v.panQ8.toInt32.toInt := by
        rw [Int32.toInt_sub]
        exact bmod_of_inI32 hin
      rw [hdiv, Int32.toInt_mul, hside, bmod_of_inI32 hin']
      exact Except.ok.inj hgain
    · simp only [hchan, Bool.false_eq_true, if_false] at hgain ⊢
      obtain ⟨scaled, hscaled, hgain⟩ := except_bind_ok hgain
      obtain ⟨hin, rfl⟩ := i32_ok.mp hscaled
      rw [hdiv, Int32.toInt_mul, bmod_of_inI32 hin]
      exact Except.ok.inj hgain

theorem shifted_toInt (a : Int32) : (a >>> 8).toInt = a.toInt / 256 := by
  have hbits : (a >>> 8).toBitVec = a.toBitVec.sshiftRight 8 := by
    rw [Int32.toBitVec_shiftRight]
    rfl
  have hint : (a >>> 8).toInt = (a >>> 8).toBitVec.toInt := rfl
  rw [hint, hbits, BitVec.toInt_sshiftRight, Int.shiftRight_eq_div_pow]
  rfl

/-- What a voice adds does not wrap. -/
theorem mixVoice_added (hok : v.Ok) (hin : v.Sounding → v.InRange mono chan) :
    (mixVoice mono chan v).2.toInt = v.exactAdded mono chan := by
  by_cases h : v.Sounding
  · obtain ⟨hmul, hscaled⟩ := hin h
    have hgain := gain_toInt ((gainI32_iff hok.pan).mpr hmul)
    rw [(mixVoiceI32_sounding hok h mono chan 0).2]
    obtain ⟨hactive, first, rest, hpcm⟩ := h
    have hsample : v.sample = ((first :: rest).getD v.pos 0).toInt := by
      simp [Voice.sample, Voice.buffer, hpcm]
    have hnot : ¬v.active = false := by simp [hactive]
    have hadded : (mixVoice mono chan v).2 =
        (((first :: rest).getD v.pos 0).toInt32 * v.gain mono chan) >>> 8 := by
      rw [mixVoice, if_neg hnot, hpcm]
      dsimp only
      split_ifs <;> rfl
    rw [hadded, shifted_toInt, Int32.toInt_mul, Int16.toInt_toInt32, hgain, ← hsample,
      bmod_of_inI32 hscaled]
  · have hquiet := (mixVoiceI32_quiet h mono chan 0).2
    rw [hquiet, mixVoice]
    split
    · rfl
    · rename_i hactive
      split
      · rename_i first rest hpcm
        exact absurd ⟨by simpa using hactive, first, rest, hpcm⟩ h
      · rfl

theorem wrapped_sum {vs : List Voice} (hok : ∀ v ∈ vs, v.Ok)
    (hin : ∀ v ∈ vs, v.Sounding → v.InRange mono chan) (acc : Int32)
    (hlo : -2 ^ 31 + vs.length * 2 ^ 23 ≤ acc.toInt)
    (hhi : acc.toInt + vs.length * 2 ^ 23 ≤ 2 ^ 31) :
    ((vs.map (mixVoice mono chan)).foldl (fun acc voice => acc + voice.2) acc).toInt =
      vs.foldl (fun acc v => acc + v.exactAdded mono chan) acc.toInt := by
  induction vs generalizing acc with
  | nil => rfl
  | cons v vs ih =>
    rw [List.length_cons] at hlo hhi
    push_cast at hlo hhi
    have hadded := mixVoice_added (hok v List.mem_cons_self) (hin v List.mem_cons_self)
    obtain ⟨-, hmin, hmax⟩ := mixVoiceI32_ok (hok v List.mem_cons_self)
      (hin v List.mem_cons_self) acc.toInt (by omega) (by omega)
    have hsum : (acc + (mixVoice mono chan v).2).toInt = acc.toInt + v.exactAdded mono chan := by
      rw [Int32.toInt_add, hadded]
      exact bmod_of_inI32 ⟨by omega, by omega⟩
    rw [List.map_cons, List.foldl_cons, List.foldl_cons, ← hsum]
    exact ih (fun w hw => hok w (List.mem_cons_of_mem _ hw))
      (fun w hw => hin w (List.mem_cons_of_mem _ hw)) _ (by omega) (by omega)

theorem min_toInt (acc : Int32) : (min acc 32767).toInt = min acc.toInt 32767 := by
  have hmax : (32767 : Int32).toInt = 32767 := by decide
  show (if acc ≤ 32767 then acc else 32767).toInt = _
  split
  · rename_i h
    rw [Int32.le_iff_toInt_le, hmax] at h
    omega
  · rename_i h
    rw [Int32.le_iff_toInt_le, hmax] at h
    omega

theorem max_toInt (acc : Int32) : (max (-32768) acc).toInt = max (-32768) acc.toInt := by
  have hmin : (-32768 : Int32).toInt = -32768 := by decide
  show (if (-32768 : Int32) ≤ acc then acc else -32768).toInt = _
  split
  · rename_i h
    rw [Int32.le_iff_toInt_le, hmin] at h
    omega
  · rename_i h
    rw [Int32.le_iff_toInt_le, hmin] at h
    omega

theorem clampI16_toInt (acc : Int32) :
    (clampI16 acc).toInt = max (-32768) (min acc.toInt 32767) := by
  rw [clampI16, Int32.toInt_toInt16, max_toInt, min_toInt]
  exact Int.bmod_eq_of_le (by omega) (by omega)

end Wrapping

section Runs

/-- What every run keeps of the mixer. -/
structure Mixer.Ok (m : Mixer) : Prop where
  voices : m.voices.length = maxVoices
  ok : ∀ (slot : Nat) (v : Voice), m.voices[slot]? = some v → v.Ok

variable {m : Mixer}

theorem Mixer.Ok.mem (h : m.Ok) {v : Voice} (hv : v ∈ m.voices) : v.Ok := by
  obtain ⟨slot, hslot⟩ := List.mem_iff_getElem?.mp hv
  exact h.ok slot v hslot

/-- Of all the operations, only the two products of a voice can overflow. -/
theorem exact_iff (h : m.Ok) (sample : Int16) (chan : Nat) :
    m.Exact sample chan ↔ ∀ v ∈ m.voices, v.Sounding → v.InRange m.mono chan := by
  have hsample := sample.le_toInt
  have hsample' := sample.toInt_lt
  have hlen := h.voices
  constructor
  · intro hexact v hv hsound
    have hgain := hexact.gains v hv hsound
    obtain ⟨acc, hsum, -⟩ := except_bind_ok hexact.checked
    exact ⟨(gainI32_iff (h.mem hv).pan).mp hgain,
      sum_sounding (fun w hw => h.mem hw) hsum hv hsound hgain⟩
  · intro hin
    have hsum := sum_ok (fun v hv => h.mem hv) hin sample.toInt
      (by rw [hlen, maxVoices]; omega) (by rw [hlen, maxVoices]; omega)
    have hwrapped := wrapped_sum (fun v hv => h.mem hv) hin sample.toInt32
      (by rw [hlen, maxVoices, Int16.toInt_toInt32]; omega)
      (by rw [hlen, maxVoices, Int16.toInt_toInt32]; omega)
    refine ⟨fun v hv hsound => (gainI32_iff (h.mem hv).pan).mpr (hin v hv hsound).1, ?_, ?_⟩
    · rw [Mixer.outputI32, Mixer.sumI32, hsum]
      rfl
    · rw [Mixer.mixSample, clampI16_toInt, hwrapped, Int16.toInt_toInt32]
      rfl

theorem idle_ok : Voice.idle.Ok where
  pan := by decide
  pos h := by
    obtain ⟨hactive, -⟩ := h
    cases hactive

theorem onVoice_ok {v : Voice} (h : v.Ok) (cmd : MixCmd) : (cmd.onVoice v).Ok := by
  cases cmd with
  | play slot generation pcm volQ8 looping =>
    refine ⟨Nat.le_of_ble_eq_true rfl, ?_⟩
    rintro ⟨-, first, rest, hpcm⟩
    cases hpcm
    exact Nat.succ_pos _
  | stop slot generation =>
    rw [MixCmd.onVoice, Voice.guarded]
    split
    · refine ⟨h.pan, ?_⟩
      rintro ⟨hactive, -⟩
      cases hactive
    · exact h
  | tune slot generation volQ8 panQ8 =>
    rw [MixCmd.onVoice, Voice.guarded]
    split
    · refine ⟨?_, fun hsound => h.pos hsound⟩
      show (if panQ8 ≤ 255 then panQ8 else 255).toNat ≤ 255
      split
      · rename_i hle
        exact UInt32.le_iff_toNat_le.mp hle
      · exact Nat.le_refl 255
    · exact h

theorem mixVoice_ok {v : Voice} (h : v.Ok) (mono : Bool) (chan : Nat) :
    (mixVoice mono chan v).1.Ok := by
  rw [mixVoice]
  split
  · exact h
  · split
    · rename_i first rest hpcm
      have hbuffer : v.buffer = first :: rest := by simp [Voice.buffer, hpcm]
      dsimp only
      split
      · split
        · refine ⟨h.pan, fun _ => ?_⟩
          show 0 < v.buffer.length
          rw [hbuffer]
          exact Nat.succ_pos _
        · exact ⟨h.pan, fun hsound => by cases hsound.1⟩
      · rename_i hlt
        refine ⟨h.pan, fun _ => ?_⟩
        show v.pos + 1 < v.buffer.length
        rw [hbuffer]
        omega
    · exact ⟨h.pan, fun hsound => by cases hsound.1⟩

theorem ok_new (deviceChannels : UInt16) : (Mixer.new deviceChannels).Ok where
  voices := List.length_replicate
  ok slot v hv := by
    rw [List.eq_of_mem_replicate (List.mem_of_getElem? hv)]
    exact idle_ok

theorem ok_callback (h : m.Ok) (event : Callback) : (m.callback event).Ok := by
  cases event with
  | apply cmd =>
    refine ⟨(apply_length m cmd).trans h.voices, fun slot v hv => ?_⟩
    rw [Mixer.callback, apply_voice, Option.map_eq_some_iff] at hv
    obtain ⟨w, hw, rfl⟩ := hv
    split
    · exact onVoice_ok (h.ok slot w hw) cmd
    · exact h.ok slot w hw
  | mix sample chan =>
    refine ⟨(mixSample_length m sample chan).trans h.voices, fun slot v hv => ?_⟩
    rw [Mixer.callback, mixSample_voice, Option.map_eq_some_iff] at hv
    obtain ⟨w, hw, rfl⟩ := hv
    exact mixVoice_ok (h.ok slot w hw) m.mono chan

theorem ok_run (h : m.Ok) (events : List Callback) : (events.foldl Mixer.callback m).Ok := by
  induction events generalizing m with
  | nil => exact h
  | cons event events ih => exact ih (ok_callback h event)

/-- In every run: voices read in range, and a sample is exact where the volumes' products are in
range. -/
theorem mixer_exact_iff (deviceChannels : UInt16) (events : List Callback) :
    (∀ v ∈ (events.foldl Mixer.callback (.new deviceChannels)).voices,
      v.Sounding → v.pos < v.buffer.length) ∧
    ∀ sample chan, (events.foldl Mixer.callback (.new deviceChannels)).Exact sample chan ↔
      ∀ v ∈ (events.foldl Mixer.callback (.new deviceChannels)).voices, v.Sounding →
        v.InRange (events.foldl Mixer.callback (.new deviceChannels)).mono chan := by
  have hok := ok_run (ok_new deviceChannels) events
  exact ⟨fun v hv hsound => (hok.mem hv).pos hsound, exact_iff hok⟩

section Quiet

/-- The volume is at most 256 times that of the samples. -/
def Voice.Quiet (v : Voice) : Prop := v.volQ8.toNat ≤ 65536

def MixCmd.Quiet : MixCmd → Prop
  | .play _ _ _ volQ8 _ | .tune _ _ volQ8 _ => volQ8.toNat ≤ 65536
  | .stop _ _ => True

def Callback.Quiet : Callback → Prop
  | .apply cmd => cmd.Quiet
  | .mix _ _ => True

theorem quiet_inRange {v : Voice} (h : v.Quiet) (hok : v.Ok) (mono : Bool) (chan : Nat) :
    v.InRange mono chan := by
  have hpan := hok.pan
  have hvol : v.volQ8.toNat ≤ 65536 := h
  have hside : v.side mono chan ≤ 255 := by
    rw [Voice.side]
    split_ifs <;> omega
  have hmul : v.volQ8.toNat * v.side mono chan ≤ 65536 * 255 := Nat.mul_le_mul hvol hside
  have hgain : v.exactGain mono chan ≤ 65536 := by
    rw [Voice.exactGain]
    split_ifs
    · exact hvol
    · omega
  refine ⟨by omega, ?_⟩
  have hlo : -2 ^ 15 ≤ v.sample := Int16.le_toInt _
  have hhi : v.sample < 2 ^ 15 := Int16.toInt_lt _
  have hmin := Int.mul_le_mul_of_nonneg_right hlo (Int.natCast_nonneg (v.exactGain mono chan))
  have hmax := Int.mul_le_mul_of_nonneg_right (Int.le_sub_one_of_lt hhi)
    (Int.natCast_nonneg (v.exactGain mono chan))
  constructor <;> omega

theorem quiet_onVoice {v : Voice} (h : v.Quiet) {cmd : MixCmd} (hcmd : cmd.Quiet) :
    (cmd.onVoice v).Quiet := by
  cases cmd with
  | play slot generation pcm volQ8 looping => exact hcmd
  | stop slot generation =>
    rw [MixCmd.onVoice, Voice.guarded]
    split <;> exact h
  | tune slot generation volQ8 panQ8 =>
    rw [MixCmd.onVoice, Voice.guarded]
    split
    · exact hcmd
    · exact h

theorem quiet_mixVoice {v : Voice} (h : v.Quiet) (mono : Bool) (chan : Nat) :
    (mixVoice mono chan v).1.Quiet := by
  rw [mixVoice]
  split
  · exact h
  · split
    · dsimp only
      split_ifs <;> exact h
    · exact h

theorem quiet_run {events : List Callback} (h : ∀ event ∈ events, event.Quiet)
    (hm : ∀ v ∈ m.voices, v.Quiet) : ∀ v ∈ (events.foldl Mixer.callback m).voices, v.Quiet := by
  induction events generalizing m with
  | nil => exact hm
  | cons event events ih =>
    refine ih (fun e he => h e (List.mem_cons_of_mem _ he)) fun v hv => ?_
    obtain ⟨slot, hslot⟩ := List.mem_iff_getElem?.mp hv
    have hevent := h event List.mem_cons_self
    cases event with
    | apply cmd =>
      rw [Mixer.callback, apply_voice, Option.map_eq_some_iff] at hslot
      obtain ⟨w, hw, rfl⟩ := hslot
      have hquiet := hm w (List.mem_of_getElem? hw)
      split
      · exact quiet_onVoice hquiet hevent
      · exact hquiet
    | mix sample chan =>
      rw [Mixer.callback, mixSample_voice, Option.map_eq_some_iff] at hslot
      obtain ⟨w, hw, rfl⟩ := hslot
      exact quiet_mixVoice (hm w (List.mem_of_getElem? hw)) m.mono chan

/-- With such volumes every sample of a run is exact. -/
theorem exact_of_quiet (deviceChannels : UInt16) {events : List Callback}
    (h : ∀ event ∈ events, event.Quiet) (sample : Int16) (chan : Nat) :
    (events.foldl Mixer.callback (.new deviceChannels)).Exact sample chan := by
  have hok := ok_run (ok_new deviceChannels) events
  refine (exact_iff hok sample chan).mpr fun v hv _ => ?_
  refine quiet_inRange (quiet_run h (fun w hw => ?_) v hv) (hok.mem hv) _ _
  rw [List.eq_of_mem_replicate hw]
  exact Nat.zero_le _

end Quiet

/-- A voice at the volume 2 ^ 31 with a sample of -1, on one channel. -/
def loud : List Callback := [.apply (.play 0 1 [-1] 0x80000000 false)]

/-- The volume is taken for a negative one, and the product overflows. -/
theorem loud_overflows : ¬((loud.foldl Mixer.callback (.new 1)).Exact 0 0) := by
  rw [(exact_iff (ok_run (ok_new 1) loud) 0 0)]
  intro h
  have hvoice := h (started 1 [-1] 0x80000000 false) (by decide) ⟨rfl, -1, [], rfl⟩
  exact absurd hvoice.1 (by decide)

end Runs

end BetLang.Mixing
