import BetLang.Mixer
import Mathlib.Algebra.Group.Nat.Defs

/-! A command with the id of one play does not reach another: slots and generations tell the plays
apart until a slot's generations have gone round. -/

namespace BetLang.Mixing

section Ids

/-- The generation that the `n`-th allocation of a slot gets. -/
def generationOf (n : Nat) : UInt32 := UInt32.ofNat (n % 2 ^ 25)

theorem toNat_mask (g : UInt32) : (g &&& voiceGenMask).toNat = g.toNat % 2 ^ 25 := by
  rw [UInt32.toNat_and]
  exact Nat.and_two_pow_sub_one_eq_mod g.toNat 25

theorem toNat_generationOf (n : Nat) : (generationOf n).toNat = n % 2 ^ 25 := by
  unfold generationOf
  rw [UInt32.toNat_ofNat']
  omega

theorem generationOf_succ (n : Nat) : (generationOf n + 1) &&& voiceGenMask = generationOf (n + 1) := by
  apply UInt32.toNat_inj.mp
  rw [toNat_mask, toNat_generationOf, UInt32.toNat_add, toNat_generationOf]
  show (n % 2 ^ 25 + 1) % 2 ^ 32 % 2 ^ 25 = (n + 1) % 2 ^ 25
  omega

theorem toNat_voiceId {slot : Nat} (hslot : slot < maxVoices) (g : UInt32) :
    (voiceId slot g).toNat = g.toNat % 2 ^ 25 * 64 + slot + 1 := by
  have hlt : slot < 64 := hslot
  unfold voiceId
  rw [UInt32.toNat_add, UInt32.toNat_add, UInt32.toNat_mul, toNat_mask, UInt32.toNat_ofNat',
    UInt32.toNat_ofNat']
  show ((g.toNat % 2 ^ 25 * (64 % 2 ^ 32) % 2 ^ 32 + slot % 2 ^ 32) % 2 ^ 32 + 1) % 2 ^ 32 = _
  omega

/-- Ids keep the slot and the generation. -/
theorem decodeVoice_voiceId {slot : Nat} (hslot : slot < maxVoices) {g : UInt32}
    (hg : g.toNat < 2 ^ 25) : decodeVoice (voiceId slot g) = some (slot, g) := by
  have hlt : slot < 64 := hslot
  have hid := toNat_voiceId hslot g
  have hne : voiceId slot g ≠ 0 := by
    intro h
    rw [h] at hid
    cases hid
  have hsub : (voiceId slot g - 1).toNat = g.toNat * 64 + slot := by
    rw [UInt32.toNat_sub_of_le, hid]
    · show _ - 1 = _
      omega
    · rw [UInt32.le_iff_toNat_le, hid]
      show 1 ≤ _
      omega
  unfold decodeVoice
  rw [if_neg hne, hsub]
  congr 2
  · show (g.toNat * 64 + slot) % 64 = slot
    omega
  · apply UInt32.toNat_inj.mp
    rw [UInt32.toNat_div, hsub]
    show (g.toNat * 64 + slot) / 64 = g.toNat
    omega

theorem decodeVoice_generationOf {slot : Nat} (hslot : slot < maxVoices) (n : Nat) :
    decodeVoice (voiceId slot (generationOf n)) = some (slot, generationOf n) := by
  refine decodeVoice_voiceId hslot ?_
  rw [toNat_generationOf]
  omega

end Ids

section Voices

def MixCmd.slot : MixCmd → Nat
  | .play slot .. | .stop slot _ | .tune slot .. => slot

/-- What a command does to the voice of its slot. -/
def MixCmd.onVoice : MixCmd → Voice → Voice
  | .play _ generation pcm volQ8 looping, _ => started generation pcm volQ8 looping
  | .stop _ generation, v => v.guarded generation ({ · with active := false })
  | .tune _ generation volQ8 panQ8, v =>
    v.guarded generation ({ · with volQ8 := volQ8, panQ8 := min panQ8 255 })

theorem apply_eq (m : Mixer) (cmd : MixCmd) :
    m.apply cmd = { m with voices := m.voices.modify cmd.slot cmd.onVoice } := by
  cases cmd with
  | play => rfl
  | stop => rfl
  | tune => rfl

theorem apply_voice (m : Mixer) (cmd : MixCmd) (slot : Nat) :
    (m.apply cmd).voices[slot]? =
      m.voices[slot]?.map fun v => if cmd.slot = slot then cmd.onVoice v else v := by
  rw [apply_eq]
  dsimp only
  rw [List.getElem?_modify]
  rfl

theorem apply_length (m : Mixer) (cmd : MixCmd) :
    (m.apply cmd).voices.length = m.voices.length := by
  rw [apply_eq]
  exact List.length_modify _ _ _

theorem mixSample_voice (m : Mixer) (sample : Int16) (chan slot : Nat) :
    (m.mixSample sample chan).1.voices[slot]? =
      m.voices[slot]?.map fun v => (mixVoice m.mono chan v).1 := by
  unfold Mixer.mixSample
  rw [List.getElem?_map, List.getElem?_map, Option.map_map]
  rfl

theorem mixSample_length (m : Mixer) (sample : Int16) (chan : Nat) :
    (m.mixSample sample chan).1.voices.length = m.voices.length := by
  unfold Mixer.mixSample
  rw [List.length_map, List.length_map]

theorem guarded_generation {v : Voice} {generation : UInt32} {change : Voice → Voice}
    (h : (change v).generation = v.generation) :
    (v.guarded generation change).generation = v.generation := by
  unfold Voice.guarded
  split
  · exact h
  · rfl

theorem mixVoice_generation (mono : Bool) (chan : Nat) (v : Voice) :
    (mixVoice mono chan v).1.generation = v.generation := by
  unfold mixVoice
  split
  · rfl
  · split
    · dsimp only
      split
      · split
        · rfl
        · rfl
      · rfl
    · rfl

theorem mixVoice_inactive {mono : Bool} {chan : Nat} {v : Voice} (h : v.active = false) :
    mixVoice mono chan v = (v, 0) := if_pos h

end Voices

section Tracking

/-- The ghosts tell the truth: registry, ring and voices agree on the generations of the plays. -/
structure Tracked (s : System) : Prop where
  issued : ∀ p ∈ s.issued, p.slot < maxVoices ∧ p.id = voiceId p.slot (generationOf p.nth)
  nextSlot : s.registry.nextSlot < maxVoices
  generations : ∀ slot < maxVoices,
    s.registry.generations[slot]? = some (generationOf (timesAllocated s.issued slot))
  ring : ∀ sent ∈ s.ring, ∀ slot generation pcm volQ8 looping,
    sent.cmd = .play slot generation pcm volQ8 looping →
      ∃ p ∈ s.issued, sent.origin = some p ∧ p.slot = slot ∧ generation = generationOf p.nth
  voices : s.mixer.voices.length = maxVoices
  sounding : ∀ slot p, s.sounding slot = some p → p ∈ s.issued ∧ p.slot = slot ∧
    ∀ v, s.mixer.voices[slot]? = some v → v.generation = generationOf p.nth
  quiet : ∀ slot v, s.sounding slot = none → s.mixer.voices[slot]? = some v → v.active = false

theorem tracked_new (deviceChannels : UInt16) : Tracked (System.new deviceChannels) where
  issued := List.forall_mem_nil _
  nextSlot := Nat.zero_lt_succ _
  generations _ hslot := List.getElem?_replicate_of_lt hslot
  ring := List.forall_mem_nil _
  voices := List.length_replicate
  sounding _ _ h := nomatch h
  quiet slot v _ hv := by
    have hmem : v ∈ List.replicate maxVoices Voice.idle := List.mem_of_getElem? hv
    rw [List.eq_of_mem_replicate hmem]
    rfl

theorem tracked_sendCmd {s : System} (h : Tracked s) (dropped : Bool) {sent : Sent}
    (hsent : ∀ slot generation pcm volQ8 looping,
      sent.cmd = .play slot generation pcm volQ8 looping →
        ∃ p ∈ s.issued, sent.origin = some p ∧ p.slot = slot ∧ generation = generationOf p.nth) :
    Tracked (s.sendCmd dropped sent) := by
  unfold System.sendCmd
  split
  · exact h
  · refine { h with ring := fun sent' hmem => ?_ }
    rcases List.mem_append.mp hmem with hmem | hmem
    · exact h.ring sent' hmem
    · cases List.mem_singleton.mp hmem
      exact hsent

theorem timesAllocated_cons (p : Issued) (issued : List Issued) (slot : Nat) :
    timesAllocated (p :: issued) slot =
      if p.slot = slot then timesAllocated issued slot + 1 else timesAllocated issued slot := by
  unfold timesAllocated
  by_cases h : p.slot = slot
  · rw [if_pos h, List.filter_cons_of_pos (by simpa using h), List.length_cons]
  · rw [if_neg h, List.filter_cons_of_neg (by simpa using h)]

theorem tracked_play {s : System} (h : Tracked s) (pcm : List Int16) (volQ8 : UInt32)
    (looping dropped : Bool) : Tracked (s.play pcm volQ8 looping dropped) := by
  have hgen : (s.registry.generations.getD s.registry.nextSlot 0 + 1) &&& voiceGenMask =
      generationOf (timesAllocated s.issued s.registry.nextSlot + 1) := by
    rw [List.getD_eq_getElem?_getD, h.generations _ h.nextSlot]
    exact generationOf_succ _
  have hmore : ∀ {p : Issued} {q}, p ∈ s.issued → p ∈ q :: s.issued := List.mem_cons_of_mem _
  unfold System.play SoundRegistry.allocVoice
  dsimp only
  refine tracked_sendCmd ?_ dropped ?_
  · refine { h with
      issued := fun p hp => ?_
      nextSlot := Nat.mod_lt _ (by decide)
      generations := fun slot hslot => ?_
      ring := fun sent hsent slot g pcm vol l heq => ?_
      sounding := fun slot p hp => ?_ }
    · rcases List.mem_cons.mp hp with rfl | hp
      · exact ⟨h.nextSlot, by rw [hgen]⟩
      · exact h.issued p hp
    · dsimp only
      rw [timesAllocated_cons, List.getElem?_set]
      by_cases heq : s.registry.nextSlot = slot
      · have hlen : s.registry.nextSlot < s.registry.generations.length :=
          (List.getElem?_eq_some_iff.mp (h.generations _ h.nextSlot)).1
        rw [if_pos heq, if_pos (heq ▸ hlen), if_pos heq, hgen, heq]
      · rw [if_neg heq, if_neg heq]
        exact h.generations slot hslot
    · obtain ⟨p, hp, horigin⟩ := h.ring sent hsent slot g pcm vol l heq
      exact ⟨p, hmore hp, horigin⟩
    · obtain ⟨hmem, hslot⟩ := h.sounding slot p hp
      exact ⟨hmore hmem, hslot⟩
  · rintro slot g pcm' vol l ⟨⟩
    exact ⟨_, List.mem_cons_self, rfl, rfl, hgen⟩

/-- Only a `play` starts a voice. -/
def MixCmd.starts : MixCmd → Bool
  | .play .. => true
  | .stop .. | .tune .. => false

theorem onVoice_generation {cmd : MixCmd} (h : cmd.starts = false) (v : Voice) :
    (cmd.onVoice v).generation = v.generation := by
  cases cmd with
  | play => cases h
  | stop => exact guarded_generation rfl
  | tune => exact guarded_generation rfl

theorem guarded_active {v : Voice} {generation : UInt32} {change : Voice → Voice}
    (h : v.active = false) (hchange : (change v).active = false) :
    (v.guarded generation change).active = false := by
  unfold Voice.guarded
  split
  · exact hchange
  · exact h

theorem onVoice_active {cmd : MixCmd} (h : cmd.starts = false) {v : Voice}
    (hv : v.active = false) : (cmd.onVoice v).active = false := by
  cases cmd with
  | play => cases h
  | stop => exact guarded_active hv rfl
  | tune => exact guarded_active hv hv

theorem resound_other {sent : Sent} (h : sent.cmd.starts = false)
    (sounding : Nat → Option Issued) : resound sounding sent = sounding := by
  obtain ⟨cmd, origin⟩ := sent
  cases cmd with
  | play => cases h
  | stop => rfl
  | tune => rfl

theorem resound_self {sent : Sent} (h : sent.cmd.starts = true)
    (sounding : Nat → Option Issued) : resound sounding sent sent.cmd.slot = sent.origin := by
  obtain ⟨cmd, origin⟩ := sent
  cases cmd with
  | play slot => exact if_pos rfl
  | stop => cases h
  | tune => cases h

theorem resound_ne {sent : Sent} {at_ : Nat} (h : sent.cmd.slot ≠ at_)
    (sounding : Nat → Option Issued) : resound sounding sent at_ = sounding at_ := by
  obtain ⟨cmd, origin⟩ := sent
  cases cmd with
  | play slot => exact if_neg fun heq => h heq.symm
  | stop => rfl
  | tune => rfl

theorem voice_of_apply {m : Mixer} {cmd : MixCmd} {slot : Nat} {v : Voice}
    (h : (m.apply cmd).voices[slot]? = some v) :
    ∃ v₀, m.voices[slot]? = some v₀ ∧ (if cmd.slot = slot then cmd.onVoice v₀ else v₀) = v := by
  rw [apply_voice] at h
  exact Option.map_eq_some_iff.mp h

/-- A `stop` or a `tune` keeps the generations and starts nothing. -/
theorem tracked_apply {s : System} (h : Tracked s) {sent : Sent} {ring : List Sent}
    (hring : s.ring = sent :: ring) (hcmd : sent.cmd.starts = false) :
    Tracked { s with
      ring := ring, mixer := s.mixer.apply sent.cmd, sounding := resound s.sounding sent } := by
  rw [resound_other hcmd]
  refine { h with
    ring := fun sent' hmem => h.ring sent' (hring ▸ List.mem_cons_of_mem _ hmem)
    voices := (apply_length _ _).trans h.voices
    sounding := fun slot p hp => ?_
    quiet := fun slot v hs hv => ?_ }
  · obtain ⟨hmem, hslot, hgen⟩ := h.sounding slot p hp
    refine ⟨hmem, hslot, fun v hv => ?_⟩
    obtain ⟨v₀, hv₀, rfl⟩ := voice_of_apply hv
    split
    · rw [onVoice_generation hcmd, hgen v₀ hv₀]
    · exact hgen v₀ hv₀
  · obtain ⟨v₀, hv₀, rfl⟩ := voice_of_apply hv
    split
    · exact onVoice_active hcmd (h.quiet slot v₀ hs hv₀)
    · exact h.quiet slot v₀ hs hv₀

/-- A `play` takes its slot over. -/
theorem tracked_start {s : System} (h : Tracked s) {sent : Sent} {ring : List Sent}
    (hring : s.ring = sent :: ring) (hcmd : sent.cmd.starts = true) :
    Tracked { s with
      ring := ring, mixer := s.mixer.apply sent.cmd, sounding := resound s.sounding sent } := by
  have hplay : ∃ p ∈ s.issued, sent.origin = some p ∧ p.slot = sent.cmd.slot ∧
      ∀ v, (sent.cmd.onVoice v).generation = generationOf p.nth := by
    have hmem : sent ∈ s.ring := hring ▸ List.mem_cons_self
    cases heq : sent.cmd with
    | play slot generation pcm volQ8 looping =>
      obtain ⟨p, hp, horigin, hslot, hgen⟩ := h.ring sent hmem _ _ _ _ _ heq
      exact ⟨p, hp, horigin, hslot, fun _ => hgen⟩
    | stop => rw [heq] at hcmd; cases hcmd
    | tune => rw [heq] at hcmd; cases hcmd
  obtain ⟨p, hp, horigin, hslot, hgen⟩ := hplay
  refine { h with
    ring := fun sent' hmem => h.ring sent' (hring ▸ List.mem_cons_of_mem _ hmem)
    voices := (apply_length _ _).trans h.voices
    sounding := fun at_ q hq => ?_
    quiet := fun at_ v hs hv => ?_ }
  · obtain rfl | hne := Decidable.eq_or_ne sent.cmd.slot at_
    · have hpq : some p = some q := horigin.symm.trans ((resound_self hcmd _).symm.trans hq)
      cases hpq
      refine ⟨hp, hslot, fun v hv => ?_⟩
      obtain ⟨v₀, _, rfl⟩ := voice_of_apply hv
      rw [if_pos rfl]
      exact hgen v₀
    · obtain ⟨hmem, hslot', hgen'⟩ := h.sounding at_ q ((resound_ne hne _).symm.trans hq)
      refine ⟨hmem, hslot', fun v hv => ?_⟩
      obtain ⟨v₀, hv₀, rfl⟩ := voice_of_apply hv
      rw [if_neg hne]
      exact hgen' v₀ hv₀
  · obtain rfl | hne := Decidable.eq_or_ne sent.cmd.slot at_
    · have hnone : some p = none := horigin.symm.trans ((resound_self hcmd _).symm.trans hs)
      cases hnone
    · obtain ⟨v₀, hv₀, rfl⟩ := voice_of_apply hv
      rw [if_neg hne]
      exact h.quiet at_ v₀ ((resound_ne hne _).symm.trans hs) hv₀

theorem tracked_deliver {s : System} (h : Tracked s) : Tracked s.deliver := by
  unfold System.deliver
  cases hring : s.ring with
  | nil => exact h
  | cons sent ring =>
    cases hcmd : sent.cmd.starts with
    | true => exact tracked_start h hring hcmd
    | false => exact tracked_apply h hring hcmd

theorem mixVoice_active {mono : Bool} {chan : Nat} {v : Voice} (h : v.active = false) :
    (mixVoice mono chan v).1.active = false := by
  rw [mixVoice_inactive h]
  exact h

theorem tracked_mix {s : System} (h : Tracked s) (sample : Int16) (chan : Nat) :
    Tracked { s with mixer := (s.mixer.mixSample sample chan).1 } := by
  refine { h with
    voices := (mixSample_length _ sample _).trans h.voices
    sounding := fun slot p hp => ?_
    quiet := fun slot v hs hv => ?_ }
  · obtain ⟨hmem, hslot, hgen⟩ := h.sounding slot p hp
    refine ⟨hmem, hslot, fun v hv => ?_⟩
    obtain ⟨v₀, hv₀, rfl⟩ := Option.map_eq_some_iff.mp ((mixSample_voice _ sample _ _).symm.trans hv)
    rw [mixVoice_generation, hgen v₀ hv₀]
  · obtain ⟨v₀, hv₀, rfl⟩ := Option.map_eq_some_iff.mp ((mixSample_voice _ sample _ _).symm.trans hv)
    exact mixVoice_active (h.quiet slot v₀ hs hv₀)

theorem tracked_step {s : System} (h : Tracked s) (event : Event) : Tracked (s.step event) := by
  cases event with
  | play pcm volQ8 looping dropped => exact tracked_play h pcm volQ8 looping dropped
  | stop voice dropped =>
    show Tracked (s.stop voice dropped)
    unfold System.stop
    split
    · exact h
    · exact tracked_sendCmd h dropped fun _ _ _ _ _ heq => nomatch heq
  | tune voice volQ8 panQ8 dropped =>
    show Tracked (s.tune voice volQ8 panQ8 dropped)
    unfold System.tune
    split
    · exact h
    · exact tracked_sendCmd h dropped fun _ _ _ _ _ heq => nomatch heq
  | deliver => exact tracked_deliver h
  | mix sample chan => exact tracked_mix h sample chan

theorem tracked_run {s : System} (h : Tracked s) (events : List Event) : Tracked (s.run events) := by
  induction events generalizing s with
  | nil => exact h
  | cons event events ih => exact ih (tracked_step h event)

end Tracking

end BetLang.Mixing
