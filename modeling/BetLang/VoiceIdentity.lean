import BetLang.Voices

/-! Two runs of the mixer, one of them without a command: what a play adds to the output. -/

namespace BetLang.Mixing

/-- Between the two plays of one slot, the slot's generations have gone round. -/
def Wrapped (p q : Issued) : Prop :=
  p.slot = q.slot ∧ (p.nth + 2 ^ 25 ≤ q.nth ∨ q.nth + 2 ^ 25 ≤ p.nth)

/-- A `stop` or a `tune` with this id. -/
def MixCmd.Carries (id : UInt32) : MixCmd → Prop
  | .play .. => False
  | .stop slot generation => decodeVoice id = some (slot, generation)
  | .tune slot generation _ _ => decodeVoice id = some (slot, generation)

theorem MixCmd.Carries.starts {cmd : MixCmd} {id : UInt32} (h : cmd.Carries id) : cmd.starts = false := by
  cases cmd with
  | play => exact h.elim
  | stop => rfl
  | tune => rfl

/-- A command reaches only a voice of the generation in its id. -/
theorem MixCmd.Carries.onVoice {cmd : MixCmd} {id : UInt32} (h : cmd.Carries id) {slot : Nat}
    {generation : UInt32} (hid : decodeVoice id = some (slot, generation)) :
    cmd.slot = slot ∧ ∀ v : Voice, v.generation ≠ generation → cmd.onVoice v = v := by
  cases cmd with
  | play => exact h.elim
  | stop =>
    cases hid.symm.trans h
    exact ⟨rfl, fun v hv => if_neg hv⟩
  | tune =>
    cases hid.symm.trans h
    exact ⟨rfl, fun v hv => if_neg hv⟩

/-- The two states differ at most in voices that do not sound `q`. -/
structure Agree (q : Issued) (s t : System) : Prop where
  registry : s.registry = t.registry
  ring : s.ring = t.ring
  issued : s.issued = t.issued
  sounding : s.sounding = t.sounding
  channels : s.mixer.deviceChannels = t.mixer.deviceChannels
  length : s.mixer.voices.length = t.mixer.voices.length
  voice : s.sounding q.slot = some q → s.mixer.voices[q.slot]? = t.mixer.voices[q.slot]?

section Agreement

variable {q : Issued} {s t : System}

theorem Agree.mono (h : Agree q s t) : s.mixer.mono = t.mixer.mono := by
  unfold Mixer.mono
  rw [h.channels]

theorem Agree.contribution (h : Agree q s t) (chan : Nat) :
    s.contribution chan q = t.contribution chan q := by
  unfold System.contribution
  rw [← h.sounding]
  by_cases hq : s.sounding q.slot = some q
  · rw [if_pos hq, if_pos hq, h.voice hq, h.mono]
  · rw [if_neg hq, if_neg hq]

theorem Agree.sendCmd (h : Agree q s t) (dropped : Bool) (sent : Sent) :
    Agree q (s.sendCmd dropped sent) (t.sendCmd dropped sent) := by
  unfold System.sendCmd
  split
  · exact h
  · exact { h with ring := congrArg (· ++ [sent]) h.ring }

theorem Agree.play (h : Agree q s t) (pcm : List Int16) (volQ8 : UInt32) (looping dropped : Bool) :
    Agree q (s.play pcm volQ8 looping dropped) (t.play pcm volQ8 looping dropped) := by
  unfold System.play
  rw [← h.registry, ← h.issued]
  refine Agree.sendCmd ?_ dropped _
  exact ⟨rfl, h.ring, rfl, h.sounding, h.channels, h.length, h.voice⟩

theorem deliver_cons {sent : Sent} {ring : List Sent} (h : s.ring = sent :: ring) :
    s.deliver = { s with
      ring := ring, mixer := s.mixer.apply sent.cmd, sounding := resound s.sounding sent } := by
  simp only [System.deliver, h]

theorem deliver_nil (h : s.ring = []) : s.deliver = s := by
  simp only [System.deliver, h]

/-- A `play` overwrites the whole voice. -/
theorem onVoice_const {cmd : MixCmd} (h : cmd.starts = true) (v w : Voice) :
    cmd.onVoice v = cmd.onVoice w := by
  cases cmd with
  | play => rfl
  | stop => cases h
  | tune => cases h

/-- A command leaves the voice of `q` the same on both sides, also when it starts `q`. -/
theorem Agree.apply_voice (h : Agree q s t) {sent : Sent}
    (hq : resound s.sounding sent q.slot = some q) :
    (s.mixer.apply sent.cmd).voices[q.slot]? = (t.mixer.apply sent.cmd).voices[q.slot]? := by
  rw [Mixing.apply_voice, Mixing.apply_voice]
  by_cases hstart : sent.cmd.starts = true ∧ sent.cmd.slot = q.slot
  · have hnone : s.mixer.voices[q.slot]? = none ↔ t.mixer.voices[q.slot]? = none := by
      rw [List.getElem?_eq_none_iff, List.getElem?_eq_none_iff, h.length]
    cases hs : s.mixer.voices[q.slot]? with
    | none => rw [hnone.mp hs]
    | some v =>
      cases ht : t.mixer.voices[q.slot]? with
      | none =>
        rw [hnone.mpr ht] at hs
        cases hs
      | some w =>
        rw [Option.map_some, Option.map_some, if_pos hstart.2, if_pos hstart.2,
          onVoice_const hstart.1 v w]
  · have hkept : s.sounding q.slot = some q := by
      rw [← hq]
      cases hstarts : sent.cmd.starts with
      | false => rw [resound_other hstarts]
      | true => exact (resound_ne (fun heq => hstart ⟨hstarts, heq⟩) _).symm
    rw [h.voice hkept]

theorem Agree.deliver (h : Agree q s t) : Agree q s.deliver t.deliver := by
  cases hring : s.ring with
  | nil =>
    rw [deliver_nil hring, deliver_nil (h.ring ▸ hring)]
    exact h
  | cons sent ring =>
    rw [deliver_cons hring, deliver_cons (h.ring ▸ hring)]
    refine ⟨h.registry, rfl, h.issued, by rw [h.sounding], ?_, ?_, fun hq => h.apply_voice hq⟩
    · rw [apply_eq, apply_eq]
      exact h.channels
    · dsimp only
      rw [apply_length, apply_length, h.length]

theorem Agree.mix (h : Agree q s t) (sample : Int16) (chan : Nat) :
    Agree q { s with mixer := (s.mixer.mixSample sample chan).1 }
      { t with mixer := (t.mixer.mixSample sample chan).1 } := by
  refine { h with
    channels := h.channels
    length := by rw [mixSample_length, mixSample_length, h.length]
    voice := fun hq => ?_ }
  dsimp only
  rw [mixSample_voice, mixSample_voice, h.mono, h.voice hq]

theorem Agree.step (h : Agree q s t) (event : Event) : Agree q (s.step event) (t.step event) := by
  cases event with
  | play pcm volQ8 looping dropped => exact h.play pcm volQ8 looping dropped
  | stop voice dropped =>
    show Agree q (s.stop voice dropped) (t.stop voice dropped)
    unfold System.stop
    split
    · exact h
    · exact h.sendCmd dropped _
  | tune voice volQ8 panQ8 dropped =>
    show Agree q (s.tune voice volQ8 panQ8 dropped) (t.tune voice volQ8 panQ8 dropped)
    unfold System.tune
    split
    · exact h
    · exact h.sendCmd dropped _
  | deliver => exact h.deliver
  | mix sample chan => exact h.mix sample chan

theorem Agree.run (h : Agree q s t) (events : List Event) : Agree q (s.run events) (t.run events) := by
  induction events generalizing s t with
  | nil => exact h
  | cons event events ih => exact ih (h.step event)

end Agreement

section Identity

variable {s : System}

/-- Plays of one slot with one generation are the same or wrapped. -/
theorem eq_of_generationOf (h : Tracked s) {p q : Issued} (hp : p ∈ s.issued) (hq : q ∈ s.issued)
    (hslot : p.slot = q.slot) (hgen : generationOf p.nth = generationOf q.nth)
    (hwrap : ¬Wrapped p q) : p = q := by
  have hmod := congrArg UInt32.toNat hgen
  rw [toNat_generationOf, toNat_generationOf] at hmod
  have hnth : p.nth = q.nth := by
    unfold Wrapped at hwrap
    omega
  have hid : p.id = q.id := by rw [(h.issued p hp).2, (h.issued q hq).2, hslot, hnth]
  obtain ⟨slot, nth, id⟩ := p
  dsimp only at hslot hnth hid
  rw [hslot, hnth, hid]

/-- Delivering or losing a command with the id of `p` is the same to `q`. -/
theorem agree_carried (h : Tracked s) {p q : Issued} (hp : p ∈ s.issued) (hne : q ≠ p)
    (hwrap : ¬Wrapped p q) {sent : Sent} {ring : List Sent} (hring : s.ring = sent :: ring)
    (hcarries : sent.cmd.Carries p.id) : Agree q s.deliver { s with ring := ring } := by
  obtain ⟨hslot, hid⟩ := h.issued p hp
  have hdecode : decodeVoice p.id = some (p.slot, generationOf p.nth) := by
    rw [hid, decodeVoice_generationOf hslot]
  obtain ⟨hat, hstale⟩ := hcarries.onVoice hdecode
  rw [deliver_cons hring, resound_other hcarries.starts]
  refine ⟨rfl, rfl, rfl, rfl, by rw [apply_eq], apply_length _ _, fun hq => ?_⟩
  obtain ⟨hmem, _, hgen⟩ := h.sounding q.slot q hq
  dsimp only
  rw [apply_voice]
  by_cases heq : sent.cmd.slot = q.slot
  · cases hv : s.mixer.voices[q.slot]? with
    | none => rfl
    | some v =>
      rw [Option.map_some, if_pos heq, hstale v fun hsame => ?_]
      rw [hgen v hv] at hsame
      exact hne (eq_of_generationOf h hp hmem (hat.symm.trans heq) hsame.symm hwrap).symm
  · simp only [if_neg heq, Option.map_id']

/-- The id of a play decodes to its slot and generation; and in every run, a `stop` or a `tune` with
that id changes what no other play adds to any later sample, while less than a whole round of the
slot's generations lies between the two plays. -/
theorem voices_apart :
    (∀ slot < maxVoices, ∀ r : SoundRegistry,
      decodeVoice (voiceId slot r.allocVoice.1.2) = some (slot, r.allocVoice.1.2)) ∧
    ∀ deviceChannels events p q sent ring,
      p ∈ ((System.new deviceChannels).run events).issued → q ≠ p → ¬Wrapped p q →
      ((System.new deviceChannels).run events).ring = sent :: ring → sent.cmd.Carries p.id →
      ∀ later chan,
        (((System.new deviceChannels).run events).deliver.run later).contribution chan q =
          ({ (System.new deviceChannels).run events with ring := ring }.run later).contribution
            chan q := by
  constructor
  · intro slot hslot r
    refine decodeVoice_voiceId hslot ?_
    show ((_ + 1) &&& voiceGenMask).toNat < 2 ^ 25
    rw [toNat_mask]
    omega
  · intro deviceChannels events p q sent ring hp hne hwrap hring hcarries later chan
    have htracked := tracked_run (tracked_new deviceChannels) events
    exact ((agree_carried htracked hp hne hwrap hring hcarries).run later).contribution chan

/-- The slots come round: the play after the last slot takes the first one over, and a late `stop`
of the first play is in the ring. -/
def stealing : List Event :=
  List.replicate 65 (.play [1000] 256 true false) ++ List.replicate 65 .deliver ++ [.stop 65 false]

set_option maxRecDepth 4000 in
theorem voices_apart_stealing :
    ((System.new 1).run stealing).contribution 0 ⟨0, 2, 129⟩ = 1000 ∧
      ∀ later chan, (((System.new 1).run stealing).deliver.run later).contribution chan ⟨0, 2, 129⟩ =
        ({ (System.new 1).run stealing with ring := [] }.run later).contribution chan
          ⟨0, 2, 129⟩ := by
  refine ⟨by decide, voices_apart.2 1 stealing ⟨0, 1, 65⟩ ⟨0, 2, 129⟩ ⟨.stop 0 1, none⟩ []
    (by decide) (by decide) ?_ (by decide) rfl⟩
  rintro ⟨_, hle | hle⟩
  · exact absurd hle (by decide)
  · exact absurd hle (by decide)

/-- What the play in a slot adds to the next sample. -/
def System.added (s : System) (chan slot : Nat) : Int32 :=
  match s.sounding slot with
  | some p => s.contribution chan p
  | none => 0

theorem added_eq (h : Tracked s) {chan slot : Nat} {v : Voice}
    (hv : s.mixer.voices[slot]? = some v) : (mixVoice s.mixer.mono chan v).2 = s.added chan slot := by
  unfold System.added
  cases hs : s.sounding slot with
  | none => rw [mixVoice_inactive (h.quiet slot v hs hv)]
  | some p =>
    obtain ⟨_, rfl, _⟩ := h.sounding slot p hs
    simp only [System.contribution, hs, hv, if_true]

/-- An output sample is the raw one plus what the plays add, clipped. -/
theorem mixSample_output (h : Tracked s) (sample : Int16) (chan : Nat) :
    (s.mixer.mixSample sample chan).2 =
      clampI16 ((List.range maxVoices).foldl (fun acc slot => acc + s.added chan slot)
        sample.toInt32) := by
  have hmap : s.mixer.voices.map (fun v => (mixVoice s.mixer.mono chan v).2) =
      (List.range maxVoices).map (s.added chan) := by
    refine List.ext_getElem (by rw [List.length_map, List.length_map, h.voices, List.length_range])
      fun i hi _ => ?_
    rw [List.length_map] at hi
    rw [List.getElem_map, List.getElem_map, List.getElem_range,
      added_eq h (List.getElem?_eq_getElem hi)]
  unfold Mixer.mixSample
  dsimp only
  rw [List.foldl_map, ← List.foldl_map, hmap, List.foldl_map]

end Identity

end BetLang.Mixing
