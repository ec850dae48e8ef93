import Mathlib.Tactic.Common

/-! The audio mixer: the game thread allocates voices and sends commands, the audio callback applies
them in order and mixes samples. -/

namespace BetLang.Mixing

def maxVoices : Nat := 64

def voiceGenMask : UInt32 := 0x01FFFFFF

/-- The public id of a voice; `0` is none. -/
def voiceId (slot : Nat) (generation : UInt32) : UInt32 :=
  (generation &&& voiceGenMask) * UInt32.ofNat maxVoices + UInt32.ofNat slot + 1

def decodeVoice (id : UInt32) : Option (Nat × UInt32) :=
  if id = 0 then none else some ((id - 1).toNat % maxVoices, (id - 1) / UInt32.ofNat maxVoices)

inductive MixCmd where
  | play (slot : Nat) (generation : UInt32) (pcm : List Int16) (volQ8 : UInt32) (looping : Bool)
  | stop (slot : Nat) (generation : UInt32)
  | tune (slot : Nat) (generation volQ8 panQ8 : UInt32)
  deriving DecidableEq

structure Voice where
  pcm : Option (List Int16)
  generation : UInt32
  pos : Nat
  volQ8 : UInt32
  panQ8 : UInt32
  looping : Bool
  active : Bool
  deriving DecidableEq

def Voice.idle : Voice := ⟨none, 0, 0, 0, 128, false, false⟩

structure Mixer where
  voices : List Voice
  deviceChannels : UInt16
  deriving DecidableEq

def Mixer.new (deviceChannels : UInt16) : Mixer := ⟨List.replicate maxVoices .idle, deviceChannels⟩

/-- The voice that a `play` starts. -/
def started (generation : UInt32) (pcm : List Int16) (volQ8 : UInt32) (looping : Bool) : Voice :=
  ⟨some pcm, generation, 0, volQ8, 128, looping, true⟩

/-- A command for a generation that the slot is no longer at is stale. -/
def Voice.guarded (v : Voice) (generation : UInt32) (change : Voice → Voice) : Voice :=
  if v.generation = generation then change v else v

def Mixer.apply (m : Mixer) : MixCmd → Mixer
  | .play slot generation pcm volQ8 looping =>
    { m with voices := m.voices.modify slot fun _ => started generation pcm volQ8 looping }
  | .stop slot generation =>
    { m with voices := m.voices.modify slot (·.guarded generation ({ · with active := false })) }
  | .tune slot generation volQ8 panQ8 =>
    { m with
      voices := m.voices.modify slot
        (·.guarded generation ({ · with volQ8 := volQ8, panQ8 := min panQ8 255 })) }

/-- The linear pan law: even channels are left, odd ones right. -/
def Voice.gain (v : Voice) (mono : Bool) (chan : Nat) : Int32 :=
  let vol := v.volQ8.toInt32
  if mono then vol
  else if chan % 2 = 0 then vol * (255 - v.panQ8.toInt32) / 255
  else vol * v.panQ8.toInt32 / 255

/-- A voice after one sample slot, and what it adds to the sample. -/
def mixVoice (mono : Bool) (chan : Nat) (v : Voice) : Voice × Int32 :=
  if v.active = false then (v, 0)
  else
    match v.pcm with
    | some (first :: rest) =>
      let res := first :: rest
      let added := ((res.getD v.pos 0).toInt32 * v.gain mono chan) >>> 8
      let pos := v.pos + 1
      if pos ≥ res.length then
        if v.looping then ({ v with pos := 0 }, added)
        else ({ v with pos := pos, active := false }, added)
      else ({ v with pos := pos }, added)
    | _ => ({ v with active := false }, 0)

def Mixer.mono (m : Mixer) : Bool := m.deviceChannels ≤ 1

def clampI16 (acc : Int32) : Int16 := (max (-32768) (min acc 32767)).toInt16

/-- `sample` is the next one of the raw ring. -/
def Mixer.mixSample (m : Mixer) (sample : Int16) (chan : Nat) : Mixer × Int16 :=
  let mixed := m.voices.map (mixVoice m.mono chan)
  ({ m with voices := mixed.map (·.1) },
    clampI16 (mixed.foldl (fun acc voice => acc + voice.2) sample.toInt32))

/-- The voice allocator of the game thread. -/
structure SoundRegistry where
  generations : List UInt32
  nextSlot : Nat
  deriving DecidableEq

def SoundRegistry.new : SoundRegistry := ⟨List.replicate maxVoices 0, 0⟩

/-- Slots are claimed round-robin, and every claim bumps the slot's generation. -/
def SoundRegistry.allocVoice (r : SoundRegistry) : (Nat × UInt32) × SoundRegistry :=
  let generation := (r.generations.getD r.nextSlot 0 + 1) &&& voiceGenMask
  ((r.nextSlot, generation),
    ⟨r.generations.set r.nextSlot generation, (r.nextSlot + 1) % maxVoices⟩)

/-- One play: its slot, which allocation of that slot it is, and the id that the caller got. -/
structure Issued where
  slot : Nat
  nth : Nat
  id : UInt32
  deriving DecidableEq

/-- A command in the ring, with the play behind a `play`. -/
structure Sent where
  cmd : MixCmd
  origin : Option Issued
  deriving DecidableEq

/-- Both threads and the ring between them. `issued` (newest first) and `sounding` (the play that
the mixer last started in a slot) are kept for the statements only. -/
structure System where
  registry : SoundRegistry
  ring : List Sent
  mixer : Mixer
  issued : List Issued
  sounding : Nat → Option Issued

def System.new (deviceChannels : UInt16) : System :=
  ⟨.new, [], .new deviceChannels, [], fun _ => none⟩

/-- A push to a full ring drops the command. -/
def System.sendCmd (s : System) (dropped : Bool) (sent : Sent) : System :=
  if dropped then s else { s with ring := s.ring ++ [sent] }

def timesAllocated (issued : List Issued) (slot : Nat) : Nat :=
  (issued.filter (·.slot = slot)).length

inductive Event where
  | play (pcm : List Int16) (volQ8 : UInt32) (looping dropped : Bool)
  | stop (voice : UInt32) (dropped : Bool)
  | tune (voice volQ8 panQ8 : UInt32) (dropped : Bool)
  /-- The callback pops a command and applies it. -/
  | deliver
  | mix (sample : Int16) (chan : Nat)

def System.play (s : System) (pcm : List Int16) (volQ8 : UInt32) (looping dropped : Bool) : System :=
  let ((slot, generation), registry) := s.registry.allocVoice
  let issued : Issued := ⟨slot, timesAllocated s.issued slot + 1, voiceId slot generation⟩
  System.sendCmd { s with registry := registry, issued := issued :: s.issued } dropped
    ⟨.play slot generation pcm volQ8 looping, some issued⟩

def System.stop (s : System) (voice : UInt32) (dropped : Bool) : System :=
  match decodeVoice voice with
  | none => s
  | some (slot, generation) => s.sendCmd dropped ⟨.stop slot generation, none⟩

def System.tune (s : System) (voice volQ8 panQ8 : UInt32) (dropped : Bool) : System :=
  match decodeVoice voice with
  | none => s
  | some (slot, generation) => s.sendCmd dropped ⟨.tune slot generation volQ8 panQ8, none⟩

/-- What applying a command makes of the plays that sound. -/
def resound (sounding : Nat → Option Issued) : Sent → Nat → Option Issued
  | ⟨.play slot .., origin⟩, at_ => if at_ = slot then origin else sounding at_
  | _, at_ => sounding at_

def System.deliver (s : System) : System :=
  match s.ring with
  | [] => s
  | sent :: ring =>
    { s with ring := ring, mixer := s.mixer.apply sent.cmd, sounding := resound s.sounding sent }

def System.step (s : System) : Event → System
  | .play pcm volQ8 looping dropped => s.play pcm volQ8 looping dropped
  | .stop voice dropped => s.stop voice dropped
  | .tune voice volQ8 panQ8 dropped => s.tune voice volQ8 panQ8 dropped
  | .deliver => s.deliver
  | .mix sample chan => { s with mixer := (s.mixer.mixSample sample chan).1 }

def System.run (s : System) (events : List Event) : System := events.foldl System.step s

/-- What a play adds to a sample of channel `chan` that is mixed now. -/
def System.contribution (s : System) (chan : Nat) (p : Issued) : Int32 :=
  if s.sounding p.slot = some p then
    match s.mixer.voices[p.slot]? with
    | some v => (mixVoice s.mixer.mono chan v).2
    | none => 0
  else 0

end BetLang.Mixing
