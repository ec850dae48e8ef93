import Mathlib.Tactic.Common
import Mathlib.Algebra.Group.Nat.Defs
import BetLang.FixedWidth
import BetLang.Sequencing

/-! Sound data on its way out of the interpreter: a byte window of an array of samples, marshalled
from the samples that the window touches and from no others. -/

namespace BetLang.Marshal

/-- The values that the marshalling tells apart; `other` stands for every other one. -/
inductive Value where
  | int (v : Int64)
  | byte (b : UInt8)
  | array (xs : List Value)
  | other

def usizeMax : Nat := 2 ^ 64 - 1

def saturatingAdd (a b : Nat) : Nat := min (a + b) usizeMax

def divCeil (a b : Nat) : Nat := (a + b - 1) / b

section Functions

variable {α : Type}

/-- One element, if it is an integer. -/
def marshalInt (conv : Int64 → α) : Value → Option α
  | .int v => some (conv v)
  | .byte b => some (conv (Int64.ofNat b.toNat))
  | _ => none

def marshalInts (v : Value) (conv : Int64 → α) : Option (List α) :=
  match v with
  | .array xs => xs.mapM (marshalInt conv)
  | _ => none

def marshalIntsWindow (v : Value) (start count : Nat) (conv : Int64 → α) : Option (List α) :=
  match v with
  | .array xs =>
    let start := min start xs.length
    let stop := min (saturatingAdd start count) xs.length
    ((xs.take stop).drop start).mapM (marshalInt conv)
  | _ => none

end Functions

def toLeBytes (s : Int16) : List UInt8 :=
  [s.toBitVec.toNat.toUInt8, (s.toBitVec.toNat / 256).toUInt8]

def soundLeWindow (samples : Value) (off len : UInt64) : Option (List UInt8) := do
  let first := off.toNat / 2
  let byteEnd := saturatingAdd off.toNat len.toNat
  let count := divCeil byteEnd 2 - first
  let pcm ← marshalIntsWindow samples first count Int64.toInt16
  let bytes := pcm.flatMap toLeBytes
  let base := 2 * first
  let lo := min (off.toNat - base) bytes.length
  let hi := min (byteEnd - base) bytes.length
  return (bytes.take hi).drop lo

/-- An array of integers, no longer than an array can be. -/
structure IntArray where
  elems : List Value
  ints : ∀ v ∈ elems, (marshalInt id v).isSome
  fits : elems.length ≤ 2 ^ 63 - 1

def IntArray.value (a : IntArray) : Value := .array a.elems

section Windows

variable {α : Type} {conv : Int64 → α}

/-- What an element is marshalled to, given that it is an integer. -/
theorem marshalInt_isSome {v : Value} (h : (marshalInt (id : Int64 → Int64) v).isSome) (conv : Int64 → α) :
    ∃ s, marshalInt conv v = some s := by
  cases v with
  | int v => exact ⟨_, rfl⟩
  | byte b => exact ⟨_, rfl⟩
  | array xs => cases h
  | other => cases h

theorem mapM_marshalInt {xs : List Value} (h : ∀ v ∈ xs, (marshalInt (id : Int64 → Int64) v).isSome)
    (conv : Int64 → α) : ∃ pcm, xs.mapM (marshalInt conv) = some pcm := by
  induction xs with
  | nil => exact ⟨[], rfl⟩
  | cons v xs ih =>
    obtain ⟨s, hs⟩ := marshalInt_isSome (h v List.mem_cons_self) conv
    obtain ⟨pcm, hpcm⟩ := ih fun v hv => h v (List.mem_cons_of_mem _ hv)
    exact ⟨s :: pcm, by simp [List.mapM_cons, hs, hpcm]⟩

theorem mapM_take {xs : List Value} {pcm : List α} (h : xs.mapM (marshalInt conv) = some pcm) (k : Nat) :
    (xs.take k).mapM (marshalInt conv) = some (pcm.take k) :=
  mapM_some_iff.mpr (List.forall₂_take k (mapM_some h))

theorem mapM_drop {xs : List Value} {pcm : List α} (h : xs.mapM (marshalInt conv) = some pcm) (k : Nat) :
    (xs.drop k).mapM (marshalInt conv) = some (pcm.drop k) :=
  mapM_some_iff.mpr (List.forall₂_drop k (mapM_some h))

theorem length_mapM {xs : List Value} {pcm : List α} (h : xs.mapM (marshalInt conv) = some pcm) :
    pcm.length = xs.length := by
  exact (mapM_some h).length_eq.symm

/-- The window is the part of the whole that it names. -/
theorem marshalIntsWindow_eq {xs : List Value} {pcm : List α}
    (h : xs.mapM (marshalInt conv) = some pcm) (start count : Nat) :
    marshalIntsWindow (.array xs) start count conv =
      some ((pcm.take (saturatingAdd start count)).drop start) := by
  have hlen := length_mapM h
  have hwindow := mapM_drop (mapM_take h (min (saturatingAdd (min start xs.length) count) xs.length))
    (min start xs.length)
  simp only [marshalIntsWindow, hwindow]
  by_cases hstart : start ≤ xs.length
  · rw [Nat.min_eq_left hstart, ← hlen, ← List.take_eq_take_min]
  · have hdrop : pcm.length ≤ start := by omega
    have hdrop' : (pcm.take (min (saturatingAdd (min start xs.length) count) xs.length)).length ≤
        min start xs.length := by
      rw [List.length_take]
      omega
    rw [List.drop_eq_nil_of_le hdrop', List.drop_eq_nil_of_le]
    exact Nat.le_trans (List.length_take_le' _ _) hdrop

theorem toLeBytes_length (pcm : List Int16) : ∀ s ∈ pcm, (toLeBytes s).length = 2 := fun _ _ => rfl

/-- The bytes of a window, cut out of the bytes of the samples that it touches. -/
theorem window_bytes (pcm : List Int16) (off stop : Nat) :
    ((((pcm.take (divCeil stop 2)).drop (off / 2)).flatMap toLeBytes).take (stop - 2 * (off / 2))).drop
        (off - 2 * (off / 2)) = ((pcm.flatMap toLeBytes).take stop).drop off := by
  have hbase : off / 2 * 2 = 2 * (off / 2) := Nat.mul_comm _ _
  have hstop : stop ≤ divCeil stop 2 * 2 := by
    simp only [divCeil]
    omega
  have hoff : 2 * (off / 2) + (off - 2 * (off / 2)) = off := by omega
  rw [← FixedWidth.drop_flatMap (toLeBytes_length _), ← FixedWidth.take_flatMap (toLeBytes_length _),
    hbase, ← List.drop_take, List.take_take, Nat.min_eq_left hstop, List.drop_drop, hoff]

theorem take_min_length {l : List α} (k : Nat) : l.take (min k l.length) = l.take k :=
  List.take_eq_take_min.symm

theorem drop_min_length {l : List α} (j k : Nat) : (l.take k).drop (min j l.length) = (l.take k).drop j := by
  by_cases hj : j ≤ l.length
  · rw [Nat.min_eq_left hj]
  · have hle : (l.take k).length ≤ l.length := List.length_take_le' _ _
    rw [List.drop_eq_nil_of_le (by omega), List.drop_eq_nil_of_le (by omega)]

/-- The clamped and saturated window of the code, on any array of integers. -/
theorem soundLeWindow_eq {xs : List Value} {pcm : List Int16}
    (h : xs.mapM (marshalInt Int64.toInt16) = some pcm) (off len : UInt64) :
    soundLeWindow (.array xs) off len =
      some (((pcm.flatMap toLeBytes).take (saturatingAdd off.toNat len.toNat)).drop off.toNat) := by
  have hoff : off.toNat < 2 ^ 64 := off.toNat_lt
  have hle : off.toNat ≤ saturatingAdd off.toNat len.toNat := by
    simp only [saturatingAdd, usizeMax]
    omega
  have hmax : saturatingAdd off.toNat len.toNat ≤ usizeMax := Nat.min_le_right _ _
  have hcount : saturatingAdd (off.toNat / 2)
      (divCeil (saturatingAdd off.toNat len.toNat) 2 - off.toNat / 2) =
      divCeil (saturatingAdd off.toNat len.toNat) 2 := by
    generalize saturatingAdd off.toNat len.toNat = stop at hle hmax ⊢
    simp only [saturatingAdd, divCeil, usizeMax] at hmax ⊢
    omega
  simp only [soundLeWindow, marshalIntsWindow_eq h, hcount, Option.bind_eq_bind, Option.bind_some,
    take_min_length, drop_min_length, window_bytes, Option.pure_def]

end Windows

end BetLang.Marshal
