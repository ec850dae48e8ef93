import Mathlib.Data.List.Basic
import Mathlib.Data.List.TakeWhile
import Mathlib.Tactic.Common
import Mathlib.Tactic.SplitIfs

/-! UTF-8 on byte lists: splitting bytes into characters and the runs that belong to none, and
replacing those runs. -/

namespace Utf8

abbrev Byte := BitVec 8

def isTail (b : Byte) : Bool := 0x80 ≤ b.toNat && b.toNat ≤ 0xBF

/-- How many of the next `n` bytes are tails, one after the other. -/
def tails (n : Nat) (bs : List Byte) : Nat := ((bs.take n).takeWhile isTail).length

/-- What must follow the first byte of a character of several bytes: how many bytes, and the range
of the next one. -/
def lead (b : Byte) : Option (Nat × Nat × Nat) :=
  let n := b.toNat
  if 0xC2 ≤ n ∧ n ≤ 0xDF then some (1, 0x80, 0xBF)
  else if n = 0xE0 then some (2, 0xA0, 0xBF)
  else if n = 0xED then some (2, 0x80, 0x9F)
  else if 0xE1 ≤ n ∧ n ≤ 0xEF then some (2, 0x80, 0xBF)
  else if n = 0xF0 then some (3, 0x90, 0xBF)
  else if 0xF1 ≤ n ∧ n ≤ 0xF3 then some (3, 0x80, 0xBF)
  else if n = 0xF4 then some (3, 0x80, 0x8F)
  else none

/-- Whether a character begins with `b`, and how many more bytes it has, or the run that is none. -/
def head (b : Byte) (rest : List Byte) : Bool × Nat :=
  if b.toNat < 0x80 then (true, 0)
  else
    match lead b, rest with
    | some (more, low, high), c :: rest =>
      if low ≤ c.toNat ∧ c.toNat ≤ high then
        let k := tails (more - 1) rest
        (k + 1 == more, k + 1)
      else (false, 0)
    | _, _ => (false, 0)

def pieces : Nat → List Byte → List (Bool × List Byte)
  | fuel + 1, b :: rest =>
    ((head b rest).1, b :: rest.take (head b rest).2) ::
      pieces fuel (rest.drop (head b rest).2)
  | _, _ => []

/-- The characters, and the runs that belong to none. -/
def decode (bs : List Byte) : List (Bool × List Byte) := pieces bs.length bs

def Valid (bs : List Byte) : Prop := ∀ p ∈ decode bs, p.1 = true

instance (bs : List Byte) : Decidable (Valid bs) := inferInstanceAs (Decidable (∀ _ ∈ _, _))

def replacement : List Byte := [0xEF, 0xBF, 0xBD]

/-- Every run that belongs to no character becomes one replacement character. -/
def lossy (bs : List Byte) : List Byte :=
  (decode bs).flatMap fun p => if p.1 then p.2 else replacement

def chars (bs : List Byte) : List (List Byte) := (decode bs).map Prod.snd

/-- The bytes of one character. -/
def IsChar (c : List Byte) : Prop := ∃ b rest, c = b :: rest ∧ head b rest = (true, rest.length)

example : decode [0x41, 0xC3, 0xA9, 0xC3, 0xE2, 0x82] =
    [(true, [0x41]), (true, [0xC3, 0xA9]), (false, [0xC3]), (false, [0xE2, 0x82])] := by decide

theorem tails_le (n : Nat) (bs : List Byte) : tails n bs ≤ bs.length :=
  Nat.le_trans (List.takeWhile_prefix isTail).length_le (List.length_take_le' n bs)

theorem tails_append {n : Nat} {bs : List Byte} (h : tails n bs = n) (behind : List Byte) :
    tails n (bs.take n ++ behind) = n := by
  have hlen : (bs.take n).length = n := by
    have hle := (List.takeWhile_prefix (l := bs.take n) isTail).length_le
    have htake := List.length_take_le n bs
    rw [tails] at h
    omega
  rw [tails, List.take_left' hlen]
  exact h

theorem head_le (b : Byte) (rest : List Byte) : (head b rest).2 ≤ rest.length := by
  by_cases hb : b.toNat < 0x80
  · simp [head, hb]
  · simp only [head, if_neg hb]
    cases lead b with
    | none => exact Nat.zero_le _
    | some l =>
      obtain ⟨more, low, high⟩ := l
      cases rest with
      | nil => exact Nat.zero_le _
      | cons c rest =>
        have hk := tails_le (more - 1) rest
        by_cases hc : low ≤ c.toNat ∧ c.toNat ≤ high
        · simp only [if_pos hc, List.length_cons]
          omega
        · simp [if_neg hc]

/-- A character is recognised by its own bytes, whatever comes behind them. -/
theorem head_append {b : Byte} {rest : List Byte} {n : Nat} (h : head b rest = (true, n))
    (behind : List Byte) : head b (rest.take n ++ behind) = (true, n) := by
  by_cases hb : b.toNat < 0x80
  · simp only [head, if_pos hb] at h ⊢
    exact h
  · simp only [head, if_neg hb] at h ⊢
    cases hl : lead b with
    | none =>
      simp only [hl] at h
      cases h
    | some l =>
      obtain ⟨more, low, high⟩ := l
      cases rest with
      | nil =>
        simp only [hl] at h
        cases h
      | cons c rest =>
        simp only [hl] at h
        by_cases hc : low ≤ c.toNat ∧ c.toNat ≤ high
        · rw [if_pos hc] at h
          obtain ⟨hmore, hn⟩ := Prod.mk.inj h
          have hk : tails (more - 1) rest = more - 1 := by
            have := beq_iff_eq.mp hmore
            omega
          rw [← hn, List.take_succ_cons, List.cons_append]
          dsimp only
          rw [if_pos hc, hk, tails_append hk, ← hk, hmore]
        · rw [if_neg hc] at h
          cases h

/-- The bytes of the character at the front are those of a character. -/
theorem isChar_of_head {b : Byte} {rest : List Byte} {n : Nat} (h : head b rest = (true, n)) :
    IsChar (b :: rest.take n) := by
  have hle := head_le b rest
  rw [h] at hle
  refine ⟨b, rest.take n, rfl, ?_⟩
  have hown := head_append h []
  rw [List.append_nil] at hown
  rw [hown, List.length_take, Nat.min_eq_left hle]

section Decode

theorem pieces_fuel {fuel fuel' : Nat} {bs : List Byte} (h : bs.length ≤ fuel)
    (h' : bs.length ≤ fuel') : pieces fuel bs = pieces fuel' bs := by
  induction fuel generalizing fuel' bs with
  | zero =>
    obtain rfl := List.eq_nil_of_length_eq_zero (Nat.le_zero.mp h)
    cases fuel' <;> rfl
  | succ fuel ih =>
    cases bs with
    | nil => cases fuel' <;> rfl
    | cons b rest =>
      cases fuel' with
      | zero => exact absurd h' (Nat.not_succ_le_zero _)
      | succ fuel' =>
        rw [List.length_cons] at h h'
        have hdrop : (rest.drop (head b rest).2).length ≤ rest.length := by
          rw [List.length_drop]
          exact Nat.sub_le _ _
        have hsame := ih (Nat.le_trans hdrop (Nat.le_of_succ_le_succ h))
          (Nat.le_trans hdrop (Nat.le_of_succ_le_succ h'))
        rw [pieces, pieces, hsame]

theorem decode_cons (b : Byte) (rest : List Byte) :
    decode (b :: rest) = ((head b rest).1, b :: rest.take (head b rest).2) ::
      decode (rest.drop (head b rest).2) := by
  rw [decode, List.length_cons, pieces, decode,
    pieces_fuel (by rw [List.length_drop]; exact Nat.sub_le _ _) (Nat.le_refl _)]

/-- What decoding does at the front, and then the rest: the way to prove things of all pieces. -/
theorem decode_induction {motive : List Byte → Prop} (nil : motive [])
    (cons : ∀ b rest, motive (rest.drop (head b rest).2) → motive (b :: rest)) :
    ∀ bs, motive bs := by
  intro bs
  induction h : bs.length using Nat.strongRecOn generalizing bs with
  | ind n ih =>
    cases bs with
    | nil => exact nil
    | cons b rest =>
      refine cons b rest (ih _ ?_ _ rfl)
      rw [← h, List.length_drop, List.length_cons]
      omega

theorem flatten_chars (bs : List Byte) : (chars bs).flatten = bs := by
  induction bs using decode_induction with
  | nil => rfl
  | cons b rest ih =>
    rw [chars, decode_cons, List.map_cons, List.flatten_cons]
    rw [chars] at ih
    rw [ih, List.cons_append, List.take_append_drop]

theorem isChar_of_mem {bs c : List Byte} (h : (true, c) ∈ decode bs) : IsChar c := by
  induction bs using decode_induction with
  | nil => cases h
  | cons b rest ih =>
    rw [decode_cons] at h
    rcases List.mem_cons.mp h with h | h
    · obtain ⟨hvalid, rfl⟩ := Prod.mk.inj h
      exact isChar_of_head (Prod.ext hvalid.symm rfl)
    · exact ih h

theorem decode_char {c : List Byte} (hc : IsChar c) (bs : List Byte) :
    decode (c ++ bs) = (true, c) :: decode bs := by
  obtain ⟨b, rest, rfl, hhead⟩ := hc
  have hfront := head_append hhead bs
  rw [List.take_length] at hfront
  rw [List.cons_append, decode_cons, hfront, List.take_left, List.drop_left]

theorem decode_flatten {cs : List (List Byte)} (h : ∀ c ∈ cs, IsChar c) :
    decode cs.flatten = cs.map fun c => (true, c) := by
  induction cs with
  | nil => rfl
  | cons c cs ih =>
    rw [List.flatten_cons, decode_char (h c List.mem_cons_self),
      ih fun x hx => h x (List.mem_cons_of_mem _ hx), List.map_cons]

theorem valid_flatten {cs : List (List Byte)} (h : ∀ c ∈ cs, IsChar c) : Valid cs.flatten := by
  intro p hp
  rw [decode_flatten h] at hp
  obtain ⟨c, _, rfl⟩ := List.mem_map.mp hp
  rfl

theorem chars_flatten {cs : List (List Byte)} (h : ∀ c ∈ cs, IsChar c) : chars cs.flatten = cs := by
  rw [chars, decode_flatten h, List.map_map]
  exact List.map_id cs

theorem Valid.isChar {bs : List Byte} (h : Valid bs) : ∀ c ∈ chars bs, IsChar c := by
  intro c hc
  obtain ⟨⟨valid, c⟩, hp, rfl⟩ := List.mem_map.mp hc
  obtain rfl : valid = true := h _ hp
  exact isChar_of_mem hp

theorem valid_nil : Valid [] := by
  intro p hp
  cases hp

theorem Valid.append {bs bs' : List Byte} (h : Valid bs) (h' : Valid bs') : Valid (bs ++ bs') := by
  rw [← flatten_chars bs, ← flatten_chars bs', ← List.flatten_append]
  refine valid_flatten fun c hc => ?_
  rcases List.mem_append.mp hc with hc | hc
  · exact h.isChar c hc
  · exact h'.isChar c hc

theorem isChar_replacement : IsChar replacement := ⟨0xEF, [0xBF, 0xBD], rfl, by decide⟩

theorem valid_lossy (bs : List Byte) : Valid (lossy bs) := by
  rw [lossy, List.flatMap_def]
  refine valid_flatten fun c hc => ?_
  obtain ⟨⟨valid, c⟩, hp, rfl⟩ := List.mem_map.mp hc
  cases valid with
  | false => exact isChar_replacement
  | true => exact isChar_of_mem hp

/-- Nothing is replaced in what is valid, and only there. -/
theorem lossy_eq_iff (bs : List Byte) : lossy bs = bs ↔ Valid bs := by
  constructor
  · intro h
    rw [← h]
    exact valid_lossy bs
  · intro h
    have hmap : (decode bs).map (fun p => if p.1 then p.2 else replacement) = chars bs :=
      List.map_congr_left fun p hp => if_pos (h p hp)
    rw [lossy, List.flatMap_def, hmap, flatten_chars]

end Decode

theorem lead_low {b : Byte} {more low high : Nat} (h : lead b = some (more, low, high)) :
    0x80 ≤ low := by
  simp only [lead] at h
  split_ifs at h <;> cases h <;> decide

theorem tails_all {n : Nat} {bs : List Byte} (h : tails n bs = bs.length) :
    ∀ b ∈ bs, isTail b = true := by
  have hpre := (List.takeWhile_prefix (l := bs.take n) isTail).trans (List.take_prefix n bs)
  have heq := hpre.eq_of_length h
  have htake : bs.take n = bs := by
    have hle := (List.takeWhile_prefix (l := bs.take n) isTail).length_le
    rw [heq, List.length_take] at hle
    exact List.take_of_length_le (by omega)
  rw [htake] at heq
  exact List.takeWhile_eq_self_iff.mp heq

/-- A character is one byte below 0x80, or several bytes from there on. -/
theorem IsChar.ascii_or {c : List Byte} (h : IsChar c) :
    (∃ b, c = [b] ∧ b.toNat < 0x80) ∨ 1 < c.length ∧ ∀ b ∈ c, 0x80 ≤ b.toNat := by
  obtain ⟨b, rest, rfl, hhead⟩ := h
  by_cases hb : b.toNat < 0x80
  · simp only [head, if_pos hb] at hhead
    have hlen := (Prod.mk.inj hhead).2
    exact Or.inl ⟨b, by rw [List.eq_nil_of_length_eq_zero hlen.symm], hb⟩
  · right
    simp only [head, if_neg hb] at hhead
    cases hl : lead b with
    | none =>
      simp only [hl] at hhead
      cases hhead
    | some l =>
      obtain ⟨more, low, high⟩ := l
      cases rest with
      | nil =>
        simp only [hl] at hhead
        cases hhead
      | cons d rest =>
        simp only [hl] at hhead
        by_cases hd : low ≤ d.toNat ∧ d.toNat ≤ high
        · rw [if_pos hd] at hhead
          have htails := tails_all (Nat.succ.inj (Prod.mk.inj hhead).2)
          have hlow := lead_low hl
          refine ⟨by simp, fun x hx => ?_⟩
          rcases List.mem_cons.mp hx with rfl | hx
          · exact Nat.le_of_not_lt hb
          · rcases List.mem_cons.mp hx with rfl | hx
            · exact Nat.le_trans hlow hd.1
            · have htail := htails x hx
              simp only [isTail, Bool.and_eq_true, decide_eq_true_eq] at htail
              exact htail.1
        · rw [if_neg hd] at hhead
          cases hhead

/-- `to_ascii_uppercase` -/
def asciiUpper (b : Byte) : Byte := if 0x61 ≤ b.toNat ∧ b.toNat ≤ 0x7A then b - 0x20 else b

theorem asciiUpper_high {b : Byte} (h : 0x80 ≤ b.toNat) : asciiUpper b = b :=
  if_neg (by omega)

theorem asciiUpper_low {b : Byte} (h : b.toNat < 0x80) : (asciiUpper b).toNat < 0x80 := by
  by_cases hb : 0x61 ≤ b.toNat ∧ b.toNat ≤ 0x7A
  · rw [asciiUpper, if_pos hb, BitVec.toNat_sub]
    have h20 : (0x20 : Byte).toNat = 0x20 := rfl
    omega
  · rw [asciiUpper, if_neg hb]
    exact h

theorem map_asciiUpper {c : List Byte} (h : ∀ b ∈ c, 0x80 ≤ b.toNat) : c.map asciiUpper = c := by
  rw [List.map_congr_left fun b hb => asciiUpper_high (h b hb), List.map_id']

theorem isChar_ascii {b : Byte} (h : b.toNat < 0x80) : IsChar [b] :=
  ⟨b, [], rfl, by simp [head, h]⟩

theorem IsChar.valid {c : List Byte} (h : IsChar c) : Valid c := by
  have hone := valid_flatten (List.forall_mem_singleton.mpr h)
  rwa [List.flatten_cons, List.flatten_nil, List.append_nil] at hone

theorem IsChar.ne_nil {c : List Byte} (h : IsChar c) : c ≠ [] := by
  obtain ⟨b, rest, rfl, _⟩ := h
  exact List.cons_ne_nil b rest

theorem IsChar.asciiUpper {c : List Byte} (h : IsChar c) : IsChar (c.map asciiUpper) := by
  obtain ⟨b, rfl, hb⟩ | ⟨_, hhigh⟩ := h.ascii_or
  · exact isChar_ascii (asciiUpper_low hb)
  · rw [map_asciiUpper hhigh]
    exact h

theorem chars_asciiUpper {bs : List Byte} (h : Valid bs) :
    chars (bs.map asciiUpper) = (chars bs).map fun c => c.map asciiUpper := by
  have hchars : ∀ c ∈ (chars bs).map fun c => c.map Utf8.asciiUpper, IsChar c := by
    intro c hc
    obtain ⟨c', hc', rfl⟩ := List.mem_map.mp hc
    exact (h.isChar c' hc').asciiUpper
  rw [← chars_flatten hchars, ← List.map_flatten, flatten_chars]

theorem length_le_flatMap {α β : Type} {f : α → List β} {xs : List α}
    (hf : ∀ x ∈ xs, f x ≠ []) : xs.length ≤ (xs.flatMap f).length := by
  induction xs with
  | nil => simp
  | cons x xs ih =>
    have hxs := ih fun y hy => hf y (List.mem_cons_of_mem _ hy)
    have hx := List.length_pos_iff.mpr (hf x List.mem_cons_self)
    rw [List.flatMap_cons, List.length_append, List.length_cons]
    omega

/-- Blocks that are not empty come to one element each only if they are one element each. -/
theorem flatMap_eq_map_iff {α β : Type} {f : α → List β} {g : α → β} {xs : List α}
    (hf : ∀ x ∈ xs, f x ≠ []) : xs.flatMap f = xs.map g ↔ ∀ x ∈ xs, f x = [g x] := by
  induction xs with
  | nil => simp
  | cons x xs ih =>
    have hxs := ih fun y hy => hf y (List.mem_cons_of_mem _ hy)
    obtain ⟨y, ys, hx⟩ := List.exists_cons_of_ne_nil (hf x List.mem_cons_self)
    simp only [List.flatMap_cons, List.map_cons, List.forall_mem_cons, hx, List.cons_append,
      List.cons.injEq, ← hxs]
    constructor
    · rintro ⟨hy, hrest⟩
      have hlen := congrArg List.length hrest
      have hge := length_le_flatMap fun y hy => hf y (List.mem_cons_of_mem _ hy)
      rw [List.length_append, List.length_map] at hlen
      have hys : ys = [] := List.eq_nil_of_length_eq_zero (by omega)
      rw [hys, List.nil_append] at hrest
      exact ⟨⟨hy, hys⟩, hrest⟩
    · rintro ⟨⟨hy, hys⟩, hrest⟩
      exact ⟨hy, by rw [hys, hrest, List.nil_append]⟩

theorem chars_flatMap {cs : List (List Byte)} {f : List Byte → List Byte}
    (h : ∀ c ∈ cs, Valid (f c)) : chars (cs.flatMap f) = cs.flatMap fun c => chars (f c) := by
  have hchars : ∀ c ∈ cs.flatMap fun c => chars (f c), IsChar c := by
    intro c hc
    obtain ⟨c', hc', hmem⟩ := List.mem_flatMap.mp hc
    exact (h c' hc').isChar c hmem
  have hflat : (cs.flatMap fun c => chars (f c)).flatten = cs.flatMap f := by
    rw [List.flatMap_def, List.flatten_flatten, List.map_map, List.flatMap_def]
    exact congrArg List.flatten (List.map_congr_left fun c _ => flatten_chars (f c))
  rw [← hflat, chars_flatten hchars]

theorem chars_ne_nil {bs : List Byte} (h : bs ≠ []) : chars bs ≠ [] := by
  intro hnil
  have hflat := flatten_chars bs
  rw [hnil, List.flatten_nil] at hflat
  exact h hflat.symm

theorem chars_isChar {c : List Byte} (h : IsChar c) : chars c = [c] := by
  have hone := chars_flatten (List.forall_mem_singleton.mpr h)
  rwa [List.flatten_cons, List.flatten_nil, List.append_nil] at hone

/-- The uppercase of each character, as a table outside of this library has it: any text, but the
ASCII one for an ASCII character. -/
structure CaseMap where
  upper : List Byte → List Byte
  valid : ∀ c, IsChar c → Valid (upper c)
  ne_nil : ∀ c, IsChar c → upper c ≠ []
  ascii : ∀ b : Byte, b.toNat < 0x80 → upper [b] = [asciiUpper b]

def CaseMap.toUppercase (t : CaseMap) (bs : List Byte) : List Byte := (chars bs).flatMap t.upper

/-- No character of several bytes has another uppercase. -/
def CaseMap.Caseless (t : CaseMap) (bs : List Byte) : Prop :=
  ∀ c ∈ chars bs, 1 < c.length → t.upper c = c

namespace CaseMap

variable (t : CaseMap)

instance (bs : List Byte) : Decidable (t.Caseless bs) :=
  inferInstanceAs (Decidable (∀ c ∈ chars bs, 1 < c.length → t.upper c = c))

theorem valid_toUppercase {bs : List Byte} (h : Valid bs) : Valid (t.toUppercase bs) := by
  have hvalid : ∀ c ∈ chars bs, Valid (t.upper c) := fun c hc => t.valid c (h.isChar c hc)
  rw [toUppercase, ← flatten_chars ((chars bs).flatMap t.upper), chars_flatMap hvalid]
  refine valid_flatten fun c hc => ?_
  obtain ⟨c', hc', hmem⟩ := List.mem_flatMap.mp hc
  exact (hvalid c' hc').isChar c hmem

theorem chars_upper_iff {c : List Byte} (h : IsChar c) :
    chars (t.upper c) = [c.map asciiUpper] ↔ (1 < c.length → t.upper c = c) := by
  obtain ⟨b, rfl, hb⟩ | ⟨hlen, hhigh⟩ := h.ascii_or
  · rw [t.ascii b hb, chars_isChar (isChar_ascii (asciiUpper_low hb))]
    simp
  · rw [map_asciiUpper hhigh]
    constructor
    · intro hchars _
      rw [← flatten_chars (t.upper c), hchars, List.flatten_cons, List.flatten_nil, List.append_nil]
    · intro hsame
      rw [hsame hlen, chars_isChar h]

/-- Mapping the ASCII bytes alone gives the uppercase text only where nothing else has case. -/
theorem toUppercase_eq_iff {bs : List Byte} (h : Valid bs) :
    t.toUppercase bs = bs.map asciiUpper ↔ t.Caseless bs := by
  have hvalid : ∀ c ∈ chars bs, Valid (t.upper c) := fun c hc => t.valid c (h.isChar c hc)
  have hne : ∀ c ∈ chars bs, chars (t.upper c) ≠ [] :=
    fun c hc => chars_ne_nil (t.ne_nil c (h.isChar c hc))
  have hchars : t.toUppercase bs = bs.map asciiUpper ↔
      chars (t.toUppercase bs) = chars (bs.map asciiUpper) := by
    constructor
    · exact fun heq => congrArg chars heq
    · intro heq
      rw [← flatten_chars (t.toUppercase bs), heq, flatten_chars]
  rw [hchars, toUppercase, chars_flatMap hvalid, chars_asciiUpper h, flatMap_eq_map_iff hne]
  constructor
  · exact fun hall c hc => (t.chars_upper_iff (h.isChar c hc)).mp (hall c hc)
  · exact fun hall c hc => (t.chars_upper_iff (h.isChar c hc)).mpr (hall c hc)

end CaseMap

end Utf8
