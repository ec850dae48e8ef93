import Mathlib.Tactic.Common
import Mathlib.Algebra.Group.Nat.Defs

/-! Numbers as little-endian bytes, and what stands at a place of a longer run of bytes. -/

namespace LittleEndian

abbrev Byte := BitVec 8

/-- The low `width` bytes of a number, lowest first. -/
def encode : Nat → Nat → List Byte
  | 0, _ => []
  | width + 1, v => BitVec.ofNat 8 v :: encode width (v / 256)

def decode : List Byte → Nat
  | [] => 0
  | b :: bs => b.toNat + 256 * decode bs

@[simp] theorem length_encode (width v : Nat) : (encode width v).length = width := by
  induction width generalizing v with
  | zero => rfl
  | succ width ih => simp [encode, ih]

theorem decode_encode (width v : Nat) : decode (encode width v) = v % 256 ^ width := by
  induction width generalizing v with
  | zero => simp [encode, decode, Nat.mod_one]
  | succ width ih =>
    have hlow : (BitVec.ofNat 8 v).toNat = v % 256 := by simp
    have hsplit : v % 256 ^ (width + 1) = v % 256 + 256 * (v / 256 % 256 ^ width) := by
      rw [Nat.pow_succ, Nat.mul_comm, Nat.mod_mul]
    rw [encode, decode, ih, hlow, hsplit]

theorem encode_decode (bs : List Byte) : encode bs.length (decode bs) = bs := by
  induction bs with
  | nil => rfl
  | cons b bs ih =>
    have hlow : BitVec.ofNat 8 (b.toNat + 256 * decode bs) = b := by
      apply BitVec.eq_of_toNat_eq
      rw [BitVec.toNat_ofNat, Nat.add_mul_mod_self_left, Nat.mod_eq_of_lt b.isLt]
    have hhigh : (b.toNat + 256 * decode bs) / 256 = decode bs := by
      rw [Nat.add_mul_div_left _ _ (by decide), Nat.div_eq_of_lt b.isLt, Nat.zero_add]
    rw [List.length_cons, decode, encode, hlow, hhigh, ih]

theorem decode_lt (bs : List Byte) : decode bs < 256 ^ bs.length := by
  induction bs with
  | nil => simp [decode]
  | cons b bs ih =>
    have hb : b.toNat < 256 := b.isLt
    have hpow : 256 ^ (b :: bs).length = 256 * 256 ^ bs.length := by
      rw [List.length_cons, Nat.pow_succ, Nat.mul_comm]
    rw [decode, hpow]
    omega

section Places

variable {α : Type} {bs front part rest : List α} {k : Nat}

/-- `part` stands at place `k`. -/
def At (bs : List α) (k : Nat) (part : List α) : Prop :=
  ∃ front back, bs = front ++ (part ++ back) ∧ front.length = k

theorem at_append : At bs k (part ++ rest) ↔ At bs k part ∧ At bs (k + part.length) rest := by
  constructor
  · rintro ⟨front, back, rfl, rfl⟩
    exact ⟨⟨front, rest ++ back, by simp, rfl⟩, ⟨front ++ part, back, by simp, by simp⟩⟩
  · rintro ⟨⟨front, back, rfl, rfl⟩, ⟨front', back', hbs, hlen⟩⟩
    have hfront : (front ++ part).length = front'.length := by simp [hlen]
    have hsplit : (front ++ part) ++ back = front' ++ (rest ++ back') := by simpa using hbs
    obtain ⟨-, hback⟩ := List.append_inj hsplit hfront
    exact ⟨front, back', by simp [hback], rfl⟩

theorem at_front (h : At rest k part) : At (front ++ rest) (front.length + k) part := by
  obtain ⟨before, back, rfl, rfl⟩ := h
  exact ⟨front ++ before, back, by simp, by simp⟩

theorem at_zero (part rest : List α) : At (part ++ rest) 0 part := ⟨[], rest, rfl, rfl⟩

theorem At.mono (h : At front k part) (rest : List α) : At (front ++ rest) k part := by
  obtain ⟨before, back, rfl, rfl⟩ := h
  exact ⟨before, back ++ rest, by simp, rfl⟩

theorem At.take (h : At bs k part) : (bs.drop k).take part.length = part := by
  obtain ⟨before, back, rfl, rfl⟩ := h
  simp

theorem At.length_le (h : At bs k part) : k + part.length ≤ bs.length := by
  obtain ⟨before, back, rfl, rfl⟩ := h
  simp [← Nat.add_assoc]

theorem at_take {n : Nat} (h : k + n ≤ bs.length) : At bs k ((bs.drop k).take n) :=
  ⟨bs.take k, bs.drop (k + n), by rw [← List.drop_drop, List.take_append_drop, List.take_append_drop],
    by rw [List.length_take]; omega⟩

theorem at_nil : At bs k [] ↔ k ≤ bs.length :=
  ⟨fun h => h.length_le, fun h => by simpa using at_take (n := 0) h⟩

theorem at_singleton {b : α} : At bs k [b] ↔ bs[k]? = some b := by
  constructor
  · rintro ⟨front, back, rfl, rfl⟩
    simp
  · intro h
    obtain ⟨hk, rfl⟩ := List.getElem?_eq_some_iff.mp h
    have htake : (bs.drop k).take 1 = [bs[k]] := by
      rw [List.drop_eq_getElem_cons hk]
      rfl
    exact htake ▸ at_take (n := 1) hk

theorem at_cons {b : α} : At bs k (b :: part) ↔ bs[k]? = some b ∧ At bs (k + 1) part := by
  rw [← List.singleton_append, at_append, at_singleton]
  rfl

/-- A piece of a concatenation stands behind the pieces before it. -/
theorem at_flatMap {β : Type} (f : β → List α) (l : List β) {i : Nat} (hi : i < l.length) :
    At (l.flatMap f) ((l.take i).flatMap f).length (f l[i]) := by
  have hsplit : l = l.take i ++ l[i] :: l.drop (i + 1) := by
    rw [← List.drop_eq_getElem_cons hi, List.take_append_drop]
  refine ⟨(l.take i).flatMap f, (l.drop (i + 1)).flatMap f, ?_, rfl⟩
  rw [← List.flatMap_cons, ← List.flatMap_append, ← hsplit]

end Places

end LittleEndian
