import BetLang.Llvm
import Mathlib.Algebra.GroupWithZero.Nat
import Mathlib.Data.List.Forall2

/-! The natural layout of LLVM types: scalars and vectors at a power of two that covers them,
aggregates field after field. -/

namespace Llvm

def alignUp (n a : Nat) : Nat := (n + a - 1) / a * a

theorem le_alignUp {n a : Nat} (ha : 0 < a) : n ≤ alignUp n a := by
  have h := Nat.lt_div_mul_add ha (a := n + a - 1)
  unfold alignUp
  omega

theorem dvd_alignUp (n a : Nat) : a ∣ alignUp n a := Nat.dvd_mul_left ..

theorem alignUp_le_of_dvd {n a b : Nat} (hab : a ∣ b) (hb : n ≤ b) : alignUp n a ≤ b := by
  obtain ⟨k, rfl⟩ := hab
  rcases Nat.eq_zero_or_pos a with rfl | ha
  · simp [alignUp]
  · have hk : (n + a - 1) / a ≤ k := by
      rw [Nat.div_le_iff_le_mul ha]
      rw [Nat.mul_comm] at hb
      omega
    calc alignUp n a ≤ k * a := Nat.mul_le_mul_right a hk
      _ = a * k := Nat.mul_comm k a

theorem alignUp_of_dvd {n a : Nat} (ha : 0 < a) (h : a ∣ n) : alignUp n a = n :=
  Nat.le_antisymm (alignUp_le_of_dvd h (Nat.le_refl n)) (le_alignUp ha)

/-- The least power of two that is not below `n`. -/
def pow2Ceil (n : Nat) : Nat :=
  if n ≤ 1 then 1 else 2 ^ ((n - 1).log2 + 1)

theorem pow2Ceil_pos (n : Nat) : 0 < pow2Ceil n := by
  unfold pow2Ceil
  split
  · exact Nat.one_pos
  · exact Nat.two_pow_pos _

theorem le_pow2Ceil (n : Nat) : n ≤ pow2Ceil n := by
  unfold pow2Ceil
  split
  · assumption
  · have h := Nat.lt_log2_self (n := n - 1)
    omega

theorem pow2Ceil_le {n k : Nat} (h : n ≤ 2 ^ k) : pow2Ceil n ≤ 2 ^ k := by
  unfold pow2Ceil
  split
  · exact Nat.two_pow_pos k
  · have hn : n - 1 ≠ 0 := by omega
    have hlog : (n - 1).log2 < k := (Nat.log2_lt hn).mpr (by omega)
    exact Nat.pow_le_pow_right (by decide) hlog

theorem pow2Ceil_two_pow (k : Nat) : pow2Ceil (2 ^ k) = 2 ^ k :=
  Nat.le_antisymm (pow2Ceil_le (Nat.le_refl _)) (le_pow2Ceil _)

theorem pow2Ceil_dvd_eight : ∀ n ≤ 8, pow2Ceil n ∣ 8 := by decide

def bytesOfBits (bits : Nat) : Nat := (bits + 7) / 8

/-- The bits of a vector's element. -/
def Ty.scalarBits : Ty → Nat
  | .int bits => bits
  | .float => 32
  | .double | .ptr => 64
  | _ => 0

mutual

def Ty.align : Ty → Nat
  | .int bits => pow2Ceil (bytesOfBits bits)
  | .float => 4
  | .double => 8
  | .ptr => 8
  | .struct fields => maxAlign fields
  | .array elem _ => elem.align
  | .vector elem n => pow2Ceil (bytesOfBits (n * elem.scalarBits))

def maxAlign : List Ty → Nat
  | [] => 1
  | t :: ts => max t.align (maxAlign ts)

end

mutual

/-- The bytes between consecutive elements of an array of the type. -/
def Ty.size : Ty → Nat
  | .int bits => pow2Ceil (bytesOfBits bits)
  | .float => 4
  | .double => 8
  | .ptr => 8
  | .struct fields => alignUp (endOffset fields 0) (maxAlign fields)
  | .array elem n => n * elem.size
  | .vector elem n =>
    let bytes := bytesOfBits (n * elem.scalarBits)
    alignUp bytes (pow2Ceil bytes)

/-- Where the fields end when the first may start at `off`. -/
def endOffset : List Ty → Nat → Nat
  | [], off => off
  | t :: ts, off => endOffset ts (alignUp off t.align + t.size)

end

/-- The bytes that a store of the type writes: no padding behind an integer or a vector. -/
def Ty.storeSize : Ty → Nat
  | .int bits => bytesOfBits bits
  | .vector elem n => bytesOfBits (n * elem.scalarBits)
  | ty => ty.size

def fieldOffset : List Ty → Nat → Nat → Nat
  | [], _, off => off
  | t :: _, 0, off => alignUp off t.align
  | t :: ts, i + 1, off => fieldOffset ts i (alignUp off t.align + t.size)

def naturalLayout : DataLayout :=
  { allocSize := Ty.size, fieldOffset := fun fields i => fieldOffset fields i 0 }

mutual

theorem align_pos : ∀ ty : Ty, 0 < ty.align
  | .int bits => by
    rw [Ty.align]
    exact pow2Ceil_pos _
  | .float => by decide
  | .double => by decide
  | .ptr => by decide
  | .struct fields => by
    rw [Ty.align]
    exact maxAlign_pos fields
  | .array elem _ => by
    rw [Ty.align]
    exact align_pos elem
  | .vector elem n => by
    rw [Ty.align]
    exact pow2Ceil_pos _

theorem maxAlign_pos : ∀ tys : List Ty, 0 < maxAlign tys
  | [] => by
    rw [maxAlign]
    exact Nat.one_pos
  | t :: ts => by
    rw [maxAlign]
    exact Nat.lt_of_lt_of_le (maxAlign_pos ts) (Nat.le_max_right ..)

end

theorem align_le_maxAlign {t : Ty} {tys : List Ty} (h : t ∈ tys) : t.align ≤ maxAlign tys := by
  induction tys with
  | nil => cases h
  | cons u us ih =>
    rw [maxAlign]
    rcases List.mem_cons.mp h with rfl | h
    · exact Nat.le_max_left ..
    · exact Nat.le_trans (ih h) (Nat.le_max_right ..)

theorem maxAlign_dvd {b : Nat} {tys : List Ty} (h : ∀ t ∈ tys, t.align ∣ b) :
    maxAlign tys ∣ b := by
  induction tys with
  | nil =>
    rw [maxAlign]
    exact Nat.one_dvd b
  | cons u us ih =>
    have hu := h u (by simp)
    have hus := ih fun t ht => h t (by simp [ht])
    rw [maxAlign, Nat.max_def]
    split
    · exact hus
    · exact hu

theorem le_endOffset (tys : List Ty) (off : Nat) :
    off + (tys.map Ty.size).sum ≤ endOffset tys off := by
  induction tys generalizing off with
  | nil => simp [endOffset]
  | cons t ts ih =>
    have hoff := le_alignUp (n := off) (align_pos t)
    have htail := ih (alignUp off t.align + t.size)
    rw [endOffset, List.map_cons, List.sum_cons]
    omega

theorem sum_le_struct_size (tys : List Ty) : (tys.map Ty.size).sum ≤ (Ty.struct tys).size := by
  have hend := le_endOffset tys 0
  have hup := le_alignUp (n := endOffset tys 0) (maxAlign_pos tys)
  rw [Ty.size]
  omega

/-- Fields that fit into words of `b` bytes each, and need no more than that alignment, end within
the sum of their words. -/
theorem endOffset_le {b : Nat} {tys : List Ty} {words : List Nat} {off start : Nat}
    (h : List.Forall₂ (fun t w => t.size ≤ b * w ∧ t.align ∣ b) tys words)
    (hoff : off ≤ b * start) : endOffset tys off ≤ b * (start + words.sum) := by
  induction h generalizing off start with
  | nil => simpa [endOffset] using hoff
  | @cons t w tys words ht _ ih =>
    rw [endOffset, List.sum_cons, ← Nat.add_assoc]
    refine ih ?_
    have hstart := alignUp_le_of_dvd (Nat.dvd_mul_right_of_dvd ht.2 start) hoff
    rw [Nat.mul_add]
    exact Nat.add_le_add hstart ht.1

/-- A struct of such fields is no larger than the words of all of them, with room for its own
alignment. -/
theorem struct_size_le {b : Nat} {tys : List Ty} {words : List Nat}
    (h : List.Forall₂ (fun t w => t.size ≤ b * w ∧ t.align ∣ b) tys words) :
    (Ty.struct tys).size ≤ b * words.sum ∧ (Ty.struct tys).align ∣ b := by
  have halign : maxAlign tys ∣ b := by
    refine maxAlign_dvd fun t ht => ?_
    obtain ⟨i, hi, rfl⟩ := List.mem_iff_getElem.mp ht
    exact (h.get hi (h.length_eq ▸ hi)).2
  have hend := endOffset_le h (Nat.zero_le (b * 0))
  rw [Nat.zero_add] at hend
  rw [Ty.size, Ty.align]
  exact ⟨alignUp_le_of_dvd (Nat.dvd_mul_right_of_dvd halign _) hend, halign⟩

theorem storeSize_le_size (t : Ty) : t.storeSize ≤ t.size := by
  cases t with
  | int bits =>
    rw [Ty.size]
    exact le_pow2Ceil _
  | vector elem n =>
    rw [Ty.size]
    exact le_alignUp (pow2Ceil_pos _)
  | _ => exact Nat.le_refl _

theorem align_dvd_size : ∀ t : Ty, t.align ∣ t.size
  | .int _ => by simp only [Ty.align, Ty.size, Nat.dvd_refl]
  | .float => by decide
  | .double => by decide
  | .ptr => by decide
  | .struct fields => by
    rw [Ty.align, Ty.size]
    exact dvd_alignUp ..
  | .array elem n => by
    rw [Ty.align, Ty.size]
    exact Nat.dvd_mul_left_of_dvd (align_dvd_size elem) n
  | .vector elem n => by
    rw [Ty.align, Ty.size]
    exact dvd_alignUp ..

/-- A type that is stored in a power of two of bytes has no padding behind it. -/
theorem size_of_storeSize {t : Ty} {k : Nat} (h : t.storeSize = 2 ^ k) : t.size = 2 ^ k := by
  cases t with
  | int bits =>
    rw [Ty.storeSize] at h
    rw [Ty.size, h, pow2Ceil_two_pow]
  | vector elem n =>
    rw [Ty.storeSize] at h
    rw [Ty.size, h, pow2Ceil_two_pow, alignUp_of_dvd (Nat.two_pow_pos k) (Nat.dvd_refl _)]
  | _ => exact h

theorem le_fieldOffset (tys : List Ty) (i off : Nat) : off ≤ fieldOffset tys i off := by
  induction tys generalizing i off with
  | nil => exact Nat.le_refl off
  | cons t ts ih =>
    have hoff := le_alignUp (n := off) (align_pos t)
    cases i with
    | zero => exact hoff
    | succ i => exact Nat.le_trans (Nat.le_trans hoff (Nat.le_add_right ..)) (ih i _)

/-- A field ends before the next ones begin. -/
theorem fieldOffset_add_size_le {tys : List Ty} {i j : Nat} {t : Ty} (hi : tys[i]? = some t)
    (hij : i < j) (off : Nat) : fieldOffset tys i off + t.size ≤ fieldOffset tys j off := by
  induction tys generalizing i j off with
  | nil => cases hi
  | cons u us ih =>
    cases j with
    | zero => exact absurd hij (Nat.not_lt_zero i)
    | succ j =>
      cases i with
      | zero =>
        cases hi
        exact le_fieldOffset us j _
      | succ i => exact ih hi (Nat.lt_of_succ_lt_succ hij) _

theorem fieldOffset_add_size_le_end {tys : List Ty} {i : Nat} {t : Ty} (hi : tys[i]? = some t)
    (off : Nat) : fieldOffset tys i off + t.size ≤ endOffset tys off := by
  induction tys generalizing i off with
  | nil => cases hi
  | cons u us ih =>
    rw [endOffset]
    cases i with
    | zero =>
      cases hi
      exact Nat.le_trans (Nat.le_add_right ..) (le_endOffset us _)
    | succ i => exact ih hi _

/-- A field lies inside the struct. -/
theorem fieldOffset_add_size_le_struct {tys : List Ty} {i : Nat} {t : Ty} (hi : tys[i]? = some t) :
    fieldOffset tys i 0 + t.size ≤ (Ty.struct tys).size := by
  rw [Ty.size]
  exact Nat.le_trans (fieldOffset_add_size_le_end hi 0) (le_alignUp (maxAlign_pos tys))

end Llvm
