import BetLang.Sequencing
import BetLang.StashKey
import Mathlib.Data.List.FinRange

/-! Which key types make the two stores of a `stash` agree. -/

namespace BetLang.Stash

open Ir (IntWidth)
open Ieee754 (magnitude isNaN ieeeEq)
open Llvm (alignUp endOffset maxAlign)

theorem llvmFields_eq (ts : List KeyTy) : llvmFields ts = ts.map KeyTy.llvm := by
  induction ts with
  | nil => rfl
  | cons t ts ih => rw [llvmFields, ih, List.map_cons]

theorem mapM_llvm {α : Type} {f : α → Except String KeyTy} {g : α → Except String Llvm.Ty}
    (hfg : ∀ x t, f x = .ok t → g x = .ok t.llvm) {xs : List α} {ts : List KeyTy}
    (h : xs.mapM f = .ok ts) : xs.mapM g = .ok (llvmFields ts) := by
  rw [mapM_ok_iff, llvmFields_eq, List.forall₂_map_right_iff]
  exact (mapM_ok_iff.mp h).imp hfg

/-- A key type is laid out as codegen lays out the IR type it comes from. -/
theorem basicTy_of_keyTyOf {m : Ir.Module} {fuel : Nat} :
    ∀ {ty : Ir.Ty} {t : KeyTy}, keyTyOf m fuel ty = .ok t →
      Codegen.basicTy m fuel ty = .ok t.llvm := by
  induction fuel with
  | zero =>
    intro ty t h
    cases h
  | succ fuel ih =>
    intro ty t h
    unfold keyTyOf at h
    unfold Codegen.basicTy
    cases ty with
    | int width signed =>
      cases width <;> cases signed <;> cases h <;> rfl
    | array elem n =>
      dsimp only at h ⊢
      obtain ⟨e, he, h⟩ := except_bind_ok h
      cases h
      rw [ih he]
      rfl
    | simd elem lanes =>
      dsimp only at h ⊢
      obtain ⟨e, he, h⟩ := except_bind_ok h
      obtain ⟨lane, hlane, h⟩ := except_bind_ok h
      rw [ih he]
      by_cases hl : 2 ≤ lanes ∧ lanes ≤ 4
      · rw [dif_pos hl] at h
        cases h
        have hlanes : lanes - 2 + 2 = lanes := by omega
        cases e <;> cases hlane <;> simp only [KeyTy.llvm, LaneTy.llvm, hlanes] <;> rfl
      · rw [dif_neg hl] at h
        cases h
    | tuple elems =>
      dsimp only at h ⊢
      obtain ⟨ts, hts, h⟩ := except_bind_ok h
      cases h
      rw [mapM_llvm (fun _ _ => ih) hts]
      rfl
    | struct sid =>
      cases hd : m.structs[sid]? with
      | none =>
        simp only [hd] at h
        cases h
      | some d =>
        simp only [hd] at h ⊢
        obtain ⟨ts, hts, h⟩ := except_bind_ok h
        cases h
        rw [mapM_llvm (fun _ _ => ih) hts]
        rfl
    | sum sid =>
      cases hd : m.sums[sid]? with
      | none =>
        simp only [hd] at h
        cases h
      | some d =>
        simp only [hd] at h ⊢
        obtain ⟨words, hw, h⟩ := except_bind_ok h
        unfold Codegen.sumLlvmTy
        rw [hw]
        cases hv : d.variants with
        | nil =>
          rw [hv] at h
          cases words <;> cases h
        | cons v vs =>
          rw [hv] at h
          cases words with
          | zero =>
            cases h
            rfl
          | succ words =>
            dsimp only at h
            obtain ⟨first, _, h⟩ := except_bind_ok h
            obtain ⟨rest, _, h⟩ := except_bind_ok h
            cases h
            rfl
    | soa inner =>
      dsimp only at h ⊢
      obtain ⟨⟨elem, kind⟩, hc, h⟩ := except_bind_ok h
      rw [hc]
      cases elem with
      | struct sid =>
        cases hd : m.structs[sid]? with
        | none =>
          simp only [hd] at h
          cases h
        | some d =>
          simp only [hd] at h
          obtain ⟨ts, hts, h⟩ := except_bind_ok h
          cases h
          simp only [bind, Except.bind, hd]
          cases kind with
          | array n =>
            rw [mapM_llvm ?_ hts]
            · rfl
            · intro f t ht
              obtain ⟨e, he, ht⟩ := except_bind_ok ht
              cases ht
              rw [ih he]
              rfl
          | slice =>
            rw [mapM_llvm ?_ hts]
            · rfl
            · intro f t ht
              cases ht
              rfl
          | vec =>
            rw [mapM_llvm ?_ hts]
            · rfl
            · intro f t ht
              cases ht
              rfl
      | _ => cases h
    | void => cases h
    | _ =>
      cases h
      rfl

theorem leImage_length (n x : Nat) : (leImage n x).length = n := by
  induction n generalizing x with
  | zero => rfl
  | succ n ih => rw [leImage, List.length_cons, ih]

theorem leBits_length {w : Nat} (n : Nat) (v : BitVec w) : (leBits n v).length = n :=
  leImage_length n v.toNat

theorem pad_length (n : Nat) : (pad n).length = n := List.length_replicate

theorem none_notMem_leImage (n x : Nat) : none ∉ leImage n x := by
  induction n generalizing x with
  | zero => simp [leImage]
  | succ n ih => simp [leImage, ih]

/-- The bytes of a number tell it from every other below `256 ^ n`. -/
theorem leImage_inj {n x y : Nat} : leImage n x = leImage n y ↔ x % 256 ^ n = y % 256 ^ n := by
  induction n generalizing x y with
  | zero => simp [leImage, Nat.mod_one]
  | succ n ih =>
    have hbyte : BitVec.ofNat 8 x = BitVec.ofNat 8 y ↔ x % 256 = y % 256 := by
      rw [← BitVec.toNat_inj, BitVec.toNat_ofNat, BitVec.toNat_ofNat]
    rw [leImage, leImage, List.cons.injEq, Option.some.injEq, hbyte, ih, Nat.pow_succ,
      Nat.mul_comm, Nat.mod_mul, Nat.mod_mul (x := y)]
    constructor
    · rintro ⟨hlow, hhigh⟩
      rw [hlow, hhigh]
    · intro h
      have hx := Nat.mod_lt x (by decide : 0 < 256)
      have hy := Nat.mod_lt y (by decide : 0 < 256)
      constructor <;> omega

theorem fit_length (n : Nat) (img : Image) : (fit n img).length = n := by
  rw [fit, List.length_take, List.length_append, pad_length]
  omega

theorem size_intWidth (width : IntWidth) : (Llvm.Ty.int width.bits).size = width.bits / 8 := by
  cases width <;> decide

theorem size_sum (words : Nat) :
    (Llvm.Ty.struct [.int 32, .array (.int 64) (words + 1)]).size = 8 + 8 * (words + 1) := by
  have hword : (Llvm.Ty.int 64).size = 8 := by decide
  have hend : endOffset [.int 32, .array (.int 64) (words + 1)] 0 = 8 + 8 * (words + 1) := by
    have htag : alignUp 0 (Llvm.Ty.int 32).align + (Llvm.Ty.int 32).size = 4 := by decide
    have hstart : alignUp 4 (Llvm.Ty.int 64).align = 8 := by decide
    rw [endOffset, htag, endOffset, endOffset, Llvm.Ty.align, hstart, Llvm.Ty.size, hword,
      Nat.mul_comm]
  have halign : maxAlign [.int 32, .array (.int 64) (words + 1)] = 8 := by
    have hword : (Llvm.Ty.array (.int 64) (words + 1)).align = 8 := by
      rw [Llvm.Ty.align]
      decide
    rw [maxAlign, maxAlign, maxAlign, hword]
    decide
  rw [Llvm.Ty.size, hend, halign]
  exact Llvm.alignUp_of_dvd (by decide) (by omega)

/-- The lanes of a vector stand side by side, with room up to the next power of two. -/
theorem size_simd (lane : LaneTy) (more : Fin 3) :
    (more.val + 2) * (lane.llvm.scalarBits / 8) ≤ (Llvm.Ty.vector lane.llvm (more.val + 2)).size := by
  cases lane with
  | int width signed =>
    revert more signed
    cases width <;> decide
  | f32 =>
    revert more
    decide
  | f64 =>
    revert more
    decide

theorem flatMap_const_length {n k : Nat} {f : Fin n → Image} (h : ∀ i, (f i).length = k) :
    ((List.finRange n).flatMap f).length = n * k := by
  rw [List.length_flatMap, List.map_congr_left fun i _ => h i, List.map_const',
    List.sum_replicate_nat, List.length_finRange]

theorem lane_length (t : LaneTy) (v : t.Val) : (t.image v).length = t.llvm.scalarBits / 8 := by
  cases t with
  | int width signed => exact leBits_length _ _
  | f32 => exact leBits_length _ _
  | f64 => exact leBits_length _ _

mutual

/-- The image of a key takes the bytes of its type. -/
theorem image_length : (t : KeyTy) → (v : t.Val) → (t.image v).length = t.llvm.size
  | .bool, v => leImage_length _ _
  | .u8, .inl v => leImage_length _ _
  | .u8, .inr b => leImage_length _ _
  | .int width _, v =>
    (leBits_length (w := 64) (width.bits / 8) v).trans (size_intWidth width).symm
  | .f32, v => leImage_length _ _
  | .f64, v => leBits_length _ _
  | .str, v => by
    rw [KeyTy.image, fatImage, List.length_append, leImage_length, leImage_length, KeyTy.llvm]
    decide
  | .handle, v => leBits_length _ _
  | .tag, v => by
    simp only [KeyTy.image, tagImage, List.length_append, leImage_length, KeyTy.llvm]
    decide
  | .slice, v => by
    rw [KeyTy.image, fatImage, List.length_append, leImage_length, leImage_length, KeyTy.llvm]
    decide
  | .vec, v => leImage_length _ _
  | .map, v => leImage_length _ _
  | .rng, v => leImage_length _ _
  | .simd lane more, v => by
    have hlanes := flatMap_const_length fun i => lane_length lane (v i)
    have hsize := size_simd lane more
    rw [← hlanes] at hsize
    rw [KeyTy.image, List.length_append, pad_length]
    exact Nat.add_sub_cancel' hsize
  | .array elem n, v => by
    rw [KeyTy.image, flatMap_const_length fun i => image_length elem (v i), KeyTy.llvm,
      Llvm.Ty.size]
  | .struct fields, v => by
    have hlen := imageFields_length fields v 0
    have hle := Llvm.le_alignUp (n := endOffset (llvmFields fields) 0)
      (Llvm.maxAlign_pos (llvmFields fields))
    rw [KeyTy.image, List.length_append, pad_length, KeyTy.llvm, Llvm.Ty.size]
    omega
  | .enum _, v => by
    rw [KeyTy.image, leImage_length, KeyTy.llvm]
    decide
  | .sum first _ words, .inl v => by
    rw [KeyTy.image, List.length_append, List.length_append, leImage_length, pad_length,
      fit_length, KeyTy.llvm, size_sum]
  | .sum _ rest words, .inr v => by
    rw [KeyTy.image, List.length_append, List.length_append, leImage_length, pad_length,
      fit_length, KeyTy.llvm, size_sum]

theorem imageFields_length : (ts : List KeyTy) → (v : Vals ts) → (off : Nat) →
    off + (imageFields ts v off).length = endOffset (llvmFields ts) off
  | [], _, off => by
    rw [imageFields, llvmFields, endOffset]
    rfl
  | t :: ts, v, off => by
    have hhead := image_length t v.1
    have htail := imageFields_length ts v.2 (alignUp off t.llvm.align + t.llvm.size)
    have hle := Llvm.le_alignUp (n := off) (Llvm.align_pos t.llvm)
    simp only [imageFields, llvmFields, endOffset, List.length_append, pad_length]
    omega

end

/-- The interpreter's `i64` is the value of an integer of the type. -/
def IntFits (width : IntWidth) (signed : Bool) (v : BitVec 64) : Prop :=
  (if signed then (v.setWidth width.bits).signExtend 64 else (v.setWidth width.bits).setWidth 64) =
    v

/-- A float that is neither a NaN nor a negative zero. -/
def PlainFloat {w : Nat} (fracBits : Nat) (v : BitVec w) : Prop :=
  isNaN fracBits v = false ∧ (magnitude v = 0 → v = 0)

def LaneTy.Plain : (t : LaneTy) → t.Val → Prop
  | .int width signed, v => IntFits width signed v
  | .f32, v => PlainFloat (w := 32) 23 v
  | .f64, v => PlainFloat (w := 64) 52 v

/-- Fields that leave no gap between them. -/
def tight : List KeyTy → Nat → Bool
  | [], _ => true
  | t :: ts, off => alignUp off t.llvm.align = off && tight ts (off + t.llvm.size)

/-- No padding in a struct of the fields. -/
def packed (fields : List KeyTy) : Bool :=
  tight fields 0 && (KeyTy.struct fields).llvm.size = endOffset (llvmFields fields) 0

mutual

/-- The one form of its value, in which the bytes hold all that the interpreter compares and
nothing else. -/
def KeyTy.Plain : (t : KeyTy) → t.Val → Prop
  | .bool, _ => True
  | .u8, .inl v => IntFits .w8 false v
  | .u8, .inr _ => False
  | .int width signed, v => IntFits width signed v
  | .f32, _ => False
  | .f64, v => PlainFloat (w := 64) 52 v
  | .str, _ => False
  | .handle, _ => True
  | .tag, v => Option.isNone v = true
  | .slice, _ => False
  | .vec, v => Option.isNone v = true
  | .map, v => Option.isNone v = true
  | .rng, v => Option.isNone v = true
  | .simd lane more, v => more ≠ 1 ∧ ∀ i, lane.Plain (v i)
  | .array elem _, v => ∀ i, elem.Plain (v i)
  | .struct fields, v => PlainFields fields v ∧ packed fields = true
  | .enum _, _ => True
  | .sum _ _ _, _ => False

def PlainFields : (ts : List KeyTy) → Vals ts → Prop
  | [], _ => True
  | t :: ts, v => t.Plain v.1 ∧ PlainFields ts v.2

end

theorem intFits_inj {width : IntWidth} {signed : Bool} {v w : BitVec 64}
    (hv : IntFits width signed v) (hw : IntFits width signed w) :
    leBits (width.bits / 8) v = leBits (width.bits / 8) w ↔ v = w := by
  have hpow : 256 ^ (width.bits / 8) = 2 ^ width.bits := by cases width <;> decide
  constructor
  · intro h
    have hmod := leImage_inj.mp h
    rw [hpow] at hmod
    have hset : v.setWidth width.bits = w.setWidth width.bits := by
      rw [← BitVec.toNat_inj, BitVec.toNat_setWidth, BitVec.toNat_setWidth, hmod]
    unfold IntFits at hv hw
    rw [← hv, ← hw, hset]
  · exact fun h => h ▸ rfl

theorem leBits_inj {n : Nat} {v w : BitVec (8 * n)} : leBits n v = leBits n w ↔ v = w := by
  have hpow : 256 ^ n = 2 ^ (8 * n) := by rw [Nat.pow_mul]
  rw [leBits, leBits, leImage_inj, hpow, Nat.mod_eq_of_lt v.isLt, Nat.mod_eq_of_lt w.isLt,
    BitVec.toNat_inj]

theorem ieeeEq_plain {n fracBits : Nat} {v w : BitVec n} (hv : PlainFloat fracBits v)
    (hw : PlainFloat fracBits w) : ieeeEq fracBits v w = true ↔ v = w := by
  simp only [ieeeEq, hv.1, hw.1, Bool.not_false, Bool.true_and, Bool.or_eq_true, beq_iff_eq,
    Bool.and_eq_true]
  constructor
  · rintro (h | ⟨hzero, hzero'⟩)
    · exact h
    · rw [hv.2 hzero, hw.2 hzero']
  · exact Or.inl

theorem sameAs_iff {α : Type} [DecidableEq α] {a b : α} : sameAs a b = true ↔ a = b :=
  decide_eq_true_iff

theorem lane_plain {t : LaneTy} {v w : t.Val} (hv : t.Plain v) (hw : t.Plain w) :
    t.same v w = true ↔ t.image v = t.image w := by
  cases t with
  | int width signed =>
    exact sameAs_iff.trans (intFits_inj hv hw).symm
  | f32 => exact (ieeeEq_plain hv hw).trans (leBits_inj (n := 4)).symm
  | f64 => exact (ieeeEq_plain hv hw).trans (leBits_inj (n := 8)).symm

theorem append_eq_iff {a b c d : Image} (h : a.length = c.length) :
    a ++ b = c ++ d ↔ a = c ∧ b = d :=
  ⟨fun he => List.append_inj he h, fun ⟨hac, hbd⟩ => hac ▸ hbd ▸ rfl⟩

/-- Images of one length after each other. -/
theorem flatMap_finRange_inj {n k : Nat} {f g : Fin n → Image} (hf : ∀ i, (f i).length = k)
    (hg : ∀ i, (g i).length = k) :
    (List.finRange n).flatMap f = (List.finRange n).flatMap g ↔ ∀ i, f i = g i := by
  have hall : ∀ is : List (Fin n), is.flatMap f = is.flatMap g ↔ ∀ i ∈ is, f i = g i := by
    intro is
    induction is with
    | nil => simp
    | cons i is ih =>
      rw [List.flatMap_cons, List.flatMap_cons,
        append_eq_iff ((hf i).trans (hg i).symm), ih]
      simp
  rw [hall]
  simp

mutual

/-- On plain values, equality in the interpreter is equality of the bytes. -/
theorem plain_same : (t : KeyTy) → {v w : t.Val} → t.Plain v → t.Plain w →
    (t.same v w = true ↔ t.image v = t.image w)
  | .bool, v, w, _, _ => by
    cases v <;> cases w <;> decide
  | .u8, .inl v, .inl w, hv, hw => sameAs_iff.trans (intFits_inj hv hw).symm
  | .u8, .inr _, _, hv, _ => hv.elim
  | .u8, .inl _, .inr _, _, hw => hw.elim
  | .int _ _, _, _, hv, hw => sameAs_iff.trans (intFits_inj hv hw).symm
  | .f32, _, _, hv, _ => hv.elim
  | .f64, _, _, hv, hw => (ieeeEq_plain hv hw).trans (leBits_inj (n := 8)).symm
  | .str, _, _, hv, _ => hv.elim
  | .handle, _, _, _, _ => sameAs_iff.trans (leBits_inj (n := 8)).symm
  | .tag, none, none, _, _ => by simp [KeyTy.same, sameOption]
  | .slice, _, _, hv, _ => hv.elim
  | .vec, none, none, _, _ => by simp [KeyTy.same, sameOption]
  | .map, none, none, _, _ => by simp [KeyTy.same, sameOption]
  | .rng, none, none, _, _ => by simp [KeyTy.same, sameOption]
  | .simd lane more, v, w, hv, hw => by
    have hlen := flatMap_const_length fun i => lane_length lane (v i)
    have hlen' := flatMap_const_length fun i => lane_length lane (w i)
    rw [KeyTy.same, decide_eq_true_iff, KeyTy.image, KeyTy.image, hlen, hlen',
      append_eq_iff (hlen.trans hlen'.symm),
      flatMap_finRange_inj (fun i => lane_length lane (v i)) fun i => lane_length lane (w i)]
    simp only [and_true]
    exact forall_congr' fun i => lane_plain (hv.2 i) (hw.2 i)
  | .array elem n, v, w, hv, hw => by
    rw [KeyTy.same, decide_eq_true_iff, KeyTy.image, KeyTy.image,
      flatMap_finRange_inj (fun i => image_length elem (v i)) fun i => image_length elem (w i)]
    exact forall_congr' fun i => plain_same elem (hv i) (hw i)
  | .struct fields, v, w, hv, hw => by
    have hlen := imageFields_length fields v 0
    have hlen' := imageFields_length fields w 0
    rw [KeyTy.same, KeyTy.image, KeyTy.image, append_eq_iff (by omega)]
    simp only [and_true]
    exact plain_sameFields fields 0 hv.1 hw.1
  | .enum more, v, w, _, _ => by
    have hv : (Fin.val v) < 256 ^ 4 := Nat.lt_of_le_of_lt (Nat.le_of_lt_succ v.isLt) more.isLt
    have hw : (Fin.val w) < 256 ^ 4 := Nat.lt_of_le_of_lt (Nat.le_of_lt_succ w.isLt) more.isLt
    rw [KeyTy.image, KeyTy.image, leImage_inj, Nat.mod_eq_of_lt hv, Nat.mod_eq_of_lt hw]
    exact sameAs_iff.trans Fin.ext_iff
  | .sum _ _ _, _, _, hv, _ => hv.elim

theorem plain_sameFields : (ts : List KeyTy) → {v w : Vals ts} → (off : Nat) →
    PlainFields ts v → PlainFields ts w →
    (sameFields ts v w = true ↔ imageFields ts v off = imageFields ts w off)
  | [], _, _, _, _, _ => by simp [sameFields, imageFields]
  | t :: ts, v, w, off, hv, hw => by
    have hlen := (image_length t v.1).trans (image_length t w.1).symm
    rw [sameFields, Bool.and_eq_true, imageFields, imageFields, List.append_assoc,
      List.append_assoc, List.append_cancel_left_eq, append_eq_iff hlen,
      plain_same t hv.1 hw.1, plain_sameFields ts _ hv.2 hw.2]

end

theorem pad_zero : pad 0 = [] := rfl

theorem lane_noPad (t : LaneTy) (v : t.Val) : none ∉ t.image v := by
  cases t <;> exact none_notMem_leImage _ _

theorem flatMap_noPad {n : Nat} {f : Fin n → Image} (h : ∀ i, none ∉ f i) :
    none ∉ (List.finRange n).flatMap f := by
  rw [List.mem_flatMap]
  rintro ⟨i, _, hi⟩
  exact h i hi

/-- Only a vector of three lanes has room to spare. -/
theorem simd_pad (lane : LaneTy) (more : Fin 3) :
    (Llvm.Ty.vector lane.llvm (more.val + 2)).size -
      (more.val + 2) * (lane.llvm.scalarBits / 8) = 0 ↔ more ≠ 1 := by
  cases lane with
  | int width signed =>
    revert more signed
    cases width <;> decide
  | f32 =>
    revert more
    decide
  | f64 =>
    revert more
    decide

mutual

theorem plain_noPad : (t : KeyTy) → {v : t.Val} → t.Plain v → none ∉ t.image v
  | .bool, _, _ => none_notMem_leImage _ _
  | .u8, .inl _, _ => none_notMem_leImage _ _
  | .u8, .inr _, hv => hv.elim
  | .int _ _, _, _ => none_notMem_leImage _ _
  | .f32, _, hv => hv.elim
  | .f64, _, _ => none_notMem_leImage _ _
  | .str, _, hv => hv.elim
  | .handle, _, _ => none_notMem_leImage _ _
  | .tag, none, _ => by decide
  | .slice, _, hv => hv.elim
  | .vec, none, _ => none_notMem_leImage _ _
  | .map, none, _ => none_notMem_leImage _ _
  | .rng, none, _ => none_notMem_leImage _ _
  | .simd lane more, v, hv => by
    have hlen := flatMap_const_length fun i => lane_length lane (v i)
    have hpad := (simd_pad lane more).mpr hv.1
    rw [KeyTy.image, hlen]
    simp only [KeyTy.llvm]
    rw [hpad, pad_zero, List.append_nil]
    exact flatMap_noPad fun i => lane_noPad lane (v i)
  | .array elem _, v, hv => by
    rw [KeyTy.image]
    exact flatMap_noPad fun i => plain_noPad elem (hv i)
  | .struct fields, v, hv => by
    obtain ⟨htight, hsize⟩ := Bool.and_eq_true_iff.mp hv.2
    have hzero := Nat.sub_eq_zero_of_le (Nat.le_of_eq (of_decide_eq_true hsize))
    rw [KeyTy.image, hzero, pad_zero, List.append_nil]
    exact plain_noPadFields fields 0 htight hv.1
  | .enum _, _, _ => none_notMem_leImage _ _
  | .sum _ _ _, _, hv => hv.elim

theorem plain_noPadFields : (ts : List KeyTy) → {v : Vals ts} → (off : Nat) →
    tight ts off = true → PlainFields ts v → none ∉ imageFields ts v off
  | [], _, _, _, _ => by simp [imageFields]
  | t :: ts, v, off, htight, hv => by
    obtain ⟨hstart, hrest⟩ := Bool.and_eq_true_iff.mp htight
    have hstart := of_decide_eq_true hstart
    rw [imageFields, hstart, Nat.sub_self, pad_zero, List.nil_append, List.mem_append]
    rintro (h | h)
    · exact plain_noPad t hv.1 h
    · exact plain_noPadFields ts _ hrest hv.2 h

end

mutual

/-- Every value of the type is plain. -/
def KeyTy.canonical : KeyTy → Bool
  | .bool => true
  | .int .w64 _ => true
  | .handle => true
  | .simd (.int .w64 _) more => more ≠ 1
  | .array elem n => n = 0 || elem.canonical
  | .struct fields => canonicalFields fields && packed fields
  | .enum _ => true
  | _ => false

def canonicalFields : List KeyTy → Bool
  | [] => true
  | t :: ts => t.canonical && canonicalFields ts

end

theorem intFits_word (signed : Bool) (v : BitVec 64) : IntFits .w64 signed v := by
  cases signed <;> simp [IntFits, IntWidth.bits]

mutual

theorem plain_of_canonical : (t : KeyTy) → t.canonical = true → (v : t.Val) → t.Plain v
  | .bool, _, _ => trivial
  | .int .w64 signed, _, v => intFits_word signed v
  | .handle, _, _ => trivial
  | .simd (.int .w64 signed) more, h, v => ⟨of_decide_eq_true h, fun i => intFits_word signed (v i)⟩
  | .array elem n, h, v => by
    rw [KeyTy.canonical, Bool.or_eq_true, decide_eq_true_iff] at h
    rcases h with rfl | h
    · exact fun i => i.elim0
    · exact fun i => plain_of_canonical elem h (v i)
  | .struct fields, h, v => by
    obtain ⟨hfields, hpacked⟩ := Bool.and_eq_true_iff.mp h
    exact ⟨plain_of_canonicalFields fields hfields v, hpacked⟩
  | .enum _, _, _ => trivial

theorem plain_of_canonicalFields : (ts : List KeyTy) → canonicalFields ts = true →
    (v : Vals ts) → PlainFields ts v
  | [], _, _ => trivial
  | t :: ts, h, v => by
    obtain ⟨hhead, htail⟩ := Bool.and_eq_true_iff.mp h
    exact ⟨plain_of_canonical t hhead v.1, plain_of_canonicalFields ts htail v.2⟩

end

def LaneTy.zero : (t : LaneTy) → t.Val
  | .int _ _ => (0 : BitVec 64)
  | .f32 => (0 : BitVec 32)
  | .f64 => (0 : BitVec 64)

mutual

def KeyTy.zero : (t : KeyTy) → t.Val
  | .bool => false
  | .u8 => .inl 0
  | .int _ _ => (0 : BitVec 64)
  | .f32 => (0, 0)
  | .f64 => (0 : BitVec 64)
  | .str => { content := [], addr := 0 }
  | .handle => (0 : BitVec 64)
  | .tag => none
  | .slice => (0, [])
  | .vec => none
  | .map => none
  | .rng => none
  | .simd lane _ => fun _ => lane.zero
  | .array elem _ => fun _ => elem.zero
  | .struct fields => zeros fields
  | .enum _ => (0 : Fin _)
  | .sum first _ _ => .inl (zeros first)

def zeros : (ts : List KeyTy) → Vals ts
  | [] => ()
  | t :: ts => (t.zero, zeros ts)

end

theorem lane_same_zero (lane : LaneTy) : lane.same lane.zero lane.zero = true := by
  cases lane with
  | int width signed => exact sameAs_iff.mpr rfl
  | f32 => decide
  | f64 => decide

mutual

theorem same_zero : (t : KeyTy) → t.same t.zero t.zero = true
  | .bool => rfl
  | .u8 => sameAs_iff.mpr rfl
  | .int _ _ => sameAs_iff.mpr rfl
  | .f32 => by decide
  | .f64 => by decide
  | .str => sameAs_iff.mpr rfl
  | .handle => sameAs_iff.mpr rfl
  | .tag => rfl
  | .slice => rfl
  | .vec => rfl
  | .map => rfl
  | .rng => rfl
  | .simd lane _ => by
    rw [KeyTy.same, decide_eq_true_iff]
    exact fun _ => lane_same_zero lane
  | .array elem _ => by
    rw [KeyTy.same, decide_eq_true_iff]
    exact fun _ => same_zero elem
  | .struct fields => same_zeros fields
  | .enum _ => sameAs_iff.mpr rfl
  | .sum first _ _ => same_zeros first

theorem same_zeros : (ts : List KeyTy) → sameFields ts (zeros ts) (zeros ts) = true
  | [] => rfl
  | t :: ts => by
    rw [sameFields, Bool.and_eq_true]
    exact ⟨same_zero t, same_zeros ts⟩

end

/-- Two values that one side tells apart and the other does not; padding tells a value from
itself. -/
def KeyTy.Diverges (t : KeyTy) : Prop :=
  ∃ v w : t.Val, (t.same v w = false ∧ t.image v = t.image w) ∨
    (t.same v w = true ∧ (t.image v ≠ t.image w ∨ none ∈ t.image v))

def DivergesFields (ts : List KeyTy) : Prop :=
  ∃ v w : Vals ts, (sameFields ts v w = false ∧ ∀ off, imageFields ts v off = imageFields ts w off) ∨
    (sameFields ts v w = true ∧
      ∀ off, imageFields ts v off ≠ imageFields ts w off ∨ none ∈ imageFields ts v off)

theorem diverges_lane {lane : LaneTy} {more : Fin 3} {a b : lane.Val}
    (h : (lane.same a b = false ∧ lane.image a = lane.image b) ∨
      (lane.same a b = true ∧ lane.image a ≠ lane.image b)) :
    (KeyTy.simd lane more).Diverges := by
  obtain ⟨v, hv⟩ : ∃ v : (KeyTy.simd lane more).Val, ∀ i, v i = a := ⟨fun _ => a, fun _ => rfl⟩
  obtain ⟨w, hw⟩ : ∃ w : (KeyTy.simd lane more).Val, ∀ i, w i = b := ⟨fun _ => b, fun _ => rfl⟩
  have hlen := flatMap_const_length fun i => lane_length lane (v i)
  have hlen' := flatMap_const_length fun i => lane_length lane (w i)
  refine ⟨v, w, ?_⟩
  rw [KeyTy.same, KeyTy.image, KeyTy.image, hlen, hlen', ne_eq,
    append_eq_iff (hlen.trans hlen'.symm),
    flatMap_finRange_inj (fun i => lane_length lane (v i)) fun i => lane_length lane (w i)]
  simp only [hv, hw, decide_eq_true_iff, decide_eq_false_iff_not]
  rcases h with ⟨hs, hi⟩ | ⟨hs, hi⟩
  · refine Or.inl ⟨fun hall => ?_, fun _ => hi, trivial⟩
    simpa [hs] using hall 0
  · exact Or.inr ⟨fun _ => hs, Or.inl fun hall => hi (hall.1 0)⟩

theorem diverges_simd {lane : LaneTy} {more : Fin 3}
    (h : (KeyTy.simd lane more).canonical = false) : (KeyTy.simd lane more).Diverges := by
  cases lane with
  | int width signed =>
    cases width with
    | w8 =>
      exact diverges_lane (a := (0 : BitVec 64)) (b := (256 : BitVec 64))
        (by cases signed <;> decide)
    | w16 =>
      exact diverges_lane (a := (0 : BitVec 64)) (b := (65536 : BitVec 64))
        (by cases signed <;> decide)
    | w32 =>
      exact diverges_lane (a := (0 : BitVec 64)) (b := (4294967296 : BitVec 64))
        (by cases signed <;> decide)
    | w64 =>
      have hmore : more = 1 := by simpa [KeyTy.canonical] using h
      subst hmore
      refine ⟨KeyTy.zero _, KeyTy.zero _, Or.inr ⟨same_zero _, Or.inr ?_⟩⟩
      cases signed <;> decide
  | f32 => exact diverges_lane (a := (0 : BitVec 32)) (b := (2147483648 : BitVec 32)) (by decide)
  | f64 =>
    exact diverges_lane (a := (0 : BitVec 64)) (b := (9223372036854775808 : BitVec 64)) (by decide)

theorem diverges_array {elem : KeyTy} {n : Nat} (hn : n ≠ 0) (h : elem.Diverges) :
    (KeyTy.array elem n).Diverges := by
  obtain ⟨k, rfl⟩ := Nat.exists_eq_succ_of_ne_zero hn
  obtain ⟨a, b, h⟩ := h
  obtain ⟨v, hv⟩ : ∃ v : (KeyTy.array elem (k + 1)).Val, ∀ i, v i = a :=
    ⟨fun _ => a, fun _ => rfl⟩
  obtain ⟨w, hw⟩ : ∃ w : (KeyTy.array elem (k + 1)).Val, ∀ i, w i = b :=
    ⟨fun _ => b, fun _ => rfl⟩
  refine ⟨v, w, ?_⟩
  rw [KeyTy.same, KeyTy.image, KeyTy.image, ne_eq,
    flatMap_finRange_inj (fun i => image_length elem (v i)) fun i => image_length elem (w i),
    List.mem_flatMap]
  simp only [hv, hw, decide_eq_true_iff, decide_eq_false_iff_not]
  rcases h with ⟨hs, hi⟩ | ⟨hs, hi | hi⟩
  · refine Or.inl ⟨fun hall => ?_, fun _ => hi⟩
    simpa [hs] using hall 0
  · exact Or.inr ⟨fun _ => hs, Or.inl fun hall => hi (hall 0)⟩
  · exact Or.inr ⟨fun _ => hs, Or.inr ⟨0, List.mem_finRange 0, hi⟩⟩

theorem none_mem_pad {n : Nat} (h : 0 < n) : none ∈ pad n :=
  List.mem_replicate.mpr ⟨by omega, rfl⟩

/-- A gap before some field. -/
theorem none_mem_fields : (ts : List KeyTy) → (v : Vals ts) → (off : Nat) →
    tight ts off = false → none ∈ imageFields ts v off
  | t :: ts, v, off, h => by
    rw [imageFields, List.mem_append, List.mem_append]
    rw [tight, Bool.and_eq_false_iff] at h
    by_cases hstart : alignUp off t.llvm.align = off
    · rcases h with h | h
      · exact absurd hstart (of_decide_eq_false h)
      · rw [hstart]
        exact Or.inr (none_mem_fields ts v.2 _ h)
    · have hle := Llvm.le_alignUp (n := off) (Llvm.align_pos t.llvm)
      exact Or.inl (Or.inl (none_mem_pad (by omega)))

theorem diverges_unpacked {fields : List KeyTy} (h : packed fields = false) :
    (KeyTy.struct fields).Diverges := by
  refine ⟨KeyTy.zero _, KeyTy.zero _, Or.inr ⟨same_zero _, Or.inr ?_⟩⟩
  rw [KeyTy.image, List.mem_append]
  rcases Bool.and_eq_false_iff.mp h with h | h
  · exact Or.inl (none_mem_fields fields _ 0 h)
  · have hle := Llvm.le_alignUp (n := endOffset (llvmFields fields) 0)
      (Llvm.maxAlign_pos (llvmFields fields))
    have hne := of_decide_eq_false h
    refine Or.inr (none_mem_pad ?_)
    rw [KeyTy.llvm, Llvm.Ty.size] at hne ⊢
    omega

theorem image_struct {fields : List KeyTy} (v : Vals fields) :
    (KeyTy.struct fields).image v = imageFields fields v 0 ++
      pad ((KeyTy.struct fields).llvm.size - endOffset (llvmFields fields) 0) := rfl

theorem sameFields_cons {t : KeyTy} {ts : List KeyTy} (a b : t.Val) (v w : Vals ts) :
    sameFields (t :: ts) (a, v) (b, w) = (t.same a b && sameFields ts v w) := rfl

theorem imageFields_cons {t : KeyTy} {ts : List KeyTy} (a : t.Val) (v : Vals ts) (off : Nat) :
    imageFields (t :: ts) (a, v) off = pad (alignUp off t.llvm.align - off) ++ t.image a ++
      imageFields ts v (alignUp off t.llvm.align + t.llvm.size) := rfl

theorem diverges_struct {fields : List KeyTy} (h : DivergesFields fields) :
    (KeyTy.struct fields).Diverges := by
  obtain ⟨v, w, ⟨hs, hi⟩ | ⟨hs, hi⟩⟩ := h
  · refine ⟨v, w, Or.inl ⟨hs, ?_⟩⟩
    rw [image_struct, image_struct, hi]
  · refine ⟨v, w, Or.inr ⟨hs, ?_⟩⟩
    rw [image_struct, image_struct, ne_eq, List.append_cancel_right_eq, List.mem_append]
    rcases hi 0 with hi | hi
    · exact Or.inl hi
    · exact Or.inr (Or.inl hi)

theorem divergesFields_head {t : KeyTy} {ts : List KeyTy} (h : t.Diverges) :
    DivergesFields (t :: ts) := by
  obtain ⟨a, b, ⟨hs, hi⟩ | ⟨hs, hi⟩⟩ := h
  · refine ⟨(a, zeros ts), (b, zeros ts), Or.inl ⟨?_, fun off => ?_⟩⟩
    · rw [sameFields_cons, hs, Bool.false_and]
    · rw [imageFields_cons, imageFields_cons, hi]
  · refine ⟨(a, zeros ts), (b, zeros ts), Or.inr ⟨?_, fun off => ?_⟩⟩
    · rw [sameFields_cons, hs, Bool.true_and]
      exact same_zeros ts
    · rw [imageFields_cons, imageFields_cons, ne_eq, List.append_cancel_right_eq,
        List.append_cancel_left_eq, List.mem_append, List.mem_append]
      rcases hi with hi | hi
      · exact Or.inl hi
      · exact Or.inr (Or.inl (Or.inr hi))

theorem divergesFields_tail {t : KeyTy} {ts : List KeyTy} (h : DivergesFields ts) :
    DivergesFields (t :: ts) := by
  obtain ⟨a, b, ⟨hs, hi⟩ | ⟨hs, hi⟩⟩ := h
  · refine ⟨(t.zero, a), (t.zero, b), Or.inl ⟨?_, fun off => ?_⟩⟩
    · rw [sameFields_cons, hs, Bool.and_false]
    · rw [imageFields_cons, imageFields_cons, hi]
  · refine ⟨(t.zero, a), (t.zero, b), Or.inr ⟨?_, fun off => ?_⟩⟩
    · rw [sameFields_cons, hs, Bool.and_true]
      exact same_zero t
    · rw [imageFields_cons, imageFields_cons, ne_eq, List.append_cancel_left_eq, List.mem_append]
      rcases hi _ with hi | hi
      · exact Or.inl hi
      · exact Or.inr (Or.inr hi)

def tagIn (arena : Nat) : TagVal :=
  { arena := arena, slot := 0, generation := 0, compiled := Tag.new 0 0 }

mutual

theorem diverges_of_not_canonical : (t : KeyTy) → t.canonical = false → t.Diverges
  | .u8, _ => ⟨.inl 97, .inr 97, Or.inl ⟨rfl, by decide⟩⟩
  | .int .w8 signed, _ =>
    ⟨(0 : BitVec 64), (256 : BitVec 64), Or.inl (by cases signed <;> decide)⟩
  | .int .w16 signed, _ =>
    ⟨(0 : BitVec 64), (65536 : BitVec 64), Or.inl (by cases signed <;> decide)⟩
  | .int .w32 signed, _ =>
    ⟨(0 : BitVec 64), (4294967296 : BitVec 64), Or.inl (by cases signed <;> decide)⟩
  | .f32, _ => ⟨(0, 0), (9223372036854775808, 2147483648), Or.inr (by decide)⟩
  | .f64, _ => ⟨(0 : BitVec 64), (9223372036854775808 : BitVec 64), Or.inr (by decide)⟩
  | .str, _ => ⟨⟨[97], 8⟩, ⟨[97], 16⟩, Or.inr (by decide)⟩
  | .tag, _ => ⟨some (tagIn 0), some (tagIn 1), Or.inl (by decide)⟩
  | .slice, _ => by
    refine ⟨(8, [.int 0]), (16, [.int 0]), Or.inr ⟨?_, Or.inl ?_⟩⟩
    · decide
    · exact fun h : fatImage 8 1 = fatImage 16 1 => absurd h (by decide)
  | .vec, _ => by
    refine ⟨some (8, []), some (16, []), Or.inr ⟨rfl, Or.inl ?_⟩⟩
    exact fun h : leImage 8 8 = leImage 8 16 => absurd h (by decide)
  | .map, _ => by
    refine ⟨some (8, []), some (16, []), Or.inr ⟨rfl, Or.inl ?_⟩⟩
    exact fun h : leImage 8 8 = leImage 8 16 => absurd h (by decide)
  | .rng, _ => by
    let g : RngState := ⟨#v[1, 2, 3, 4]⟩
    refine ⟨some (8, g), some (16, g), Or.inr ⟨?_, Or.inl ?_⟩⟩
    · exact (sameAs_iff (a := g)).mpr rfl
    · exact fun h : leImage 8 8 = leImage 8 16 => absurd h (by decide)
  | .simd _ _, h => diverges_simd h
  | .array elem n, h => by
    rw [KeyTy.canonical, Bool.or_eq_false_iff, decide_eq_false_iff_not] at h
    exact diverges_array h.1 (diverges_of_not_canonical elem h.2)
  | .struct fields, h => by
    rw [KeyTy.canonical, Bool.and_eq_false_iff] at h
    rcases h with h | h
    · exact diverges_struct (divergesFields_of_not_canonical fields h)
    · exact diverges_unpacked h
  | .sum first rest words, _ => by
    refine ⟨KeyTy.zero _, KeyTy.zero _, Or.inr ⟨same_zero _, Or.inr ?_⟩⟩
    rw [KeyTy.zero, KeyTy.image, List.mem_append, List.mem_append]
    exact Or.inl (Or.inr (none_mem_pad (by decide)))

theorem divergesFields_of_not_canonical : (ts : List KeyTy) → canonicalFields ts = false →
    DivergesFields ts
  | t :: ts, h => by
    rw [canonicalFields, Bool.and_eq_false_iff] at h
    rcases h with h | h
    · exact divergesFields_head (diverges_of_not_canonical t h)
    · exact divergesFields_tail (divergesFields_of_not_canonical ts h)

end

theorem map_some_fill (junk : Nat → BitVec 8) {img : Image} (h : none ∉ img) :
    (fill junk img).map some = img := by
  refine List.ext_getElem (by simp [fill]) fun i hi hi' => ?_
  simp only [fill, List.getElem_map, List.getElem_mapIdx]
  cases hb : img[i] with
  | none => exact absurd (hb ▸ List.getElem_mem hi') h
  | some b => rfl

theorem fill_inj {j j' : Nat → BitVec 8} {a b : Image} (ha : none ∉ a) (hb : none ∉ b) :
    fill j a = fill j' b ↔ a = b := by
  constructor
  · intro h
    rw [← map_some_fill j ha, ← map_some_fill j' hb, h]
  · rintro rfl
    exact (List.map_injective_iff.mpr (Option.some_injective _))
      ((map_some_fill j ha).trans (map_some_fill j' ha).symm)

/-- Padding can differ from any given bytes. -/
theorem fill_ne {a : Image} (ha : none ∈ a) (bs : List (BitVec 8)) : ∃ j, fill j a ≠ bs := by
  obtain ⟨i, hi, hnone⟩ := List.mem_iff_getElem.mp ha
  by_cases h : fill (fun _ => 0) a = bs
  · refine ⟨fun _ => 1, fun h' => ?_⟩
    have hfill : fill (fun _ => 0) a = fill (fun _ => 1) a := h.trans h'.symm
    have hlen : ∀ b : BitVec 8, i < (fill (fun _ => b) a).length := by simp [fill, hi]
    have hget := List.getElem_of_eq hfill (hlen 0)
    simp only [fill, List.getElem_mapIdx, hnone, Option.getD_none] at hget
    exact absurd hget (by decide)
  · exact ⟨fun _ => 0, h⟩

theorem fill_differ {a b : Image} (h : a ≠ b ∨ none ∈ a) : ∃ j j', fill j a ≠ fill j' b := by
  by_cases ha : none ∈ a
  · obtain ⟨j, hj⟩ := fill_ne ha (fill (fun _ => 0) b)
    exact ⟨j, fun _ => 0, hj⟩
  · by_cases hb : none ∈ b
    · obtain ⟨j, hj⟩ := fill_ne hb (fill (fun _ => 0) a)
      exact ⟨fun _ => 0, j, hj.symm⟩
    · have hne := h.resolve_right ha
      exact ⟨fun _ => 0, fun _ => 0, fun he => hne ((fill_inj ha hb).mp he)⟩

theorem serializeKey_image {t : KeyTy} (ht : t ≠ .str) (k : Key t) :
    serializeKey t k = fill k.junk (t.image k.value) := by
  cases t with
  | str => exact absurd rfl ht
  | _ => rfl

/-- The key types for which equality and bytes agree. -/
def KeyTy.keyCanonical (t : KeyTy) : Prop := t = .str ∨ t.canonical = true

def Key.Plain {t : KeyTy} (k : Key t) : Prop := t = .str ∨ t.Plain k.value

theorem canonical_plain (t : KeyTy) : Canonical (sameKey t) (serializeKey t) Key.Plain := by
  intro k k' hk hk'
  by_cases ht : t = .str
  · subst ht
    exact sameAs_iff
  · have hv := hk.resolve_left ht
    have hw := hk'.resolve_left ht
    rw [serializeKey_image ht, serializeKey_image ht, fill_inj (plain_noPad t hv) (plain_noPad t hw)]
    exact plain_same t hv hw

theorem not_canonical_of_diverges {t : KeyTy} (ht : t ≠ .str) (h : t.Diverges) :
    ¬ Canonical (sameKey t) (serializeKey t) fun _ => True := by
  intro hc
  obtain ⟨v, w, ⟨hs, hi⟩ | ⟨hs, hi⟩⟩ := h
  · have hiff := hc ⟨v, fun _ => 0⟩ ⟨w, fun _ => 0⟩ trivial trivial
    rw [serializeKey_image ht, serializeKey_image ht, sameKey, hs, hi] at hiff
    exact Bool.false_ne_true (hiff.mpr rfl)
  · obtain ⟨j, j', hne⟩ := fill_differ hi
    have hiff := hc ⟨v, j⟩ ⟨w, j'⟩ trivial trivial
    rw [serializeKey_image ht, serializeKey_image ht] at hiff
    exact hne (hiff.mp hs)

/-- The stores agree on every sequence over keys of a type exactly when it is a canonical key type,
and for any type on every sequence of plain keys. -/
theorem stash_agrees_iff {V : Type} (v : V) (t : KeyTy) :
    ((∀ ops : List (Op (Key t) V),
        run (callStash (sameKey t)) [] ops = run (betMap (serializeKey t)) [] ops) ↔
      t.keyCanonical) ∧
      ∀ ops : List (Op (Key t) V), (∀ op ∈ ops, ∀ k, op.key? = some k → k.Plain) →
        run (callStash (sameKey t)) [] ops = run (betMap (serializeKey t)) [] ops := by
  have hplain : ∀ ops : List (Op (Key t) V), (∀ op ∈ ops, ∀ k, op.key? = some k → k.Plain) →
      run (callStash (sameKey t)) [] ops = run (betMap (serializeKey t)) [] ops :=
    fun ops hops => run_agrees (canonical_plain t) agrees_empty hops
  refine ⟨⟨fun h => ?_, fun h ops => ?_⟩, hplain⟩
  · by_cases ht : t = .str
    · exact Or.inl ht
    · refine Or.inr ?_
      by_contra hfalse
      have hd := diverges_of_not_canonical t (Bool.eq_false_iff.mpr hfalse)
      exact not_canonical_of_diverges ht hd ((runs_agree_iff v).mp h)
  · refine hplain ops fun _ _ k _ => ?_
    rcases h with ht | h
    · exact Or.inl ht
    · exact Or.inr (plain_of_canonical t h k.value)

/-- `m.put(0.0, 1)` and then `m.peep(-0.0)`. -/
def zeroKeys : List (Op (Key .f64) Nat) :=
  [.put ⟨(0 : BitVec 64), fun _ => 0⟩ 1, .peep ⟨(9223372036854775808 : BitVec 64), fun _ => 0⟩]

/-- The interpreter finds the entry of the other zero, the compiled program does not. -/
theorem negative_zero_key_missed :
    run (callStash (sameKey .f64)) [] zeroKeys = [.done, .found 1] ∧
      run (betMap (serializeKey .f64)) [] zeroKeys = [.done, .missing] := by
  decide

end BetLang.Stash
