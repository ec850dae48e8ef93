import BetLang.CodegenTy
import BetLang.Layout
import BetLang.Sequencing
import Mathlib.Algebra.BigOperators.Ring.List
import Mathlib.Algebra.Ring.Nat

/-! The payload of a `moods` variant against the words its sum sets aside for it. -/

namespace BetLang.Codegen

open Ir
open Llvm (pow2Ceil bytesOfBits alignUp maxAlign endOffset)

def fieldTys (m : Module) (sid : Nat) : List Ty :=
  match m.structs[sid]? with
  | none => []
  | some d => d.fields.map (·.ty)

/-- Some part of a value of the type has a type with `p`, nested sums and what is behind a pointer
left out. -/
def someByValue (p : Ty → Bool) (m : Module) : Nat → Ty → Bool
  | 0, _ => false
  | fuel + 1, ty =>
    p ty ||
      match ty with
      | .array elem _ => someByValue p m fuel elem
      | .tuple elems => elems.any fun t => someByValue p m fuel t
      | .struct sid => (fieldTys m sid).any fun t => someByValue p m fuel t
      | .soa (.array (.struct sid) _) => (fieldTys m sid).any fun t => someByValue p m fuel t
      | _ => false

def scalarBits : Ty → Nat
  | .bool => 1
  | .int width _ => width.bits
  | .f32 => 32
  | .f64 => 64
  | _ => 0

/-- A vector of more than one word. -/
def isWideSimd : Ty → Bool
  | .simd elem lanes => 64 < lanes * scalarBits elem
  | _ => false

/-- A transposed slice or vec of a drip of several fields holds a handle for each field, and is
counted as one handle. -/
def isSoaHandles (m : Module) : Ty → Bool
  | .soa (.slice (.struct sid)) => 1 < (fieldTys m sid).length
  | .soa (.vec (.struct sid)) => 1 < (fieldTys m sid).length
  | _ => false

/-- The payload struct stays inside the words array it is laid over. -/
structure PayloadFits (words : Nat) (payload : List Llvm.Ty) : Prop where
  size : (Llvm.Ty.struct payload).size ≤ 8 * words
  align : (Llvm.Ty.struct payload).align ≤ (Llvm.Ty.array (.int 64) words).align

variable {m : Module}

theorem forall₂_join {α β γ : Type} {P : α → β → Prop} {Q : α → γ → Prop} {R : β → γ → Prop}
    {xs : List α} {ys : List β} {zs : List γ} (hy : List.Forall₂ P xs ys)
    (hz : List.Forall₂ Q xs zs) (h : ∀ x ∈ xs, ∀ y z, P x y → Q x z → R y z) :
    List.Forall₂ R ys zs := by
  induction hy generalizing zs with
  | nil =>
    cases hz
    exact .nil
  | cons hxy _ ih =>
    cases hz with
    | cons hxz hz =>
      exact .cons (h _ (by simp) _ _ hxy hxz) (ih hz fun x hx => h x (by simp [hx]))

/-- The machine counts of the parts never exceed the exact ones, and a small exact count is met. -/
theorem u32_sum_le {us es : List Nat}
    (h : List.Forall₂ (fun u e => u ≤ e ∧ (e < 2 ^ 32 → u = e)) us es) :
    WordArith.u32.sum us ≤ es.sum ∧ (es.sum < 2 ^ 32 → WordArith.u32.sum us = es.sum) := by
  have hsum : us.sum ≤ es.sum ∧ (es.sum < 2 ^ 32 → us.sum = es.sum) := by
    induction h with
    | nil => simp
    | cons hue _ ih =>
      simp only [List.sum_cons]
      omega
  have hmod := Nat.mod_le us.sum (2 ^ 32)
  simp only [WordArith.u32]
  constructor
  · exact Nat.le_trans hmod hsum.1
  · intro hlt
    have heq := hsum.2 hlt
    rw [heq, Nat.mod_eq_of_lt hlt]

theorem u32_mul_le {u e n : Nat} (h : u ≤ e ∧ (e < 2 ^ 32 → u = e)) :
    WordArith.u32.mul u n ≤ WordArith.exact.mul e n ∧
      (WordArith.exact.mul e n < 2 ^ 32 → WordArith.u32.mul u n = WordArith.exact.mul e n) := by
  simp only [WordArith.u32, WordArith.exact]
  have hle := Nat.mul_le_mul_right n h.1
  refine ⟨by omega, fun hlt => ?_⟩
  rcases Nat.eq_zero_or_pos n with rfl | hn
  · simp
  · have he : e < 2 ^ 32 := Nat.lt_of_le_of_lt (Nat.le_mul_of_pos_right e hn) hlt
    rw [h.2 he]
    omega

theorem foldl_max_le {us es : List Nat} {a b : Nat}
    (h : List.Forall₂ (fun u e => u ≤ e ∧ (e < 2 ^ 32 → u = e)) us es)
    (hab : a ≤ b ∧ (b < 2 ^ 32 → a = b)) :
    us.foldl max a ≤ es.foldl max b ∧
      (es.foldl max b < 2 ^ 32 → us.foldl max a = es.foldl max b) := by
  induction h generalizing a b with
  | nil => exact hab
  | cons hue _ ih =>
    refine ih ?_
    omega

theorem variantWords_le {words words' : Ty → Except String Nat}
    (hw : ∀ t u e, words t = .ok u → words' t = .ok e → u ≤ e ∧ (e < 2 ^ 32 → u = e))
    {v : Variant} {u e : Nat} (hu : variantWords .u32 words v = .ok u)
    (he : variantWords .exact words' v = .ok e) : u ≤ e ∧ (e < 2 ^ 32 → u = e) := by
  unfold variantWords at hu he
  obtain ⟨us, hus, hu⟩ := except_bind_ok hu
  obtain ⟨es, hes, he⟩ := except_bind_ok he
  cases hu
  cases he
  exact u32_sum_le (forall₂_join (mapM_ok_iff.mp hus) (mapM_ok_iff.mp hes) fun t _ => hw t)

/-- However deep each of them recurses, the `u32` count of a type is at most the exact one, and
equal to it when that one is below `2 ^ 32`. -/
theorem u32_words_le {fuel : Nat} :
    ∀ {fuel' : Nat} {t : Ty} {u e : Nat}, wordsWith .u32 m fuel t = .ok u →
      wordsWith .exact m fuel' t = .ok e → u ≤ e ∧ (e < 2 ^ 32 → u = e) := by
  induction fuel with
  | zero =>
    intro fuel' t u e hu
    cases hu
  | succ fuel ih =>
    intro fuel' t u e hu he
    cases fuel' with
    | zero => cases he
    | succ fuel' =>
      unfold wordsWith at hu he
      cases t with
      | array elem n =>
        obtain ⟨u', hu', hu⟩ := except_bind_ok hu
        obtain ⟨e', he', he⟩ := except_bind_ok he
        cases hu
        cases he
        exact u32_mul_le (ih hu' he')
      | simd elem lanes =>
        obtain ⟨u', hu', hu⟩ := except_bind_ok hu
        obtain ⟨e', he', he⟩ := except_bind_ok he
        cases hu
        cases he
        exact u32_mul_le (ih hu' he')
      | soa inner => exact ih hu he
      | tuple elems =>
        obtain ⟨us, hus, hu⟩ := except_bind_ok hu
        obtain ⟨es, hes, he⟩ := except_bind_ok he
        cases hu
        cases he
        exact u32_sum_le (forall₂_join (mapM_ok_iff.mp hus) (mapM_ok_iff.mp hes)
          fun t _ _ _ hx hy => ih hx hy)
      | struct sid =>
        cases hd : m.structs[sid]? with
        | none =>
          simp only [hd] at hu
          cases hu
        | some d =>
          simp only [hd] at hu he
          obtain ⟨us, hus, hu⟩ := except_bind_ok hu
          obtain ⟨es, hes, he⟩ := except_bind_ok he
          cases hu
          cases he
          exact u32_sum_le (forall₂_join (mapM_ok_iff.mp hus) (mapM_ok_iff.mp hes)
            fun f _ _ _ hx hy => ih hx hy)
      | sum sid =>
        cases hd : m.sums[sid]? with
        | none =>
          simp only [hd] at hu
          cases hu
        | some d =>
          simp only [hd] at hu he
          obtain ⟨us, hus, hu⟩ := except_bind_ok hu
          obtain ⟨es, hes, he⟩ := except_bind_ok he
          cases hu
          cases he
          have hvs := forall₂_join (mapM_ok_iff.mp hus) (mapM_ok_iff.mp hes)
            fun v _ _ _ hx hy => variantWords_le (fun t _ _ => ih) hx hy
          have hmax := foldl_max_le hvs (a := 0) (b := 0) (by simp)
          exact u32_sum_le (.cons ⟨Nat.le_refl 1, fun _ => rfl⟩ (.cons hmax .nil))
      | _ =>
        cases hu
        cases he
        exact ⟨Nat.le_refl _, fun _ => rfl⟩

/-- A type fits its count of words, at any address that is a multiple of a word. -/
def FitsWords (ty : Llvm.Ty) (words : Nat) : Prop :=
  ty.size ≤ 8 * words ∧ ty.align ∣ 8

theorem fits_struct {tys : List Llvm.Ty} {words : List Nat}
    (h : List.Forall₂ FitsWords tys words) : FitsWords (.struct tys) words.sum :=
  Llvm.struct_size_le h

theorem fits_array {ty : Llvm.Ty} {words : Nat} (n : Nat) (h : FitsWords ty words) :
    FitsWords (.array ty n) (words * n) := by
  have hmul := Nat.mul_le_mul_left n h.1
  refine ⟨?_, by rw [Llvm.Ty.align]; exact h.2⟩
  calc (Llvm.Ty.array ty n).size = n * ty.size := by rw [Llvm.Ty.size]
    _ ≤ n * (8 * words) := hmul
    _ = 8 * (words * n) := by rw [Nat.mul_left_comm, Nat.mul_comm n words]

/-- A vector of no more than a word. -/
theorem fits_vector {elem : Llvm.Ty} {lanes : Nat} (h : lanes * elem.scalarBits ≤ 64) :
    FitsWords (.vector elem lanes) lanes := by
  have hbytes : bytesOfBits (lanes * elem.scalarBits) ≤ 8 := by
    unfold bytesOfBits
    omega
  have hdvd := Llvm.pow2Ceil_dvd_eight _ hbytes
  refine ⟨?_, by rw [Llvm.Ty.align]; exact hdvd⟩
  rw [Llvm.Ty.size]
  refine Llvm.alignUp_le_of_dvd (Nat.dvd_mul_right_of_dvd hdvd lanes) ?_
  rcases Nat.eq_zero_or_pos lanes with rfl | hpos
  · simp [bytesOfBits]
  · omega

theorem wide_vector {elem : Llvm.Ty} {lanes : Nat} (h : 64 < lanes * elem.scalarBits) :
    8 < (Llvm.Ty.vector elem lanes).align := by
  have hle := Llvm.le_pow2Ceil (bytesOfBits (lanes * elem.scalarBits))
  rw [Llvm.Ty.align]
  unfold bytesOfBits at hle ⊢
  omega

theorem fieldTys_of {sid : Nat} {d : StructDef} (h : m.structs[sid]? = some d) :
    fieldTys m sid = d.fields.map (·.ty) := by
  rw [fieldTys, h]

theorem basicTy_tuple {fuel : Nat} {elems : List Ty} {ty : Llvm.Ty}
    (h : basicTy m (fuel + 1) (.tuple elems) = .ok ty) :
    ∃ fields, ty = .struct fields ∧
      List.Forall₂ (fun t fty => basicTy m fuel t = .ok fty) elems fields := by
  obtain ⟨fields, hf, h⟩ := except_bind_ok h
  cases h
  exact ⟨fields, rfl, mapM_ok_iff.mp hf⟩

theorem basicTy_array {fuel n : Nat} {elem : Ty} {ty : Llvm.Ty}
    (h : basicTy m (fuel + 1) (.array elem n) = .ok ty) :
    ∃ e, basicTy m fuel elem = .ok e ∧ ty = .array e (n % 2 ^ 32) := by
  obtain ⟨e, he, h⟩ := except_bind_ok h
  cases h
  exact ⟨e, he, rfl⟩

theorem basicTy_struct {fuel sid : Nat} {ty : Llvm.Ty}
    (h : basicTy m (fuel + 1) (.struct sid) = .ok ty) :
    ∃ fields, ty = .struct fields ∧
      List.Forall₂ (fun t fty => basicTy m fuel t = .ok fty) (fieldTys m sid) fields := by
  unfold basicTy at h
  cases hd : m.structs[sid]? with
  | none =>
    simp only [hd] at h
    cases h
  | some d =>
    simp only [hd] at h
    obtain ⟨fields, hf, h⟩ := except_bind_ok h
    cases h
    refine ⟨fields, rfl, ?_⟩
    rw [fieldTys_of hd, List.forall₂_map_left_iff]
    exact mapM_ok_iff.mp hf

theorem basicTy_sum {fuel sid : Nat} {ty : Llvm.Ty}
    (h : basicTy m (fuel + 1) (.sum sid) = .ok ty) :
    ∃ d words, m.sums[sid]? = some d ∧ sumPayloadWords m fuel d = .ok words ∧
      ty = .struct (if words = 0 then [.int 32] else [.int 32, .array (.int 64) words]) := by
  unfold basicTy at h
  cases hd : m.sums[sid]? with
  | none =>
    simp only [hd] at h
    cases h
  | some d =>
    simp only [hd] at h
    obtain ⟨fields, hf, h⟩ := except_bind_ok h
    obtain ⟨words, hw, hf⟩ := except_bind_ok hf
    cases hf
    cases h
    exact ⟨d, words, rfl, hw, rfl⟩

theorem forall₂_const_eq {α β γ : Type} {c : β} {g : α → γ} {xs : List α} {ys : List β}
    (h : List.Forall₂ (fun _ y => y = c) xs ys) : ys = (xs.map g).map fun _ => c := by
  induction h with
  | nil => rfl
  | cons hy _ ih =>
    subst hy
    rw [ih]
    simp

/-- A transposed container of a drip: what each of the drip's fields becomes. -/
theorem basicTy_soa {fuel : Nat} {inner : Ty} {ty : Llvm.Ty}
    (h : basicTy m (fuel + 1) (.soa inner) = .ok ty) :
    ∃ sid fields, ty = .struct fields ∧
      ((∃ n, inner = .array (.struct sid) n ∧ List.Forall₂
          (fun t fty => ∃ e, basicTy m fuel t = .ok e ∧ fty = .array e (n % 2 ^ 32))
          (fieldTys m sid) fields) ∨
        (inner = .slice (.struct sid) ∧ fields = (fieldTys m sid).map fun _ => fatPtrTy) ∨
        (inner = .vec (.struct sid) ∧ fields = (fieldTys m sid).map fun _ => .ptr)) := by
  obtain ⟨⟨elem, kind⟩, hc, h⟩ := except_bind_ok h
  cases elem with
  | struct sid =>
    cases hd : m.structs[sid]? with
    | none =>
      simp only [hd] at h
      cases h
    | some d =>
      simp only [hd] at h
      obtain ⟨fields, hf, h⟩ := except_bind_ok h
      cases h
      refine ⟨sid, fields, rfl, ?_⟩
      rw [fieldTys_of hd]
      have hf := mapM_ok_iff.mp hf
      cases inner with
      | array e n =>
        cases hc
        refine Or.inl ⟨n, rfl, List.forall₂_map_left_iff.mpr (hf.imp fun f fty hfty => ?_)⟩
        obtain ⟨e, he, hfty⟩ := except_bind_ok hfty
        cases hfty
        exact ⟨e, he, rfl⟩
      | slice e =>
        cases hc
        refine Or.inr (Or.inl ⟨rfl, ?_⟩)
        exact forall₂_const_eq (hf.imp fun f fty hfty => by cases hfty; rfl)
      | vec e =>
        cases hc
        refine Or.inr (Or.inr ⟨rfl, ?_⟩)
        exact forall₂_const_eq (hf.imp fun f fty hfty => by cases hfty; rfl)
      | _ => cases hc
  | _ => cases h

/-- The element of a vector is a scalar of as many bits, and counts as one word. -/
theorem basicTy_simd {fuel lanes : Nat} {elem : Ty} {ty : Llvm.Ty}
    (h : basicTy m (fuel + 1) (.simd elem lanes) = .ok ty) :
    ∃ e, ty = .vector e lanes ∧ e.scalarBits = scalarBits elem ∧
      ∀ ar k, wordsWith ar m (k + 1) elem = .ok 1 := by
  obtain ⟨e, he, h⟩ := except_bind_ok h
  cases fuel with
  | zero => cases he
  | succ fuel =>
    cases elem with
    | bool | int _ _ | f32 | f64 =>
      cases he
      cases h
      exact ⟨_, rfl, rfl, fun ar k => by unfold wordsWith; rfl⟩
    | array elem n =>
      obtain ⟨_, _, rfl⟩ := basicTy_array he
      cases h
    | tuple elems =>
      obtain ⟨_, rfl, _⟩ := basicTy_tuple he
      cases h
    | struct sid =>
      obtain ⟨_, rfl, _⟩ := basicTy_struct he
      cases h
    | sum sid =>
      obtain ⟨_, _, _, _, rfl⟩ := basicTy_sum he
      cases h
    | soa inner =>
      obtain ⟨_, _, rfl, _⟩ := basicTy_soa he
      cases h
    | simd elem n =>
      obtain ⟨e', _, he⟩ := except_bind_ok he
      cases e' <;> cases he <;> cases h
    | _ =>
      cases he <;> cases h

theorem FitsWords.mono {ty : Llvm.Ty} {w w' : Nat} (h : FitsWords ty w) (hle : w ≤ w') :
    FitsWords ty w' :=
  ⟨Nat.le_trans h.1 (Nat.mul_le_mul_left 8 hle), h.2⟩

theorem fits_fatPtr : FitsWords fatPtrTy 2 := ⟨by decide, by decide⟩

theorem fits_ptr : FitsWords .ptr 1 := ⟨by decide, by decide⟩

/-- One handle for each of several fields. -/
theorem fits_handles {α : Type} {handle : Llvm.Ty} {w : Nat} (h : FitsWords handle w)
    (xs : List α) : FitsWords (.struct (xs.map fun _ => handle)) (xs.length * w) := by
  have hall : List.Forall₂ FitsWords (xs.map fun _ => handle) (xs.map fun _ => w) := by
    rw [List.forall₂_map_left_iff, List.forall₂_map_right_iff, List.forall₂_same]
    exact fun _ _ => h
  have hsum : (xs.map fun _ => w).sum = xs.length * w := by
    rw [List.map_const', List.sum_replicate_nat]
  exact hsum ▸ fits_struct hall

/-- The tag word and the words array of a nested sum. -/
theorem fits_sum (words : Nat) :
    FitsWords (.struct (if words = 0 then [.int 32] else [.int 32, .array (.int 64) words]))
      (1 + words) := by
  have htag : FitsWords (.int 32) 1 := ⟨by decide, by decide⟩
  have hword : FitsWords (.int 64) 1 := ⟨by decide, by decide⟩
  split
  · exact (fits_struct (.cons htag .nil)).mono (by simp)
  · have harray := fits_array words hword
    rw [Nat.one_mul] at harray
    exact (fits_struct (.cons htag (.cons harray .nil))).mono (by simp)

/-- A vector of several words anywhere by value raises the alignment above a word's. -/
theorem wide_align {fuel : Nat} :
    ∀ {t : Ty} {ty : Llvm.Ty}, basicTy m fuel t = .ok ty →
      someByValue isWideSimd m fuel t = true → 8 < ty.align := by
  induction fuel with
  | zero =>
    intro t ty h
    cases h
  | succ fuel ih =>
    intro t ty h hw
    have hfields : ∀ {ts : List Ty} {fields : List Llvm.Ty},
        List.Forall₂ (fun t fty => ∃ e, basicTy m fuel t = .ok e ∧ fty.align = e.align) ts fields →
        (ts.any fun t => someByValue isWideSimd m fuel t) = true →
        8 < (Llvm.Ty.struct fields).align := by
      intro ts fields hf hany
      obtain ⟨t, ht, hw⟩ := List.any_eq_true.mp hany
      obtain ⟨i, hi, rfl⟩ := List.mem_iff_getElem.mp ht
      have hi' : i < fields.length := hf.length_eq ▸ hi
      obtain ⟨e, he, halign⟩ := hf.get hi hi'
      have hlt := ih he hw
      rw [← halign] at hlt
      rw [Llvm.Ty.align]
      exact Nat.lt_of_lt_of_le hlt (Llvm.align_le_maxAlign (List.getElem_mem hi'))
    unfold someByValue at hw
    cases t with
    | array elem n =>
      obtain ⟨e, he, rfl⟩ := basicTy_array h
      rw [Llvm.Ty.align]
      exact ih he (by simpa [isWideSimd] using hw)
    | tuple elems =>
      obtain ⟨fields, rfl, hf⟩ := basicTy_tuple h
      exact hfields (hf.imp fun t fty ht => ⟨fty, ht, rfl⟩)
        (by simpa only [isWideSimd, Bool.false_or] using hw)
    | struct sid =>
      obtain ⟨fields, rfl, hf⟩ := basicTy_struct h
      exact hfields (hf.imp fun t fty ht => ⟨fty, ht, rfl⟩)
        (by simpa only [isWideSimd, Bool.false_or] using hw)
    | soa inner =>
      obtain ⟨sid, fields, rfl, ⟨n, rfl, hf⟩ | ⟨rfl, rfl⟩ | ⟨rfl, rfl⟩⟩ := basicTy_soa h
      · refine hfields (hf.imp ?_) (by simpa only [isWideSimd, Bool.false_or] using hw)
        rintro t fty ⟨e, he, rfl⟩
        exact ⟨e, he, by rw [Llvm.Ty.align]⟩
      · simp [isWideSimd] at hw
      · simp [isWideSimd] at hw
    | simd elem lanes =>
      obtain ⟨e, rfl, hbits, _⟩ := basicTy_simd h
      refine wide_vector ?_
      rw [hbits]
      simpa [isWideSimd] using hw
    | _ => simp [isWideSimd] at hw

theorem wordsWith_struct {ar : WordArith} {fuel sid w : Nat}
    (h : wordsWith ar m (fuel + 1) (.struct sid) = .ok w) :
    ∃ ws, w = ar.sum ws ∧
      List.Forall₂ (fun t w => wordsWith ar m fuel t = .ok w) (fieldTys m sid) ws := by
  unfold wordsWith at h
  cases hd : m.structs[sid]? with
  | none =>
    simp only [hd] at h
    cases h
  | some d =>
    simp only [hd] at h
    obtain ⟨ws, hws, h⟩ := except_bind_ok h
    cases h
    refine ⟨ws, rfl, ?_⟩
    rw [fieldTys_of hd, List.forall₂_map_left_iff]
    exact mapM_ok_iff.mp hws

theorem wordsWith_array {ar : WordArith} {fuel n w : Nat} {elem : Ty}
    (h : wordsWith ar m (fuel + 1) (.array elem n) = .ok w) :
    ∃ e, wordsWith ar m fuel elem = .ok e ∧ w = ar.mul e (n % 2 ^ 32) := by
  unfold wordsWith at h
  obtain ⟨e, he, h⟩ := except_bind_ok h
  cases h
  exact ⟨e, he, rfl⟩

/-- A type with neither a wide vector nor several transposed handles by value fits its exact
count of words. -/
theorem fits_of_sound {fuel : Nat} :
    ∀ {t : Ty} {ty : Llvm.Ty} {fuel' w : Nat}, basicTy m fuel t = .ok ty →
      wordsWith .exact m fuel' t = .ok w → someByValue isWideSimd m fuel t = false →
      someByValue (isSoaHandles m) m fuel t = false → FitsWords ty w := by
  induction fuel with
  | zero =>
    intro t ty fuel' w h
    cases h
  | succ fuel ih =>
    intro t ty fuel' w h hw hwide hsoa
    cases fuel' with
    | zero => cases hw
    | succ fuel' =>
      unfold someByValue at hwide hsoa
      rw [Bool.or_eq_false_iff] at hwide hsoa
      have hfields : ∀ {ts : List Ty} {fields : List Llvm.Ty} {ws : List Nat} {k : Nat},
          List.Forall₂ (fun t fty => basicTy m fuel t = .ok fty) ts fields →
          List.Forall₂ (fun t w => wordsWith .exact m k t = .ok w) ts ws →
          (ts.any fun t => someByValue isWideSimd m fuel t) = false →
          (ts.any fun t => someByValue (isSoaHandles m) m fuel t) = false →
          List.Forall₂ FitsWords fields ws := by
        intro ts fields ws k hf hws hwide hsoa
        rw [List.any_eq_false] at hwide hsoa
        refine forall₂_join hf hws fun t ht fty w hfty hw => ?_
        exact ih hfty hw (by simpa using hwide t ht) (by simpa using hsoa t ht)
      cases t with
      | array elem n =>
        obtain ⟨e, he, rfl⟩ := basicTy_array h
        obtain ⟨ew, hew, rfl⟩ := wordsWith_array hw
        exact fits_array _ (ih he hew hwide.2 hsoa.2)
      | tuple elems =>
        obtain ⟨fields, rfl, hf⟩ := basicTy_tuple h
        unfold wordsWith at hw
        obtain ⟨ws, hws, hw⟩ := except_bind_ok hw
        cases hw
        exact fits_struct (hfields hf (mapM_ok_iff.mp hws) hwide.2 hsoa.2)
      | struct sid =>
        obtain ⟨fields, rfl, hf⟩ := basicTy_struct h
        obtain ⟨ws, rfl, hws⟩ := wordsWith_struct hw
        exact fits_struct (hfields hf hws hwide.2 hsoa.2)
      | soa inner =>
        unfold wordsWith at hw
        obtain ⟨sid, fields, rfl, ⟨n, rfl, hf⟩ | ⟨rfl, rfl⟩ | ⟨rfl, rfl⟩⟩ := basicTy_soa h
        · -- the arrays of the fields have the words of the array of drips, in another order
          obtain _ | _ | k := fuel'
          · cases hw
          · obtain ⟨ew, hew, _⟩ := wordsWith_array hw
            cases hew
          · obtain ⟨ew, hew, rfl⟩ := wordsWith_array hw
            obtain ⟨ws, rfl, hws⟩ := wordsWith_struct hew
            have hwide := List.any_eq_false.mp hwide.2
            have hsoa := List.any_eq_false.mp hsoa.2
            have hjoin : List.Forall₂ FitsWords fields (ws.map (· * (n % 2 ^ 32))) := by
              rw [List.forall₂_map_right_iff]
              refine forall₂_join hf hws fun t ht fty w hfty hw => ?_
              obtain ⟨e, he, rfl⟩ := hfty
              exact fits_array _
                (ih he hw (by simpa using hwide t ht) (by simpa using hsoa t ht))
            have hsum := List.sum_map_mul_right ws (fun w => w) (n % 2 ^ 32)
            rw [List.map_id'] at hsum
            have hfits := fits_struct hjoin
            rw [hsum] at hfits
            exact hfits
        · have hlen : (fieldTys m sid).length ≤ 1 := by simpa [isSoaHandles] using hsoa.1
          refine (fits_handles fits_fatPtr _).mono ?_
          obtain _ | k := fuel'
          · cases hw
          · unfold wordsWith at hw
            cases hw
            omega
        · have hlen : (fieldTys m sid).length ≤ 1 := by simpa [isSoaHandles] using hsoa.1
          refine (fits_handles fits_ptr _).mono ?_
          obtain _ | k := fuel'
          · cases hw
          · unfold wordsWith at hw
            cases hw
            omega
      | sum sid =>
        obtain ⟨d, words, hd, hwords, rfl⟩ := basicTy_sum h
        unfold wordsWith at hw
        simp only [hd] at hw
        obtain ⟨es, hes, hw⟩ := except_bind_ok hw
        obtain ⟨us, hus, hwords⟩ := except_bind_ok hwords
        cases hw
        cases hwords
        have hvs := forall₂_join (mapM_ok_iff.mp hus) (mapM_ok_iff.mp hes)
          fun v _ _ _ hx hy => variantWords_le (fun t _ _ => u32_words_le) hx hy
        have hmax := (foldl_max_le hvs (a := 0) (b := 0) (by simp)).1
        refine (fits_sum _).mono ?_
        simp only [WordArith.exact, List.sum_cons, List.sum_nil]
        omega
      | simd elem lanes =>
        obtain ⟨e, rfl, hbits, hone⟩ := basicTy_simd h
        unfold wordsWith at hw
        obtain ⟨ew, hew, hw⟩ := except_bind_ok hw
        cases hw
        obtain _ | k := fuel'
        · cases hew
        · rw [hone] at hew
          cases hew
          simp only [WordArith.exact, Nat.one_mul]
          refine fits_vector ?_
          rw [hbits]
          simpa [isWideSimd] using hwide.1
      | str | slice _ =>
        cases h
        unfold wordsWith at hw
        cases hw
        exact fits_fatPtr
      | tag _ =>
        cases h
        unfold wordsWith at hw
        cases hw
        exact ⟨by decide, by decide⟩
      | int width signed =>
        cases h
        unfold wordsWith at hw
        cases hw
        cases width <;> exact ⟨by decide, by decide⟩
      | void => cases h
      | _ =>
        cases h
        unfold wordsWith at hw
        cases hw
        exact ⟨by decide, by decide⟩

/-- The types of a payload that the word count covers. -/
structure WellEstimated (m : Module) (fuel : Nat) (v : Variant) : Prop where
  narrow : (v.payload.any fun t => someByValue isWideSimd m fuel t) = false
  noHandles : (v.payload.any fun t => someByValue (isSoaHandles m) m fuel t) = false
  small : ∃ w, variantWords .exact (fun t => wordsWith .exact m fuel t) v = .ok w ∧ w < 2 ^ 32

theorem le_foldl_max {ws : List Nat} {w : Nat} (h : w ∈ ws) (a : Nat) : w ≤ ws.foldl max a := by
  have hle : ∀ (xs : List Nat) (b : Nat), b ≤ xs.foldl max b := by
    intro xs
    induction xs with
    | nil => exact fun b => Nat.le_refl b
    | cons x xs ih => exact fun b => Nat.le_trans (Nat.le_max_left b x) (ih _)
  induction ws generalizing a with
  | nil => cases h
  | cons x xs ih =>
    rcases List.mem_cons.mp h with rfl | h
    · exact Nat.le_trans (Nat.le_max_right a w) (hle xs _)
    · exact ih h _

/-- The sum sets aside at least the words of each of its variants. -/
theorem variantWords_le_payload {fuel words : Nat} {d : SumDef} {v : Variant}
    (hwords : sumPayloadWords m fuel d = .ok words) (hv : v ∈ d.variants) :
    ∃ u, variantWords .u32 (fun t => tyWords m fuel t) v = .ok u ∧ u ≤ words := by
  obtain ⟨us, hus, hwords⟩ := except_bind_ok hwords
  cases hwords
  have hf := mapM_ok_iff.mp hus
  obtain ⟨i, hi, rfl⟩ := List.mem_iff_getElem.mp hv
  have hi' : i < us.length := hf.length_eq ▸ hi
  exact ⟨us[i], hf.get hi hi', le_foldl_max (List.getElem_mem hi') 0⟩

theorem fits_of_wellEstimated {fuel words : Nat} {d : SumDef} {v : Variant}
    {payload : List Llvm.Ty} (hwords : sumPayloadWords m fuel d = .ok words)
    (hv : v ∈ d.variants) (hpayload : (v.payload.mapM fun t => basicTy m fuel t) = .ok payload)
    (h : WellEstimated m fuel v) : PayloadFits words payload := by
  obtain ⟨w, hw, hlt⟩ := h.small
  obtain ⟨u, hu, hle⟩ := variantWords_le_payload hwords hv
  have huw := (variantWords_le (fun t _ _ => u32_words_le) hu hw).2 hlt
  obtain ⟨ws, hws, hw⟩ := except_bind_ok hw
  cases hw
  have hnarrow := List.any_eq_false.mp h.narrow
  have hhandles := List.any_eq_false.mp h.noHandles
  have hall : List.Forall₂ FitsWords payload ws :=
    forall₂_join (mapM_ok_iff.mp hpayload) (mapM_ok_iff.mp hws) fun t ht _ _ hty hword =>
      fits_of_sound hty hword (by simpa using hnarrow t ht) (by simpa using hhandles t ht)
  have hfits := (fits_struct hall).mono (huw ▸ hle)
  refine ⟨hfits.1, ?_⟩
  have halign : (Llvm.Ty.array (.int 64) words).align = 8 := by
    rw [Llvm.Ty.align, Llvm.Ty.align]
    rfl
  rw [halign]
  exact Nat.le_of_dvd (by decide) hfits.2

theorem not_fits_of_wide {fuel words : Nat} {v : Variant} {payload : List Llvm.Ty}
    (hpayload : (v.payload.mapM fun t => basicTy m fuel t) = .ok payload)
    (hwide : (v.payload.any fun t => someByValue isWideSimd m fuel t) = true) :
    ¬ PayloadFits words payload := by
  intro hfits
  have hf := mapM_ok_iff.mp hpayload
  obtain ⟨t, ht, hw⟩ := List.any_eq_true.mp hwide
  obtain ⟨i, hi, rfl⟩ := List.mem_iff_getElem.mp ht
  have hi' : i < payload.length := hf.length_eq ▸ hi
  have hlt := wide_align (hf.get hi hi') hw
  have hmax := Llvm.align_le_maxAlign (List.getElem_mem hi')
  have halign := hfits.align
  rw [Llvm.Ty.align, Llvm.Ty.align, Llvm.Ty.align] at halign
  exact absurd (Nat.lt_of_lt_of_le hlt (Nat.le_trans hmax halign)) (by decide)

theorem isSoaHandles_cases {t : Ty} (h : isSoaHandles m t = true) :
    ∃ sid, 1 < (fieldTys m sid).length ∧
      (t = .soa (.slice (.struct sid)) ∨ t = .soa (.vec (.struct sid))) := by
  unfold isSoaHandles at h
  split at h
  · rename_i sid
    exact ⟨sid, by simpa using h, Or.inl rfl⟩
  · rename_i sid
    exact ⟨sid, by simpa using h, Or.inr rfl⟩
  · cases h

/-- Several handles do not fit the words of one. -/
theorem not_fits_handles {α : Type} {handle : Llvm.Ty} {w : Nat} (hsize : handle.size = 8 * w)
    (hw : 0 < w) {xs : List α} (hxs : 1 < xs.length) :
    ¬ PayloadFits w [.struct (xs.map fun _ => handle)] := by
  intro hfits
  have hinner := Llvm.sum_le_struct_size (xs.map fun _ => handle)
  have houter := Llvm.sum_le_struct_size [.struct (xs.map fun _ => handle)]
  have hcomp : (Llvm.Ty.size ∘ fun _ : α => handle) = fun _ => 8 * w := funext fun _ => hsize
  have hsum : ((xs.map fun _ => handle).map Llvm.Ty.size).sum = xs.length * (8 * w) := by
    rw [List.map_map, hcomp, List.map_const', List.sum_replicate_nat]
  have hmul := Nat.mul_le_mul_right (8 * w) hxs
  have hfit := hfits.size
  simp only [List.map_cons, List.map_nil, List.sum_cons, List.sum_nil] at houter
  omega

/-- In a sum with one variant of one such bundle, the words are those of one handle. -/
theorem not_fits_of_soaHandles {fuel words : Nat} {d : SumDef} {v : Variant} {t : Ty}
    {payload : List Llvm.Ty} (hwords : sumPayloadWords m fuel d = .ok words)
    (hpayload : (v.payload.mapM fun t => basicTy m fuel t) = .ok payload)
    (hd : d.variants = [v]) (ht : v.payload = [t]) (hsoa : isSoaHandles m t = true) :
    ¬ PayloadFits words payload := by
  unfold sumPayloadWords at hwords
  rw [hd] at hwords
  rw [ht] at hpayload
  obtain ⟨us, hus, hwords⟩ := except_bind_ok hwords
  cases hwords
  cases mapM_ok_iff.mp hus with
  | cons hu hnil =>
  cases hnil
  obtain ⟨ks, hks, hu⟩ := except_bind_ok hu
  cases hu
  rw [ht] at hks
  cases mapM_ok_iff.mp hks with
  | cons hk hnil =>
  cases hnil
  cases mapM_ok_iff.mp hpayload with
  | cons hty hnil =>
  cases hnil
  obtain ⟨sid, hsid, rfl | rfl⟩ := isSoaHandles_cases hsoa
  · obtain _ | _ | fuel := fuel
    · cases hty
    · cases hk
    · cases hk
      obtain ⟨_, _, rfl, ⟨_, hc, _⟩ | ⟨hc, rfl⟩ | ⟨hc, _⟩⟩ := basicTy_soa hty <;> cases hc
      exact not_fits_handles (by decide) (by decide) hsid
  · obtain _ | _ | fuel := fuel
    · cases hty
    · cases hk
    · cases hk
      obtain ⟨_, _, rfl, ⟨_, hc, _⟩ | ⟨hc, _⟩ | ⟨hc, rfl⟩⟩ := basicTy_soa hty <;> cases hc
      exact not_fits_handles (by decide) (by decide) hsid

/-- A payload whose types the word count covers stays inside its sum; one with a vector of several
words never does, nor does a bundle of several transposed handles on its own. -/
theorem payload_fits {fuel words : Nat} {d : SumDef} {v : Variant} {payload : List Llvm.Ty}
    (hwords : sumPayloadWords m fuel d = .ok words) (hv : v ∈ d.variants)
    (hpayload : (v.payload.mapM fun t => basicTy m fuel t) = .ok payload) :
    (WellEstimated m fuel v → PayloadFits words payload) ∧
      ((v.payload.any fun t => someByValue isWideSimd m fuel t) = true →
        ¬ PayloadFits words payload) ∧
      (d.variants = [v] → (∃ t, v.payload = [t] ∧ isSoaHandles m t = true) →
        ¬ PayloadFits words payload) := by
  refine ⟨fits_of_wellEstimated hwords hv hpayload, not_fits_of_wide hpayload, ?_⟩
  rintro hd ⟨t, ht, hsoa⟩
  exact not_fits_of_soaHandles hwords hpayload hd ht hsoa

/-- `drip P { x: int, y: int }`. -/
def dripPair : Module :=
  { structs := [{ name := "P", fields := [
      { name := "x", ty := .int .w64 true, vis := .flex },
      { name := "y", ty := .int .w64 true, vis := .flex }] }]
    sums := []
    externs := []
    globals := []
    cribGlobals := []
    funcs := [] }

def boxed (payload : List Ty) : Variant := { name := "Box", payload := payload }

def sumByteStr : SumDef := { name := "M", variants := [boxed [.int .w8 false, .str]] }

/-- A byte and a string in a variant. -/
theorem payload_fits_byte_str : PayloadFits 3 [.int 8, fatPtrTy] := by
  have hwords : sumPayloadWords dripPair 2 sumByteStr = .ok 3 := rfl
  have hmem : boxed [.int .w8 false, .str] ∈ sumByteStr.variants := List.mem_singleton.mpr rfl
  exact (payload_fits hwords hmem rfl).1
    { narrow := rfl, noHandles := rfl, small := ⟨3, rfl, by decide⟩ }

/-- `moods M { Box(soa vec[P]) }`: two handles in one word. -/
theorem soa_vec_payload_overflows :
    sumPayloadWords dripPair 4 { name := "M", variants := [boxed [.soa (.vec (.struct 0))]] } = .ok 1 ∧
      basicTy dripPair 4 (.soa (.vec (.struct 0))) = .ok (.struct [.ptr, .ptr]) ∧
      (Llvm.Ty.struct [.struct [.ptr, .ptr]]).size = 16 ∧
      ¬ PayloadFits 1 [.struct [.ptr, .ptr]] :=
  ⟨rfl, rfl, by decide, fun h => absurd h.size (by decide)⟩

end BetLang.Codegen
