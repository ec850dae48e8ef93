import BetLang.BumpCrib
import BetLang.CodegenInt
import BetLang.IntStorage
import BetLang.Sequencing
import BetLang.SoaVec

/-! `mem.slab`: the allocation that lowering requests for a run-time count of elements, against
the distance at which codegen addresses them. -/

namespace BetLang.MemSlab

open Bump (layoutOk isizeMax)
open Codegen (basicTy lowerCastInt)
open Ir (Ty IntWidth Module)
open Llvm (Outcome gepIndex)
open Lower (castKindInt)
open SoaVec (isAggregate)

/-- An element count, at its own type. -/
structure Count where
  width : IntWidth
  signed : Bool
  value : BitVec width.bits

def Count.num (c : Count) : Int := if c.signed then c.value.toInt else c.value.toNat

/-- `coerce_int` to `usize`. -/
def Count.usize (c : Count) : Outcome (BitVec 64) :=
  lowerCastInt c.value 64 (castKindInt c.width c.signed .w64)

/-- A call of `bet_alloc_zeroed`, and the elements that its result is addressed by. -/
structure Request where
  elem : Llvm.Ty
  bytes : BitVec 64
  align : BitVec 64

/-- The types that get a buffer of their own: the element, or each field of a drip. -/
def bufferTys (m : Module) (e : Ty) : Except String (List Ty) :=
  match e with
  | .struct sid =>
    match m.structs[sid]? with
    | none => .error "bad struct id"
    | some d =>
      match d.fields.find? fun f => isAggregate f.ty with
      | some f => .error (s!"soa mem.slab needs scalar-shaped fields — drip field `{f.name}` is " ++
          "an aggregate. keep soa slab drips flat (ints/floats/bools/handles).")
      | none => .ok (d.fields.map fun f => f.ty)
  | _ => .ok [e]

/-- `bytes = n * esize` wraps, and the size is the alignment. -/
def request (m : Module) (fuel : Nat) (n : BitVec 64) (ty : Ty) : Except String Request := do
  let elem ← basicTy m fuel ty
  let esize := BitVec.ofNat 64 elem.storeSize
  return { elem := elem, bytes := n * esize, align := esize }

/-- `lower_mem_slab` and `lower_mem_slab_soa`, for a count already coerced. -/
def lowerMemSlab (m : Module) (fuel : Nat) (e : Ty) (n : BitVec 64) :
    Except String (List Request) := do
  (← bufferTys m e).mapM (request m fuel n)

/-- The alignment that the runtime asks the system for. -/
def Request.alignment (r : Request) : Nat := max r.align.toNat 1

/-- The runtime ends the process on an invalid layout. -/
def Request.Dies (r : Request) : Prop := layoutOk r.bytes.toNat r.alignment = false

instance (r : Request) : Decidable r.Dies := inferInstanceAs (Decidable (_ = _))

/-- The request has room for `n` elements, where codegen addresses them. -/
structure Request.Covers (r : Request) (n : BitVec 64) : Prop where
  bytes : n.toNat * r.elem.size ≤ r.bytes.toNat
  pow_two : ∃ k, r.alignment = 2 ^ k
  align : r.elem.align ≤ r.alignment
  addresses : ∀ base i : BitVec 64, base.toNat + r.bytes.toNat ≤ 2 ^ 64 → i.toNat < n.toNat →
    base.toNat ≤ (gepIndex r.elem.size base i).toNat ∧
      (gepIndex r.elem.size base i).toNat + r.elem.size ≤ base.toNat + r.bytes.toNat

/-- The buffers cover their elements, or the process ends for a count below 0 or one of which no
allocation could hold the elements. -/
def Covered (c : Count) (n : BitVec 64) (reqs : List Request) : Prop :=
  (∀ r ∈ reqs, r.Covers n) ∨
    (∃ r ∈ reqs, r.Dies) ∧ (c.num < 0 ∨ ∃ r ∈ reqs, isizeMax < n.toNat * r.elem.size)

/-- The elements need no bytes, or each is a power of two of them and all are fewer than half
of the address space. -/
def Fits (n : Nat) (t : Llvm.Ty) : Prop :=
  t.storeSize = 0 ∧ t.align = 1 ∧ n * t.size = 0 ∨ ∃ k, t.storeSize = 2 ^ k ∧ n < 2 ^ (63 - k)

/-- The size is no alignment, or the wrapped number of bytes is at least half of the address space. -/
def Rejected (n : Nat) (t : Llvm.Ty) : Prop :=
  t.storeSize ≠ 0 ∧ (∀ k, t.storeSize ≠ 2 ^ k) ∨
    ∃ k, t.storeSize = 2 ^ k ∧ 2 ^ (63 - k) ≤ n % 2 ^ (64 - k)

section Requests

variable {n : BitVec 64} {r : Request} {k : Nat}

/-- What lowering makes of a count and a type. -/
def Request.Emitted (r : Request) (n : BitVec 64) : Prop :=
  r.bytes = n * BitVec.ofNat 64 r.elem.storeSize ∧ r.align = BitVec.ofNat 64 r.elem.storeSize

theorem lowerMemSlab_emitted {m : Module} {fuel : Nat} {e : Ty} {reqs : List Request}
    (h : lowerMemSlab m fuel e n = .ok reqs) : ∀ r ∈ reqs, r.Emitted n := by
  obtain ⟨tys, _, h⟩ := except_bind_ok h
  have h := mapM_ok_iff.mp h
  intro r hr
  obtain ⟨i, hi, rfl⟩ := List.getElem_of_mem hr
  have hty := (List.forall₂_iff_get.mp h).2 i (h.length_eq ▸ hi) hi
  obtain ⟨t, _, hty⟩ := except_bind_ok hty
  have hreq := Except.ok.inj hty
  rw [List.get_eq_getElem] at hreq
  rw [Request.Emitted, ← hreq]
  exact ⟨rfl, rfl⟩

theorem storeSize_toNat (hsize : r.elem.size < 2 ^ 61) :
    (BitVec.ofNat 64 r.elem.storeSize).toNat = r.elem.storeSize := by
  have hle := Llvm.storeSize_le_size r.elem
  rw [BitVec.toNat_ofNat, Nat.mod_eq_of_lt (by omega)]

theorem alignment_eq (he : r.Emitted n) (hsize : r.elem.size < 2 ^ 61) :
    r.alignment = max r.elem.storeSize 1 := by
  rw [Request.alignment, he.2, storeSize_toNat hsize]

theorem bytes_eq (he : r.Emitted n) (hsize : r.elem.size < 2 ^ 61) :
    r.bytes.toNat = n.toNat * r.elem.storeSize % 2 ^ 64 := by
  rw [he.1, BitVec.toNat_mul, storeSize_toNat hsize]

theorem exponent_le (hsize : r.elem.size < 2 ^ 61) (hk : r.elem.storeSize = 2 ^ k) : k ≤ 60 := by
  rw [Llvm.size_of_storeSize hk] at hsize
  exact Nat.le_of_lt_succ ((Nat.pow_lt_pow_iff_right (by decide)).mp hsize)

/-- Elements of a power of two of bytes: their number keeps the bits that are not shifted out. -/
theorem bytes_pow (he : r.Emitted n) (hsize : r.elem.size < 2 ^ 61)
    (hk : r.elem.storeSize = 2 ^ k) : r.bytes.toNat = n.toNat % 2 ^ (64 - k) * 2 ^ k := by
  have hle := exponent_le hsize hk
  have hpow : 2 ^ 64 = 2 ^ (64 - k) * 2 ^ k := by rw [← Nat.pow_add, Nat.sub_add_cancel (by omega)]
  rw [bytes_eq he hsize, hk, hpow, Nat.mul_mod_mul_right]

theorem alignment_pow (he : r.Emitted n) (hsize : r.elem.size < 2 ^ 61)
    (hk : r.elem.storeSize = 2 ^ k) : r.alignment = 2 ^ k := by
  rw [alignment_eq he hsize, hk, Nat.max_eq_left (Nat.two_pow_pos k)]

/-- Half of the address space, less an element, in elements. -/
theorem mul_pow_le_iff {x : Nat} (hk : k ≤ 60) :
    max (x * 2 ^ k) 1 ≤ isizeMax + 1 - 2 ^ k ↔ x < 2 ^ (63 - k) := by
  have hpow : isizeMax + 1 = 2 ^ (63 - k) * 2 ^ k := by
    rw [← Nat.pow_add, Nat.sub_add_cancel (by omega)]
    rfl
  have hpos := Nat.two_pow_pos k
  have hroom : 2 ≤ 2 ^ (63 - k) := Nat.le_self_pow (by omega) 2
  have hroom' := Nat.mul_le_mul_right (2 ^ k) hroom
  rw [hpow, Nat.max_le, Nat.le_sub_iff_add_le (by omega), ← Nat.succ_mul,
    Nat.mul_le_mul_right_iff hpos]
  omega

theorem dies_iff (he : r.Emitted n) (hsize : r.elem.size < 2 ^ 61) :
    r.Dies ↔ Rejected n.toNat r.elem := by
  rw [Request.Dies, layoutOk, Bool.and_eq_false_iff, decide_eq_false_iff_not,
    decide_eq_false_iff_not]
  by_cases hpow : ∃ k, r.elem.storeSize = 2 ^ k
  · obtain ⟨k, hk⟩ := hpow
    have hle := exponent_le hsize hk
    rw [alignment_pow he hsize hk, bytes_pow he hsize hk, mul_pow_le_iff hle, Nat.not_lt]
    constructor
    · rintro (h | h)
      · exact absurd ⟨k, rfl⟩ h
      · exact Or.inr ⟨k, hk, h⟩
    · rintro (⟨_, h⟩ | ⟨k', hk', h⟩)
      · exact absurd hk (h k)
      · obtain rfl : k = k' := Nat.pow_right_injective (Nat.le_refl 2) (hk.symm.trans hk')
        exact Or.inr h
  · have hnot : ∀ k, r.elem.storeSize ≠ 2 ^ k := fun k hk => hpow ⟨k, hk⟩
    by_cases hzero : r.elem.storeSize = 0
    · rw [alignment_eq he hsize, bytes_eq he hsize, hzero, Nat.mul_zero]
      constructor
      · rintro (h | h)
        · exact absurd ⟨0, rfl⟩ h
        · exact absurd (by decide) h
      · rintro (⟨h, _⟩ | ⟨k, hk, _⟩)
        · exact absurd hzero h
        · exact absurd hk (hnot k)
    · have hmax : max r.elem.storeSize 1 = r.elem.storeSize := Nat.max_eq_left (by omega)
      rw [alignment_eq he hsize, hmax]
      exact ⟨fun _ => Or.inl ⟨hzero, hnot⟩, fun _ => Or.inl fun ⟨k, hk⟩ => hnot k hk⟩

/-- The elements lie one after the other from the base on. -/
theorem gepIndex_within {base i : BitVec 64} {size bytes : Nat} (hsize : size < 2 ^ 64)
    (hbytes : n.toNat * size ≤ bytes) (hspace : base.toNat + bytes ≤ 2 ^ 64)
    (hi : i.toNat < n.toNat) :
    base.toNat ≤ (gepIndex size base i).toNat ∧
      (gepIndex size base i).toNat + size ≤ base.toNat + bytes := by
  have hmul : i.toNat * size + size ≤ bytes := by
    rw [← Nat.succ_mul]
    exact Nat.le_trans (Nat.mul_le_mul_right size hi) hbytes
  have hbase := base.isLt
  by_cases hz : size = 0
  · subst hz
    have hat : gepIndex 0 base i = base := by simp [gepIndex]
    rw [hat]
    omega
  · have hat : (gepIndex size base i).toNat = base.toNat + i.toNat * size := by
      rw [gepIndex, BitVec.signExtend_eq, BitVec.toNat_add, BitVec.toNat_mul, BitVec.toNat_ofNat,
        Nat.mod_eq_of_lt hsize, Nat.mod_eq_of_lt (by omega : i.toNat * size < 2 ^ 64),
        Nat.mod_eq_of_lt (by omega)]
    omega

theorem covers_of_fits (he : r.Emitted n) (hsize : r.elem.size < 2 ^ 61)
    (h : Fits n.toNat r.elem) : r.Covers n := by
  have hsize' : r.elem.size < 2 ^ 64 := Nat.lt_trans hsize (by decide)
  obtain ⟨hstore, halign, hzero⟩ | ⟨k, hk, hn⟩ := h
  · have hone : r.alignment = 1 := by
      rw [alignment_eq he hsize, hstore]
      rfl
    have hbytes : n.toNat * r.elem.size ≤ r.bytes.toNat := by
      rw [hzero]
      exact Nat.zero_le _
    exact ⟨hbytes, ⟨0, hone⟩, by rw [hone, halign], fun _ _ => gepIndex_within hsize' hbytes⟩
  · have hle := exponent_le hsize hk
    have hlt : n.toNat < 2 ^ (64 - k) :=
      Nat.lt_of_lt_of_le hn (Nat.pow_le_pow_right (by decide) (by omega))
    have hbytes : n.toNat * r.elem.size ≤ r.bytes.toNat := by
      rw [bytes_pow he hsize hk, Llvm.size_of_storeSize hk, Nat.mod_eq_of_lt hlt]
    have halign : r.elem.align ≤ r.alignment := by
      rw [alignment_pow he hsize hk, ← Llvm.size_of_storeSize hk]
      refine Nat.le_of_dvd ?_ (Llvm.align_dvd_size _)
      rw [Llvm.size_of_storeSize hk]
      exact Nat.two_pow_pos k
    exact ⟨hbytes, ⟨k, alignment_pow he hsize hk⟩, halign,
      fun _ _ => gepIndex_within hsize' hbytes⟩

/-- A covering request of elements of a power of two of bytes has not wrapped. -/
theorem lt_of_covers (he : r.Emitted n) (hsize : r.elem.size < 2 ^ 61)
    (hk : r.elem.storeSize = 2 ^ k) (h : r.Covers n) : n.toNat < 2 ^ (64 - k) := by
  have hbytes := h.bytes
  rw [bytes_pow he hsize hk, Llvm.size_of_storeSize hk,
    Nat.mul_le_mul_right_iff (Nat.two_pow_pos k)] at hbytes
  exact Nat.lt_of_le_of_lt hbytes (Nat.mod_lt _ (Nat.two_pow_pos _))

theorem fits_of_covers (he : r.Emitted n) (hsize : r.elem.size < 2 ^ 61) (h : r.Covers n)
    (hnot : ¬Rejected n.toNat r.elem) : Fits n.toNat r.elem := by
  by_cases hpow : ∃ k, r.elem.storeSize = 2 ^ k
  · obtain ⟨k, hk⟩ := hpow
    have hlt := lt_of_covers he hsize hk h
    refine Or.inr ⟨k, hk, Nat.lt_of_not_le fun hle => hnot (Or.inr ⟨k, hk, ?_⟩)⟩
    rw [Nat.mod_eq_of_lt hlt]
    exact hle
  · have hzero : r.elem.storeSize = 0 := by
      by_contra hne
      exact hnot (Or.inl ⟨hne, fun k hk => hpow ⟨k, hk⟩⟩)
    have hone : r.alignment = 1 := by
      rw [alignment_eq he hsize, hzero]
      rfl
    have halign := h.align
    have hpos := Llvm.align_pos r.elem
    have hbytes := h.bytes
    rw [bytes_eq he hsize, hzero, Nat.mul_zero, Nat.zero_mod] at hbytes
    exact Or.inl ⟨hzero, by omega, Nat.le_zero.mp hbytes⟩

/-- An invalid layout is one of elements that are too many, or of a size that is no alignment. -/
theorem huge_of_covers (he : r.Emitted n) (hsize : r.elem.size < 2 ^ 61) (h : r.Covers n)
    (hrej : Rejected n.toNat r.elem) : isizeMax < n.toNat * r.elem.size := by
  obtain ⟨hne, hnot⟩ | ⟨k, hk, hle⟩ := hrej
  · obtain ⟨k, hk⟩ := h.pow_two
    rw [alignment_eq he hsize, Nat.max_eq_left (by omega)] at hk
    exact absurd hk (hnot k)
  · have hk60 := exponent_le hsize hk
    rw [Nat.mod_eq_of_lt (lt_of_covers he hsize hk h)] at hle
    have hmul := Nat.mul_le_mul_right (2 ^ k) hle
    rw [← Nat.pow_add, Nat.sub_add_cancel (by omega)] at hmul
    rw [Llvm.size_of_storeSize hk, isizeMax]
    omega

end Requests

/-- A count below 0 is coerced to at least half of the address space. -/
theorem usize_of_neg {c : Count} {n : BitVec 64} (hn : c.usize = .ok n) (hneg : c.num < 0) :
    2 ^ 63 ≤ n.toNat := by
  obtain ⟨w, signed, v⟩ := c
  cases signed with
  | false => exact absurd hneg (Int.not_lt.mpr (Int.natCast_nonneg _))
  | true =>
    have hsame : n.toInt = v.toInt := by
      cases w with
      | w8 | w16 | w32 =>
        cases hn
        exact BitVec.toInt_signExtend_of_le (bits_le _)
      | w64 =>
        cases hn
        rfl
    have hlt : n.toInt < 0 := hsame.symm ▸ hneg
    have hmsb : n.msb = true := by rw [BitVec.msb_eq_toInt, decide_eq_true hlt]
    exact BitVec.toNat_ge_of_msb_true hmsb

/-- The allocations of `mem.slab` cover the elements, or end the process for a count that no
allocation could serve, if and only if every size is a power of two that the count does not
multiply past half of the address space, or some request is rejected by the runtime and some
elements would not fit into the address space. -/
theorem slab_covered_iff {m : Module} {fuel : Nat} {e : Ty} {c : Count} {n : BitVec 64}
    {reqs : List Request} (hn : c.usize = .ok n) (h : lowerMemSlab m fuel e n = .ok reqs)
    (hsize : ∀ r ∈ reqs, r.elem.size < 2 ^ 61) :
    Covered c n reqs ↔
      (∀ r ∈ reqs, Fits n.toNat r.elem) ∨
        (∃ r ∈ reqs, Rejected n.toNat r.elem) ∧
          ∃ r ∈ reqs, 2 ^ 63 ≤ n.toNat * r.elem.size := by
  have he := lowerMemSlab_emitted h
  constructor
  · rintro (hcov | ⟨⟨r, hr, hdies⟩, hwhy⟩)
    · by_cases hrej : ∃ r ∈ reqs, Rejected n.toNat r.elem
      · obtain ⟨r, hr, hrej⟩ := hrej
        have hhuge := huge_of_covers (he r hr) (hsize r hr) (hcov r hr) hrej
        rw [isizeMax] at hhuge
        exact Or.inr ⟨⟨r, hr, hrej⟩, r, hr, by omega⟩
      · refine Or.inl fun r hr => fits_of_covers (he r hr) (hsize r hr) (hcov r hr) fun hbad => ?_
        exact hrej ⟨r, hr, hbad⟩
    · have hrej := (dies_iff (he r hr) (hsize r hr)).mp hdies
      refine Or.inr ⟨⟨r, hr, hrej⟩, ?_⟩
      obtain hneg | ⟨r', hr', hhuge⟩ := hwhy
      · have hpos : 0 < r.elem.size := by
          have hle := Llvm.storeSize_le_size r.elem
          obtain ⟨hne, _⟩ | ⟨k, hk, _⟩ := hrej
          · omega
          · have hk0 := Nat.two_pow_pos k
            omega
        exact ⟨r, hr, Nat.le_trans (usize_of_neg hn hneg) (Nat.le_mul_of_pos_right _ hpos)⟩
      · rw [isizeMax] at hhuge
        exact ⟨r', hr', by omega⟩
  · rintro (hfits | ⟨⟨r, hr, hrej⟩, r', hr', hhuge⟩)
    · exact Or.inl fun r hr => covers_of_fits (he r hr) (hsize r hr) (hfits r hr)
    · refine Or.inr ⟨⟨r, hr, (dies_iff (he r hr) (hsize r hr)).mpr hrej⟩, Or.inr ⟨r', hr', ?_⟩⟩
      rw [isizeMax]
      omega

def noItems : Module :=
  { structs := [], sums := [], externs := [], globals := [], cribGlobals := [], funcs := [] }

def intCount (n : Int) : Count := { width := .w64, signed := true, value := BitVec.ofInt 64 n }

/-- `mem.slab[int](4)`. -/
theorem slab_covered_four :
    Covered (intCount 4) 4 [{ elem := .int 64, bytes := 32, align := 8 }] := by
  have h : lowerMemSlab noItems 1 (.int .w64 true) 4 =
      .ok [{ elem := .int 64, bytes := 32, align := 8 }] := rfl
  refine (slab_covered_iff rfl h ?_).mpr (Or.inl ?_)
  · intro r hr
    obtain rfl := List.mem_singleton.mp hr
    decide
  · intro r hr
    obtain rfl := List.mem_singleton.mp hr
    exact Or.inr ⟨3, by decide, by decide⟩

/-- `mem.slab[int](1 << 61)` requests no bytes, and `mem.slab[vec3](10)` an alignment of 12. -/
theorem slab_wraps_and_misaligns :
    (lowerMemSlab noItems 1 (.int .w64 true) (BitVec.ofNat 64 (2 ^ 61)) =
        .ok [{ elem := .int 64, bytes := 0, align := 8 }] ∧
      ¬Covered (intCount (2 ^ 61)) (BitVec.ofNat 64 (2 ^ 61))
        [{ elem := .int 64, bytes := 0, align := 8 }]) ∧
      lowerMemSlab noItems 2 (.simd .f32 3) 10 =
          .ok [{ elem := .vector .float 3, bytes := 120, align := 12 }] ∧
        ¬Covered (intCount 10) 10 [{ elem := .vector .float 3, bytes := 120, align := 12 }] := by
  refine ⟨⟨rfl, ?_⟩, rfl, ?_⟩
  · rintro (h | ⟨⟨r, hr, hdies⟩, _⟩)
    · exact absurd (h _ List.mem_cons_self).bytes (by decide)
    · obtain rfl := List.mem_singleton.mp hr
      exact absurd hdies (by decide)
  · rintro (h | ⟨_, hneg | ⟨r, hr, hhuge⟩⟩)
    · have hpow : ¬Nat.isPowerOfTwo 12 := by decide
      exact hpow (h _ List.mem_cons_self).pow_two
    · exact absurd hneg (by decide)
    · obtain rfl := List.mem_singleton.mp hr
      exact absurd hhuge (by decide)

end BetLang.MemSlab
