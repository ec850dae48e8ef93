import BetLang.CodegenTy
import BetLang.CribZero
import BetLang.Sequencing

/-! The code that `cop` into a typed crib becomes: reserve a slot, resolve its storage, store
the initialiser there. -/

namespace BetLang.Codegen

open Ir

inductive StoredValue (V : Type) where
  | discriminant (variant : Nat)
  | operand (v : V)
  deriving DecidableEq, Repr

/-- An executed store: the pointer it addresses from, the byte offset, the value. -/
structure Store (V : Type) where
  ptr : Nat
  offset : Nat
  value : StoredValue V
  deriving DecidableEq, Repr

structure CopRun (V : Type) where
  crib : TypedCrib
  tag : Tag
  stores : List (Store V)
  deriving DecidableEq, Repr

variable {V : Type}

/-- `struct_gep` relative to its base. -/
def gepOffset (layout : Llvm.DataLayout) (fields : List Llvm.Ty) (i : Nat) (msg : String) :
    Except String Nat :=
  if i < fields.length then .ok (layout.fieldOffset fields i) else .error msg

/-- What a struct literal stores, and where in the slot. -/
def structWrites (m : Module) (fuel : Nat) (layout : Llvm.DataLayout) (value : Operand → V)
    (sid : Nat) (fields : List (Nat × Operand)) : Except String (List (Nat × StoredValue V)) := do
  let sty ← structFields m fuel (.struct sid)
  fields.mapM fun (fidx, op) => do
    let off ← gepOffset layout sty fidx s!"bad field index {fidx} in cop"
    return (off, .operand (value op))

/-- `store_sum_into`: the discriminant, then the payload through the variant's own layout. -/
def sumWrites (m : Module) (fuel : Nat) (layout : Llvm.DataLayout) (value : Operand → V)
    (sum variant : Nat) (ops : List Operand) : Except String (List (Nat × StoredValue V)) := do
  match m.sums[sum]? with
  | none => throw "bad sum id"
  | some d =>
    let sty ← sumLlvmTy m fuel d
    let tagOff ← gepOffset layout sty 0 "sum tag gep"
    if ops = [] then return [(tagOff, .discriminant variant)]
    else
      match d.variants[variant]? with
      | none => throw "bad variant"
      | some v =>
        let vps ← v.payload.mapM fun t => basicTy m fuel t
        let payloadOff ← gepOffset layout sty 1 "sum payload gep"
        let writes ← ops.mapIdxM fun j op => do
          let off ← gepOffset layout vps j s!"sum payload field {j} gep"
          return (payloadOff + off, .operand (value op))
        return (tagOff, .discriminant variant) :: writes

/-- `lower_cop` into a typed crib, as what running the emitted code does. -/
def lowerCop (m : Module) (fuel : Nat) (layout : Llvm.DataLayout) (value : Operand → V)
    (init : CopInit) : Except String (TypedCrib → CopRun V) := do
  let writes ← match init with
    | .structLit sid fields => structWrites m fuel layout value sid fields
    | .sumVariant sum variant ops => sumWrites m fuel layout value sum variant ops
  return fun crib =>
    let (crib, tag) := betCop crib
    let storage := betHollaCheck crib tag
    { crib, tag, stores := writes.map fun (offset, value) => { ptr := storage, offset, value } }

/-- The initialiser goes only through the non-null storage of the slot that the yielded tag names,
and with every slot occupied the tag is null and nothing is written. -/
structure CopSound (before : TypedCrib) (r : CopRun V) : Prop where
  stores : ∀ s ∈ r.stores, s.ptr ≠ 0 ∧ r.crib.live r.tag = true ∧
    s.ptr = r.crib.base + r.tag.slot.toNat * r.crib.elemSize
  full : (∀ m ∈ before.slots, m.occupied = true) → r.tag = Tag.null ∧ r.stores = []

/-- A struct literal without fields. -/
def writesNothing : CopInit → Bool
  | .structLit _ fields => fields.isEmpty
  | .sumVariant _ _ _ => false

variable {m : Module} {fuel : Nat} {layout : Llvm.DataLayout} {value : Operand → V}

theorem sumWrites_ne_nil {sum variant : Nat} {ops : List Operand}
    {writes : List (Nat × StoredValue V)}
    (h : sumWrites m fuel layout value sum variant ops = .ok writes) : writes ≠ [] := by
  unfold sumWrites at h
  split at h
  · cases h
  · obtain ⟨sty, _, h⟩ := except_bind_ok h
    obtain ⟨off, _, h⟩ := except_bind_ok h
    split at h
    · cases h
      simp
    · split at h
      · cases h
      · obtain ⟨_, _, h⟩ := except_bind_ok h
        obtain ⟨_, _, h⟩ := except_bind_ok h
        obtain ⟨_, _, h⟩ := except_bind_ok h
        cases h
        simp

theorem lowerCop_writes {init : CopInit} {emit : TypedCrib → CopRun V}
    (h : lowerCop m fuel layout value init = .ok emit) :
    ∃ writes : List (Nat × StoredValue V), (writes = [] ↔ writesNothing init = true) ∧
      ∀ crib, emit crib =
        { crib := (betCop crib).1, tag := (betCop crib).2,
          stores := writes.map fun w =>
            { ptr := betHollaCheck (betCop crib).1 (betCop crib).2, offset := w.1, value := w.2 } } := by
  unfold lowerCop at h
  cases init with
  | structLit sid fields =>
    obtain ⟨writes, hw, h⟩ := except_bind_ok h
    cases h
    refine ⟨writes, ?_, fun crib => rfl⟩
    obtain ⟨sty, _, hw⟩ := except_bind_ok hw
    have hlen := (mapM_ok_iff.mp hw).length_eq
    rw [writesNothing, List.isEmpty_iff, ← List.length_eq_zero_iff, ← List.length_eq_zero_iff, hlen]
  | sumVariant sum variant ops =>
    obtain ⟨writes, hw, h⟩ := except_bind_ok h
    cases h
    refine ⟨writes, ?_, fun crib => rfl⟩
    simp [writesNothing, sumWrites_ne_nil hw]

theorem base_eq_zero_iff {alloc : Nat → Nat → Nat} (halloc : ∀ size align, alloc size align ≠ 0)
    (elemSize elemAlign : Nat) {capacity : BitVec 32} (hcap : 0 < capacity.toNat) :
    (betCribNew alloc elemSize elemAlign capacity).base = 0 ↔ elemSize = 0 := by
  have htotal : saturatingMul elemSize capacity.toNat = 0 ↔ elemSize = 0 := by
    rcases Nat.eq_zero_or_pos elemSize with rfl | hpos
    · simp [saturatingMul]
    · have hmul := Nat.mul_pos hpos hcap
      unfold saturatingMul
      omega
  simp only [betCribNew]
  split
  · rename_i h
    exact ⟨fun _ => htotal.mp h, fun _ => rfl⟩
  · rename_i h
    exact ⟨fun hz => absurd hz (halloc _ _), fun hz => absurd (htotal.mpr hz) h⟩

/-- In every state of every crib, the code of a `cop` is sound exactly when the initialiser writes
nothing or a slot is free and its storage is not empty. -/
theorem lowerCop_sound_iff {alloc : Nat → Nat → Nat} (halloc : ∀ size align, alloc size align ≠ 0)
    (elemSize elemAlign : Nat) (capacity : BitVec 32) (ops : List CribOp) (init : CopInit)
    {emit : TypedCrib → CopRun V} (hemit : lowerCop m fuel layout value init = .ok emit) :
    let c := (betCribNew alloc elemSize elemAlign capacity).run ops
    CopSound c (emit c) ↔
      (writesNothing init = true ∨ ((∃ s ∈ c.slots, s.occupied = false) ∧ elemSize ≠ 0)) := by
  intro c
  have hc : CribInv c := cribInv_run (cribInv_new alloc elemSize elemAlign capacity) ops
  obtain ⟨hbase, hsize, hlen⟩ := run_frame (betCribNew alloc elemSize elemAlign capacity) ops
  obtain ⟨writes, hnil, hrun⟩ := lowerCop_writes hemit
  have hfull := free_nil_iff_full hc
  have hfree : (∃ s ∈ c.slots, s.occupied = false) ↔ c.free ≠ [] := by
    rw [ne_eq, hfull]
    simp
  rw [hfree, ← hnil, hrun c]
  rcases betCop_cases hc with ⟨hf, he⟩ | ⟨rest, s, sm, hf, hs, ho, he⟩
  · -- full: the null tag resolves to no storage
    have hdead : betHollaCheck c Tag.null = 0 := (dead_iff_not_live.mpr (live_null hc)).1
    rw [he]
    constructor
    · intro h
      exact Or.inl (List.map_eq_nil_iff.mp (h.full (hfull.mp hf)).2)
    · rintro (hw | ⟨hne, _⟩)
      · rw [hw]
        exact ⟨by simp, fun _ => ⟨rfl, rfl⟩⟩
      · exact absurd hf hne
  · have hne : c.free ≠ [] := by simp [hf]
    have hlt := (List.getElem?_eq_some_iff.mp hs).1
    have hcap : 0 < capacity.toNat := by
      have hslots : c.slots.length = capacity.toNat := hlen.trans (by simp [betCribNew])
      omega
    have hnull : (betCop c).2 ≠ Tag.null := fun hn => hne ((betCop_null_iff hc).mp hn)
    have hlive := live_cop hc hnull
    obtain ⟨hb, hsz, _⟩ := exec_frame c .cop
    simp only [CribOp.exec] at hb hsz
    have hzero := base_eq_zero_iff halloc elemSize elemAlign hcap
    constructor
    · intro h
      by_cases hw : writes = []
      · exact Or.inl hw
      · obtain ⟨w, ws, rfl⟩ := List.exists_cons_of_ne_nil hw
        refine Or.inr ⟨hne, fun hz => ?_⟩
        have hptr := (h.stores _ (List.mem_map.mpr ⟨w, by simp, rfl⟩)).1
        refine hptr ?_
        have hb0 : (betCop c).1.base = 0 := by rw [hb, hbase, hzero.mpr hz]
        unfold betHollaCheck
        split
        · rfl
        · rw [if_neg]
          exact fun hh => hh.2.2 hb0
    · rintro (hw | ⟨_, hpos⟩)
      · rw [hw]
        exact ⟨by simp, fun hall => absurd (hfull.mpr hall) hne⟩
      · have hb0 : (betCop c).1.base ≠ 0 := by
          rw [hb, hbase]
          exact fun hz => hpos (hzero.mp hz)
        have hptr : betHollaCheck (betCop c).1 (betCop c).2 =
            (betCop c).1.base + (betCop c).2.slot.toNat * (betCop c).1.elemSize := by
          rw [betHollaCheck_eq hb0, if_pos hlive]
        refine ⟨fun st hst => ?_, fun hall => absurd (hfull.mpr hall) hne⟩
        obtain ⟨w, _, rfl⟩ := List.mem_map.mp hst
        refine ⟨?_, hlive, hptr⟩
        dsimp only
        rw [hptr]
        omega

/-- `drip P { v: int }`. -/
def dripP : Module :=
  { structs := [{ name := "P", fields := [{ name := "v", ty := .int .w64 true, vis := .flex }] }]
    sums := []
    externs := []
    globals := []
    cribGlobals := []
    funcs := [] }

/-- Every field of `dripP` is a word. -/
def wordLayout : Llvm.DataLayout :=
  { allocSize := fun _ => 8, fieldOffset := fun _ i => 8 * i }

/-- `P{v: 2}`. -/
def initP : CopInit := .structLit 0 [(0, .const (.int 2 (.int .w64 true)))]

/-- What `cop P{v: 2}` into a typed crib runs as. -/
def copP (crib : TypedCrib) : CopRun Operand :=
  { crib := (betCop crib).1
    tag := (betCop crib).2
    stores := [{ ptr := betHollaCheck (betCop crib).1 (betCop crib).2, offset := 0,
                 value := .operand (.const (.int 2 (.int .w64 true))) }] }

theorem lowerCop_initP : lowerCop dripP 2 wordLayout id initP = .ok copP := rfl

/-- The first `cop` into a crib of one slot is sound. -/
theorem copP_sound_first :
    CopSound ((betCribNew (fun _ _ => 4096) 8 8 1).run [])
      (copP ((betCribNew (fun _ _ => 4096) 8 8 1).run [])) :=
  (lowerCop_sound_iff (fun _ _ => by decide) 8 8 1 [] initP lowerCop_initP).mpr
    (Or.inr ⟨⟨{ occupied := false, generation := 0 }, by decide, rfl⟩, by decide⟩)

/-- The second `cop` into a crib of one slot stores the initialiser through null. -/
theorem copP_past_capacity_stores_null :
    lowerCop dripP 2 wordLayout id initP = .ok copP ∧
      ∃ st ∈ (copP ((betCribNew (fun _ _ => 4096) 8 8 1).run [.cop])).stores, st.ptr = 0 :=
  ⟨rfl, _, List.mem_singleton.mpr rfl, by decide⟩

end BetLang.Codegen
