import BetLang.CodegenPlace
import BetLang.Sequencing
import BetLang.Validate
import Mathlib.Tactic.Ring

/-! The bounds check zero-extends an index and the address computation sign-extends it: when
the two denote the same element, over every index step of every place. -/

namespace BetLang.Codegen

open Ir
open Llvm (Outcome IntPredicate icmp gepIndex DataLayout Memory)

/-- The index at its own type. -/
def IndexEvent.value (e : IndexEvent) : Int :=
  if e.signed then e.idx.toInt else e.idx.toNat

/-- The step traps, or addresses exactly the element the index names, which exists. -/
def IndexEvent.Sound (e : IndexEvent) : Prop :=
  (∃ msg, e.result = .trap msg) ∨
    (0 ≤ e.value ∧ e.value < e.len.toNat ∧
      e.result = .ok (e.base + BitVec.ofInt 64 (e.value * e.stride)))

/-- Both widenings denote one element: the top bit is clear, the check traps anyway, or an
unsigned index is as wide as an address (or its elements as small). -/
def IndexEvent.WidensAlike (e : IndexEvent) : Prop :=
  e.idx.msb = false ∨ e.len.toNat ≤ e.idx.toNat ∨
    (e.signed = false ∧ 2 ^ e.width * e.stride % 2 ^ 64 = 0)

instance (e : IndexEvent) : Decidable e.WidensAlike :=
  inferInstanceAs (Decidable (_ ∨ _ ∨ _))

/-- What the walk records: the result of the emitted check and address computation. -/
structure IndexEvent.Emitted (e : IndexEvent) : Prop where
  width_le : e.width ≤ 64
  result_eq : e.result = do
    boundsCheck e.idx e.len e.mode
    return gepIndex e.stride e.base e.idx

def Run.Emitted {α : Type} (r : Run α) : Prop := ∀ e ∈ r.events, e.Emitted

theorem Run.emitted_pure {α : Type} (a : α) : (Run.pure a).Emitted := by
  intro e he
  cases he

theorem Run.emitted_bind {α β : Type} {r : Run α} {f : α → Run β} (hr : r.Emitted)
    (hf : ∀ a, (f a).Emitted) : (r.bind f).Emitted := by
  intro e he
  unfold Run.bind at he
  split at he
  · rcases List.mem_append.mp he with he | he
    · exact hr e he
    · exact hf _ e he
  · exact hr e he
  · exact hr e he

theorem checkedIndex_emitted {w : Nat} (hw : w ≤ 64) (signed : Bool) (idx : BitVec w)
    (len base : BitVec 64) (stride : Nat) (mode : IndexMode) :
    (checkedIndex signed idx len base stride mode).Emitted := by
  intro e he
  simp only [checkedIndex, List.mem_singleton] at he
  subst he
  exact ⟨hw, rfl⟩

theorem indexWidth_le {ty : Ty} {w : Nat} {signed : Bool} (h : indexWidth ty = .ok (w, signed)) :
    w ≤ 64 := by
  unfold indexWidth at h
  split at h
  · rename_i width s
    cases h
    cases width <;> decide
  · cases h
    decide
  · cases h

/-- What every index operand satisfies. -/
def IndexOperand.Ok (o : IndexOperand) : Prop := o.width ≤ 64 ∧ o.run.Emitted

theorem lowerConstIndex_ok {c : Const} {o : IndexOperand} (h : lowerConstIndex c = .ok o) : o.Ok := by
  unfold lowerConstIndex at h
  split at h
  · obtain ⟨⟨w, s⟩, hw, h⟩ := except_bind_ok h
    cases h
    exact ⟨indexWidth_le hw, Run.emitted_pure _⟩
  · cases h
    exact ⟨show 1 ≤ 64 by decide, Run.emitted_pure _⟩
  · cases h

theorem structGep_emitted {cx : Cx} {fields : List Llvm.Ty} {ptr r : Run (BitVec 64)} {i : Nat}
    (hp : ptr.Emitted) (h : structGep cx fields ptr i = .ok r) : r.Emitted := by
  unfold structGep at h
  split at h
  · cases h
    exact Run.emitted_bind hp fun _ => Run.emitted_pure _
  · cases h

theorem payloadField_emitted {cx : Cx} {sid v i : Nat} {ptr r : Run (BitVec 64)} {ty : Ty}
    (hp : ptr.Emitted) (h : payloadField cx sid v i ptr = .ok (r, ty)) : r.Emitted := by
  obtain ⟨payload, _, h⟩ := except_bind_ok h
  obtain ⟨vps, _, h⟩ := except_bind_ok h
  obtain ⟨q, hq, h⟩ := except_bind_ok h
  split at h
  · cases h
    exact structGep_emitted hp hq
  · cases h

theorem arrayElem_emitted {cx : Cx} {e : Ty} {n : Nat} {ptr r : Run (BitVec 64)}
    {idx : IndexOperand} {mode : IndexMode} (hp : ptr.Emitted) (hi : idx.Ok)
    (h : arrayElem cx e n ptr idx mode = .ok r) : r.Emitted := by
  obtain ⟨t, _, h⟩ := except_bind_ok h
  cases h
  exact Run.emitted_bind hp fun _ => Run.emitted_bind hi.2 fun _ =>
    checkedIndex_emitted hi.1 _ _ _ _ _ _

theorem sliceElem_emitted {cx : Cx} {e : Ty} {ptr r : Run (BitVec 64)}
    {idx : IndexOperand} {mode : IndexMode} (hp : ptr.Emitted) (hi : idx.Ok)
    (h : sliceElem cx e ptr idx mode = .ok r) : r.Emitted := by
  obtain ⟨t, _, h⟩ := except_bind_ok h
  cases h
  exact Run.emitted_bind hp fun _ => Run.emitted_bind hi.2 fun _ =>
    checkedIndex_emitted hi.1 _ _ _ _ _ _

theorem soaElem_emitted {cx : Cx} {inner ty : Ty} {j : Nat} {ptr r : Run (BitVec 64)}
    {idx : IndexOperand} {mode : IndexMode} (hp : ptr.Emitted) (hi : idx.Ok)
    (h : soaElem cx inner j ptr idx mode = .ok (r, ty)) : r.Emitted := by
  obtain ⟨fty, _, h⟩ := except_bind_ok h
  obtain ⟨fields, _, h⟩ := except_bind_ok h
  obtain ⟨slot, hslot, h⟩ := except_bind_ok h
  obtain ⟨q, hq, h⟩ := except_bind_ok h
  have hs := structGep_emitted hp hslot
  cases h
  split at hq
  · exact arrayElem_emitted hs hi hq
  · exact sliceElem_emitted hs hi hq

mutual

theorem lowerIndexOperand_ok (cx : Cx) (op : Operand) {o : IndexOperand}
    (h : lowerIndexOperand cx op = .ok o) : o.Ok := by
  cases op with
  | const c => exact lowerConstIndex_ok h
  | copy place => exact loadIndex_ok cx place h
  | move place => exact loadIndex_ok cx place h

theorem loadIndex_ok (cx : Cx) (place : Place) {o : IndexOperand}
    (h : loadIndex cx place = .ok o) : o.Ok := by
  cases place with
  | mk root proj =>
    unfold loadIndex at h
    split at h
    · obtain ⟨t, _, h⟩ := except_bind_ok h
      obtain ⟨⟨r, ty⟩, hr, h⟩ := except_bind_ok h
      obtain ⟨⟨w, s⟩, hw, h⟩ := except_bind_ok h
      cases h
      exact ⟨indexWidth_le hw, Run.emitted_bind
        (walkPtr_emitted cx .access proj (Run.emitted_pure _) hr) fun _ => Run.emitted_pure _⟩
    · cases h

theorem walkPtr_emitted (cx : Cx) (mode : IndexMode) (proj : List Proj)
    {pending : Option (Nat × Nat)} {ptr r : Run (BitVec 64)} {ty ty' : Ty} (hp : ptr.Emitted)
    (h : walkPtr cx mode pending ptr ty proj = .ok (r, ty')) : r.Emitted := by
  match proj with
  | [] =>
    cases h
    exact hp
  | .deref :: rest =>
    unfold walkPtr at h
    split at h
    · exact walkPtr_emitted cx mode rest (Run.emitted_bind hp fun _ => Run.emitted_pure _) h
    · cases h
  | .field i :: rest =>
    unfold walkPtr at h
    split at h
    · obtain ⟨⟨q, t⟩, hq, h⟩ := except_bind_ok h
      exact walkPtr_emitted cx mode rest (payloadField_emitted hp hq) h
    · obtain ⟨⟨fields, t⟩, _, h⟩ := except_bind_ok h
      obtain ⟨q, hq, h⟩ := except_bind_ok h
      exact walkPtr_emitted cx mode rest (structGep_emitted hp hq) h
  | .downcast v :: rest =>
    unfold walkPtr at h
    split at h
    · split at h
      · obtain ⟨fields, _, h⟩ := except_bind_ok h
        obtain ⟨q, hq, h⟩ := except_bind_ok h
        exact walkPtr_emitted cx mode rest (structGep_emitted hp hq) h
      · cases h
    · cases h
  | .index op :: rest =>
    unfold walkPtr at h
    obtain ⟨idx, hidx, h⟩ := except_bind_ok h
    have hi := lowerIndexOperand_ok cx op hidx
    split at h
    · obtain ⟨q, hq, h⟩ := except_bind_ok h
      exact walkPtr_emitted cx mode rest (arrayElem_emitted hp hi hq) h
    · obtain ⟨q, hq, h⟩ := except_bind_ok h
      exact walkPtr_emitted cx mode rest (sliceElem_emitted hp hi hq) h
    · match rest with
      | .field j :: rest' =>
        obtain ⟨⟨q, t⟩, hq, h⟩ := except_bind_ok h
        exact walkPtr_emitted cx mode rest' (soaElem_emitted hp hi hq) h
      | [] => cases h
      | .deref :: _ => cases h
      | .downcast _ :: _ => cases h
      | .index _ :: _ => cases h
    · cases h

end

theorem placePtr_emitted {cx : Cx} {place : Place} {mode : IndexMode} {r : Run (BitVec 64)}
    {ty : Ty} (h : placePtr cx place mode = .ok (r, ty)) : r.Emitted := by
  unfold placePtr at h
  split at h
  · obtain ⟨t, _, h⟩ := except_bind_ok h
    exact walkPtr_emitted cx mode place.proj (Run.emitted_pure _) h
  · cases h

theorem ofInt64_eq_iff (a b : Int) :
    BitVec.ofInt 64 a = BitVec.ofInt 64 b ↔ (b - a) % 2 ^ 64 = 0 := by
  have hpos : (0 : Int) < 2 ^ 64 := by decide
  have ha := Int.emod_nonneg a hpos.ne'
  have hb := Int.emod_nonneg b hpos.ne'
  rw [← BitVec.toNat_inj, BitVec.toNat_ofInt, BitVec.toNat_ofInt,
    ← Int.emod_eq_emod_iff_emod_sub_eq_zero]
  push_cast
  omega

theorem gepIndex_eq {w : Nat} (stride : Nat) (base : BitVec 64) (idx : BitVec w) :
    gepIndex stride base idx = base + BitVec.ofInt 64 (idx.toInt * stride) := by
  rw [gepIndex, BitVec.signExtend, BitVec.ofInt_mul, BitVec.ofInt_natCast]

theorem boundsCheck_access {w : Nat} (hw : w ≤ 64) (idx : BitVec w) (len : BitVec 64) :
    boundsCheck idx len .access =
      if len.toNat ≤ idx.toNat then .trap "index out of bounds" else .ok () := by
  have hz : (zextToI64 idx).toNat = idx.toNat := BitVec.toNat_setWidth_of_le hw
  simp only [boundsCheck, icmp, BitVec.ule, hz, Outcome.guard, decide_eq_true_eq]

theorem boundsCheck_addr {w : Nat} (hw : w ≤ 64) (idx : BitVec w) (len : BitVec 64) :
    boundsCheck idx len .addr =
      if len.toNat < idx.toNat then .trap "index out of bounds" else .ok () := by
  have hz : (zextToI64 idx).toNat = idx.toNat := BitVec.toNat_setWidth_of_le hw
  simp only [boundsCheck, icmp, BitVec.ult, hz, Outcome.guard, decide_eq_true_eq]

/-- One index step is sound exactly when its two widenings denote one element. -/
theorem sound_iff_widensAlike {e : IndexEvent} (h : e.Emitted) (hmode : e.mode = .access) :
    e.Sound ↔ e.WidensAlike := by
  obtain ⟨w, signed, idx, len, base, stride, mode, result⟩ := e
  obtain ⟨hw, hres⟩ := h
  simp only at hw hres hmode
  subst hmode hres
  simp only [IndexEvent.Sound, IndexEvent.WidensAlike, IndexEvent.value,
    boundsCheck_access hw, gepIndex_eq]
  by_cases hlen : len.toNat ≤ idx.toNat
  · simp [hlen]
  · have hpos : (0 : Int) ≤ idx.toNat := Int.natCast_nonneg _
    simp only [hlen, if_false, false_or, Outcome.ok_bind, Outcome.pure_eq, reduceCtorEq, exists_false,
      Outcome.ok.injEq, BitVec.add_right_inj]
    cases hmsb : idx.msb with
    | false =>
      have hi : idx.toInt = idx.toNat := BitVec.toInt_eq_toNat_of_msb hmsb
      have hv : (if signed = true then idx.toInt else (idx.toNat : Int)) = idx.toNat := by
        cases signed <;> simp [hi]
      rw [hv, hi]
      simp only [true_or, iff_true]
      exact ⟨hpos, by omega, trivial⟩
    | true =>
      cases signed with
      | true =>
        have hneg := BitVec.toInt_neg_of_msb_true hmsb
        simp only [if_true, Bool.true_eq_false, false_and, or_self, iff_false]
        omega
      | false =>
        have hi : idx.toInt = idx.toNat - 2 ^ w := by
          rw [BitVec.toInt_eq_msb_cond, if_pos hmsb]
          push_cast
          rfl
        have hsub : (idx.toNat : Int) * stride - (idx.toNat - 2 ^ w) * stride =
            ((2 ^ w * stride : Nat) : Int) := by
          push_cast
          ring
        simp only [Bool.false_eq_true, if_false, reduceCtorEq, false_or, true_and]
        rw [hi, ofInt64_eq_iff, hsub]
        have hlt : (idx.toNat : Int) < len.toNat := by omega
        constructor
        · rintro ⟨_, _, hz⟩
          exact_mod_cast hz
        · intro hz
          exact ⟨hpos, hlt, by exact_mod_cast hz⟩

/-- In every place codegen addresses, an element access traps or addresses exactly the element
its index names if and only if the check's zero-extension and the address's sign-extension of
that index denote one element. -/
theorem index_access_sound_iff (cx : Cx) (place : Place) (mode : IndexMode)
    (r : Run (BitVec 64)) (ty : Ty) (h : placePtr cx place mode = .ok (r, ty)) :
    ∀ e ∈ r.events, e.mode = .access → (e.Sound ↔ e.WidensAlike) :=
  fun e he hmode => sound_iff_widensAlike (placePtr_emitted h e he) hmode

/-- A frame with `xs: u8[256]` at address 4096 and an index `i: u8` holding `value`. -/
def byteIndexCx (value : Nat) : Cx where
  m := { structs := [], sums := [], externs := [], globals := [], cribGlobals := [], funcs := [] }
  fuel := 2
  layout := { allocSize := fun _ => 1, fieldOffset := fun _ _ => 0 }
  mem := { loadInt := fun bits _ => BitVec.ofNat bits value, loadPtr := fun _ => 0 }
  func :=
    { name := "main", params := [], rets := [], blocks := [], entry := 0
      locals := [{ ty := .array (.int .w8 false) 256, name := some "xs", kind := .temp },
                 { ty := .int .w8 false, name := some "i", kind := .temp }] }
  allocas := fun l => some (BitVec.ofNat 64 (4096 + 256 * l))

def byteIndexPlace : Place := .mk 0 [.index (.copy (Place.local 1))]

def byteIndexEvent (value : Nat) (result : Outcome (BitVec 64)) : IndexEvent :=
  { width := 8, signed := false, idx := BitVec.ofNat 8 value, len := 256, base := 4096
    stride := 1, mode := .access, result := result }

theorem index_access_sound_in_range :
    placePtr (byteIndexCx 7) byteIndexPlace .access =
        .ok ({ outcome := .ok 4103, events := [byteIndexEvent 7 (.ok 4103)] }, .int .w8 false) ∧
      ((byteIndexEvent 7 (.ok 4103)).Sound ↔ (byteIndexEvent 7 (.ok 4103)).WidensAlike) := by
  have h : placePtr (byteIndexCx 7) byteIndexPlace .access =
      .ok ({ outcome := .ok 4103, events := [byteIndexEvent 7 (.ok 4103)] }, .int .w8 false) := rfl
  exact ⟨h, index_access_sound_iff _ _ _ _ _ h _ (List.mem_singleton.mpr rfl) rfl⟩

/-- `xs[200]` with a `u8` index passes the check and addresses 56 bytes below the array. -/
theorem index_below_base :
    Validate.placeKind (byteIndexCx 200).m (byteIndexCx 200).func byteIndexPlace =
        .ok (.int .w8 false) ∧
      placePtr (byteIndexCx 200) byteIndexPlace .access =
        .ok ({ outcome := .ok 4040, events := [byteIndexEvent 200 (.ok 4040)] }, .int .w8 false) ∧
      ¬(byteIndexEvent 200 (.ok 4040)).Sound := by
  refine ⟨rfl, rfl, ?_⟩
  have he : (byteIndexEvent 200 (.ok 4040)).Emitted := ⟨by decide, rfl⟩
  rw [sound_iff_widensAlike he rfl]
  decide

end BetLang.Codegen
