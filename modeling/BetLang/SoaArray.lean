import BetLang.Bounce
import BetLang.Cells
import BetLang.IndexSoundness
import BetLang.PayloadLayout

/-! A fixed `soa` array: its fields are stored one array after the other, and an access goes to the
field's array first. -/

namespace BetLang.Codegen

open Ir
open Bounce (extend operandPlace)
open Cells (Addr Byte Mem load store Apart)
open Llvm (naturalLayout Outcome gepIndex)

/-- `scatter_into_soa`: the assignments it appends, each a destination and a source. -/
def scatterIntoSoa (m : Module) (soaTy : Ty) (dest : Place) (src : Operand) :
    Except String (List (Place × Place)) :=
  match soaTy with
  | .soa (.array elem n) =>
    match operandPlace src with
    | none => .error "a soa initializer must be an addressable array"
    | some srcPlace =>
      match elem with
      | .struct sid =>
        match m.structs[sid]? with
        | none => .error "bad struct id"
        | some d => .ok ((List.range n).flatMap fun (i : Nat) =>
          let idx := Operand.const (.int i (.int .w64 true))
          (List.range d.fields.length).map fun j =>
            (extend (extend dest (.index idx)) (.field j),
              extend (extend srcPlace (.index idx)) (.field j)))
      | _ => .error "soa element isn't a drip"
  | .soa _ => .error ("only a fixed-size `soa T[N]` can be built this way so far — " ++
      "soa slices and vecs land in a later phase.")
  | _ => .error "scatter target isn't a soa container"

/-- The address and the layout of what an access to a place loads or stores. -/
def addressed (cx : Cx) (place : Place) : Option (Addr × Llvm.Ty) :=
  match placePtr cx place .access with
  | .error _ => none
  | .ok (r, ty) =>
    match r.outcome, basicTy cx.m cx.fuel ty with
    | .ok p, .ok t => some (p, t)
    | _, _ => none

/-- The assignments in order. -/
def assignAll (cx : Cx) (mem : Mem) : List (Place × Place) → Option Mem
  | [] => some mem
  | (dest, src) :: rest => do
    let q ← addressed cx src
    let p ← addressed cx dest
    assignAll cx (store mem p.1 (load mem q.1 q.2.storeSize)) rest

/-- A read of `place[index].field`, or a write of the bytes of a value. -/
structure Access where
  cx : Cx
  index : Operand
  field : Nat
  written : Option (List Byte)

def Access.place (a : Access) (root : Nat) : Place := .mk root [.index a.index, .field a.field]

/-- An access to the container in local `root`, with what a read gives. -/
def Access.exec (root : Nat) (mem : Mem) (a : Access) : Option (Mem × List (List Byte)) := do
  let p ← addressed a.cx (a.place root)
  match a.written with
  | none => return (mem, [load mem p.1 p.2.storeSize])
  | some v => return (store mem p.1 v, [])

def runAccesses (root : Nat) (mem : Mem) : List Access → Option (Mem × List (List Byte))
  | [] => some (mem, [])
  | a :: rest => do
    let r ← a.exec root mem
    let s ← runAccesses root r.1 rest
    return (s.1, r.2 ++ s.2)

section Fuel

variable {m : Module}

theorem mapM_ok_mono {ε α β : Type} {f g : α → Except ε β} {xs : List α} {ys : List β}
    (hfg : ∀ x y, f x = .ok y → g x = .ok y) (h : xs.mapM f = .ok ys) : xs.mapM g = .ok ys :=
  mapM_ok_iff.mpr ((mapM_ok_iff.mp h).imp hfg)

theorem variantWords_mono {ar : WordArith} {words words' : Ty → Except String Nat}
    (hw : ∀ t w, words t = .ok w → words' t = .ok w) {v : Variant} {w : Nat}
    (h : variantWords ar words v = .ok w) : variantWords ar words' v = .ok w := by
  obtain ⟨ws, hws, h⟩ := except_bind_ok h
  cases h
  rw [variantWords, mapM_ok_mono hw hws]
  rfl

theorem wordsWith_succ {ar : WordArith} {fuel w : Nat} {ty : Ty}
    (h : wordsWith ar m fuel ty = .ok w) : wordsWith ar m (fuel + 1) ty = .ok w := by
  induction fuel generalizing ty w with
  | zero => cases h
  | succ fuel ih =>
    unfold wordsWith at h ⊢
    cases ty with
    | array elem n | simd elem n =>
      obtain ⟨we, hwe, h⟩ := except_bind_ok h
      cases h
      dsimp only
      rw [ih hwe]
      rfl
    | soa inner => exact ih h
    | tuple elems =>
      obtain ⟨ws, hws, h⟩ := except_bind_ok h
      cases h
      dsimp only
      rw [mapM_ok_mono (fun t w hw => ih hw) hws]
      rfl
    | struct sid =>
      cases hd : m.structs[sid]? with
      | none =>
        simp only [hd] at h
        cases h
      | some d =>
        simp only [hd] at h ⊢
        obtain ⟨ws, hws, h⟩ := except_bind_ok h
        cases h
        rw [mapM_ok_mono (fun f w hw => ih hw) hws]
        rfl
    | sum sid =>
      cases hd : m.sums[sid]? with
      | none =>
        simp only [hd] at h
        cases h
      | some d =>
        simp only [hd] at h ⊢
        obtain ⟨ws, hws, h⟩ := except_bind_ok h
        cases h
        rw [mapM_ok_mono (fun v w hw => variantWords_mono (fun t w hw => ih hw) hw) hws]
        rfl
    | _ => exact h

theorem sumLlvmTy_succ {fuel : Nat} {d : SumDef} {tys : List Llvm.Ty}
    (h : sumLlvmTy m fuel d = .ok tys) : sumLlvmTy m (fuel + 1) d = .ok tys := by
  obtain ⟨words, hwords, h⟩ := except_bind_ok h
  obtain ⟨ws, hws, hwords⟩ := except_bind_ok hwords
  cases hwords
  have hws' : d.variants.mapM (fun v => variantWords .u32 (fun t => tyWords m (fuel + 1) t) v) =
      .ok ws :=
    mapM_ok_mono (fun v w hw => variantWords_mono (fun t w hw => wordsWith_succ hw) hw) hws
  rw [sumLlvmTy, sumPayloadWords, hws']
  exact h

/-- A type has the same layout at every depth of recursion at which it has one. -/
theorem basicTy_succ {fuel : Nat} {ty : Ty} {t : Llvm.Ty} (h : basicTy m fuel ty = .ok t) :
    basicTy m (fuel + 1) ty = .ok t := by
  induction fuel generalizing ty t with
  | zero => cases h
  | succ fuel ih =>
    unfold basicTy at h ⊢
    cases ty with
    | array elem n =>
      obtain ⟨e, he, h⟩ := except_bind_ok h
      cases h
      dsimp only
      rw [ih he]
      rfl
    | simd elem lanes =>
      obtain ⟨e, he, h⟩ := except_bind_ok h
      dsimp only
      rw [ih he]
      exact h
    | tuple elems =>
      obtain ⟨ts, hts, h⟩ := except_bind_ok h
      cases h
      dsimp only
      rw [mapM_ok_mono (fun t w hw => ih hw) hts]
      rfl
    | struct sid =>
      cases hd : m.structs[sid]? with
      | none =>
        simp only [hd] at h
        cases h
      | some d =>
        simp only [hd] at h ⊢
        obtain ⟨ts, hts, h⟩ := except_bind_ok h
        cases h
        rw [mapM_ok_mono (fun f w hw => ih hw) hts]
        rfl
    | sum sid =>
      cases hd : m.sums[sid]? with
      | none =>
        simp only [hd] at h
        cases h
      | some d =>
        simp only [hd] at h ⊢
        obtain ⟨ts, hts, h⟩ := except_bind_ok h
        cases h
        rw [sumLlvmTy_succ hts]
        rfl
    | soa inner =>
      obtain ⟨⟨elem, kind⟩, hc, h⟩ := except_bind_ok h
      dsimp only at h ⊢
      rw [hc, except_ok_bind]
      cases elem with
      | struct sid =>
        cases hd : m.structs[sid]? with
        | none =>
          simp only [hd] at h
          cases h
        | some d =>
          simp only [hd] at h
          obtain ⟨ts, hts, h⟩ := except_bind_ok h
          cases h
          simp only [hd]
          rw [mapM_ok_mono ?_ hts]
          · rfl
          · intro f w hw
            cases kind with
            | array n =>
              obtain ⟨e, he, hw⟩ := except_bind_ok hw
              cases hw
              dsimp only
              rw [ih he]
              rfl
            | slice => exact hw
            | vec => exact hw
      | _ => cases h
    | _ => exact h

end Fuel

section Addresses

variable {cx : Cx} {ptr : Run (BitVec 64)} {p : BitVec 64} {idx : IndexOperand}
  {i : BitVec idx.width} {n : Nat} {mode : IndexMode}

theorem Run.bind_outcome {α β : Type} {r : Run α} {a : α} (h : r.outcome = .ok a)
    (f : α → Run β) : (r.bind f).outcome = (f a).outcome := by
  simp only [Run.bind, h]

theorem structGep_at (cx : Cx) {fields : List Llvm.Ty} {j : Nat} (hj : j < fields.length)
    (hptr : ptr.outcome = .ok p) :
    ∃ r, structGep cx fields ptr j = .ok r ∧
      r.outcome = .ok (p + BitVec.ofNat 64 (cx.layout.fieldOffset fields j)) := by
  refine ⟨_, if_pos hj, ?_⟩
  rw [Run.bind_outcome hptr]
  rfl

/-- An index that both widenings read alike addresses its element. -/
theorem arrayElem_at {e : Ty} {t : Llvm.Ty} (he : basicTy cx.m cx.fuel e = .ok t)
    (hptr : ptr.outcome = .ok p) (hidx : idx.run.outcome = .ok i) (hw : idx.width ≤ 64)
    (hn : n < 2 ^ 64) (hlt : i.toNat < n) (hmsb : i.msb = false) :
    ∃ r, arrayElem cx e n ptr idx .access = .ok r ∧
      r.outcome = .ok (p + BitVec.ofNat 64 (i.toNat * cx.layout.allocSize t)) := by
  have hlen : (BitVec.ofNat 64 n).toNat = n := by
    rw [BitVec.toNat_ofNat, Nat.mod_eq_of_lt hn]
  have hgep : gepIndex (cx.layout.allocSize t) p i =
      p + BitVec.ofNat 64 (i.toNat * cx.layout.allocSize t) := by
    rw [gepIndex_eq, BitVec.toInt_eq_toNat_of_msb hmsb, ← Int.natCast_mul, BitVec.ofInt_natCast]
  refine ⟨_, by rw [arrayElem, he]; rfl, ?_⟩
  rw [Run.bind_outcome hptr, Run.bind_outcome hidx]
  simp only [checkedIndex, boundsCheck_access hw, hlen, if_neg (Nat.not_le_of_lt hlt), hgep,
    Outcome.ok_bind, Outcome.pure_eq]

end Addresses

section Places

variable {m : Module} {fuel sid n soa plain : Nat} {s a : Addr} {d : StructDef}
  {fields : List Llvm.Ty}

/-- What addressing sees: a `soa T[N]` at `s` in local `soa`, a `T[N]` at `a` in local `plain`. -/
structure Frame (m : Module) (fuel sid n soa plain : Nat) (s a : Addr) (cx : Cx) : Prop where
  module : cx.m = m
  fuel : cx.fuel = fuel
  layout : cx.layout = naturalLayout
  soa_at : cx.allocas soa = some s
  soa_ty : cx.localTy soa = .ok (.soa (.array (.struct sid) n))
  plain_at : cx.allocas plain = some a
  plain_ty : cx.localTy plain = .ok (.array (.struct sid) n)

/-- A drip and the layouts of its fields. -/
structure Laid (m : Module) (fuel sid : Nat) (d : StructDef) (fields : List Llvm.Ty) : Prop where
  drip : m.structs[sid]? = some d
  fields : d.fields.mapM (fun f => basicTy m fuel f.ty) = .ok fields

theorem Laid.length (h : Laid m fuel sid d fields) : d.fields.length = fields.length :=
  (mapM_ok_iff.mp h.fields).length_eq

theorem Laid.field (h : Laid m fuel sid d fields) {j : Nat} {t : Llvm.Ty}
    (hj : fields[j]? = some t) : ∃ f, d.fields[j]? = some f ∧ basicTy m fuel f.ty = .ok t := by
  obtain ⟨hlt, rfl⟩ := List.getElem?_eq_some_iff.mp hj
  have hlt' : j < d.fields.length := h.length ▸ hlt
  refine ⟨d.fields[j], List.getElem?_eq_getElem hlt', ?_⟩
  exact (List.forall₂_iff_get.mp (mapM_ok_iff.mp h.fields)).2 j hlt' hlt

/-- Field by field, an array of each. -/
def columns (fields : List Llvm.Ty) (n : Nat) : List Llvm.Ty := fields.map fun t => .array t n

theorem structFields_plain (h : Laid m fuel sid d fields) :
    structFields m (fuel + 1) (.struct sid) = .ok fields := by
  rw [structFields, basicTy, h.drip]
  dsimp only
  rw [h.fields]
  rfl

theorem mapM_columns {fs : List Field} (hn : n < 2 ^ 32)
    (h : fs.mapM (fun f => basicTy m fuel f.ty) = .ok fields) :
    fs.mapM (fun f => do return Llvm.Ty.array (← basicTy m fuel f.ty) (n % 2 ^ 32)) =
      .ok (columns fields n) := by
  rw [mapM_ok_iff, columns, List.forall₂_map_right_iff]
  refine (mapM_ok_iff.mp h).imp fun f t hf => ?_
  rw [hf, Nat.mod_eq_of_lt hn]
  rfl

theorem structFields_soa (h : Laid m fuel sid d fields) (hn : n < 2 ^ 32) :
    structFields m (fuel + 1) (.soa (.array (.struct sid) n)) = .ok (columns fields n) := by
  rw [structFields, basicTy]
  dsimp only [soaContainer]
  rw [except_ok_bind]
  dsimp only
  rw [h.drip]
  dsimp only
  rw [mapM_columns hn h.fields]
  rfl

/-- An element and a field. -/
abbrev Slot := Nat × Nat

def slotTy (fields : List Llvm.Ty) (k : Slot) : Llvm.Ty := fields[k.2]?.getD (.int 8)

def soaOffset (fields : List Llvm.Ty) (n : Nat) (k : Slot) : Nat :=
  Llvm.fieldOffset (columns fields n) k.2 0 + k.1 * (slotTy fields k).size

def plainOffset (fields : List Llvm.Ty) (k : Slot) : Nat :=
  k.1 * (Llvm.Ty.struct fields).size + Llvm.fieldOffset fields k.2 0

theorem slotTy_eq {k : Slot} {t : Llvm.Ty} (h : fields[k.2]? = some t) : slotTy fields k = t := by
  rw [slotTy, h, Option.getD_some]

variable {cx : Cx} {op : Operand} {o : IndexOperand} {i : BitVec o.width} {j : Nat} {t : Llvm.Ty}

theorem addressed_of {place : Place} {r : Run (BitVec 64)} {ty : Ty} {p : Addr}
    (h : placePtr cx place .access = .ok (r, ty)) (hr : r.outcome = .ok p)
    (ht : basicTy cx.m cx.fuel ty = .ok t) : addressed cx place = some (p, t) := by
  rw [addressed, h]
  dsimp only
  rw [hr, ht]

theorem addressed_plain (hcx : Frame m (fuel + 1) sid n soa plain s a cx)
    (hd : Laid m fuel sid d fields) (hn : n < 2 ^ 32) (hop : lowerIndexOperand cx op = .ok o)
    (hi : o.run.outcome = .ok i) (hlt : i.toNat < n) (hmsb : i.msb = false)
    (hj : fields[j]? = some t) :
    addressed cx (.mk plain [.index op, .field j]) =
      some (a + BitVec.ofNat 64 (plainOffset fields (i.toNat, j)), t) := by
  obtain ⟨f, hf, hft⟩ := hd.field hj
  have hstruct : basicTy cx.m cx.fuel (.struct sid) = .ok (.struct fields) := by
    rw [hcx.module, hcx.fuel, basicTy, hd.drip]
    dsimp only
    rw [hd.fields]
    rfl
  have hsf : structFields cx.m cx.fuel (.struct sid) = .ok fields := by
    rw [hcx.module, hcx.fuel, structFields_plain hd]
  have hagg : aggregateField cx (.struct sid) j = .ok (fields, f.ty) := by
    rw [aggregateField, hsf, hcx.module, hd.drip]
    dsimp only
    rw [hf]
    rfl
  have hstart : (Run.pure a).outcome = .ok a := rfl
  obtain ⟨r, hr, hro⟩ := arrayElem_at hstruct hstart hi
    (lowerIndexOperand_ok cx op hop).1 (Nat.lt_trans hn (by decide)) hlt hmsb
  obtain ⟨r', hr', hro'⟩ := structGep_at cx (List.getElem?_eq_some_iff.mp hj).1 hro
  have hplace : placePtr cx (.mk plain [.index op, .field j]) .access = .ok (r', f.ty) := by
    simp only [placePtr, Place.root, Place.proj, hcx.plain_at, hcx.plain_ty, walkPtr, hop, hr,
      hagg, hr', except_ok_bind]
  refine addressed_of hplace ?_ (by rw [hcx.module, hcx.fuel]; exact basicTy_succ hft)
  rw [hro', hcx.layout, BitVec.add_assoc, ← BitVec.ofNat_add]
  rfl

theorem addressed_soa (hcx : Frame m (fuel + 1) sid n soa plain s a cx)
    (hd : Laid m fuel sid d fields) (hn : n < 2 ^ 32) (hop : lowerIndexOperand cx op = .ok o)
    (hi : o.run.outcome = .ok i) (hlt : i.toNat < n) (hmsb : i.msb = false)
    (hj : fields[j]? = some t) :
    addressed cx (.mk soa [.index op, .field j]) =
      some (s + BitVec.ofNat 64 (soaOffset fields n (i.toNat, j)), t) := by
  obtain ⟨f, hf, hft⟩ := hd.field hj
  have hft' : basicTy cx.m cx.fuel f.ty = .ok t := by
    rw [hcx.module, hcx.fuel]
    exact basicTy_succ hft
  have hsf : structFields cx.m cx.fuel (.soa (.array (.struct sid) n)) = .ok (columns fields n) := by
    rw [hcx.module, hcx.fuel, structFields_soa hd hn]
  have hty : soaFieldTy cx.m (.array (.struct sid) n) j = .ok f.ty := by
    simp only [soaFieldTy, soaElemTy, except_ok_bind, hcx.module, hd.drip, hf]
    rfl
  have hlen : j < (columns fields n).length := by
    rw [columns, List.length_map]
    exact (List.getElem?_eq_some_iff.mp hj).1
  have hstart : (Run.pure s).outcome = .ok s := rfl
  obtain ⟨r, hr, hro⟩ := structGep_at cx hlen hstart
  obtain ⟨r', hr', hro'⟩ := arrayElem_at hft' hro hi (lowerIndexOperand_ok cx op hop).1
    (Nat.lt_trans hn (by decide)) hlt hmsb
  have helem : soaElem cx (.array (.struct sid) n) j (Run.pure s) o .access = .ok (r', f.ty) := by
    simp only [soaElem, hty, hsf, hr, hr', except_ok_bind]
    rfl
  have hplace : placePtr cx (.mk soa [.index op, .field j]) .access = .ok (r', f.ty) := by
    simp only [placePtr, Place.root, Place.proj, hcx.soa_at, hcx.soa_ty, walkPtr, hop, helem,
      except_ok_bind]
  refine addressed_of hplace ?_ hft'
  rw [hro', hcx.layout, BitVec.add_assoc, ← BitVec.ofNat_add, soaOffset, slotTy_eq hj]
  rfl

/-- The slots of `n` elements. -/
def InSlots (fields : List Llvm.Ty) (n : Nat) (k : Slot) : Prop := k.1 < n ∧ k.2 < fields.length

theorem slotTy_of {k : Slot} (hk : InSlots fields n k) : fields[k.2]? = some (slotTy fields k) := by
  rw [slotTy, List.getElem?_eq_getElem hk.2, Option.getD_some]

theorem columns_getElem? {k : Slot} (hk : InSlots fields n k) :
    (columns fields n)[k.2]? = some (.array (slotTy fields k) n) := by
  rw [columns, List.getElem?_map, slotTy_of hk, Option.map_some]

theorem mul_add_le {x y n : Nat} (size : Nat) (h : x < y) (hy : y ≤ n) :
    x * size + size ≤ n * size := by
  rw [← Nat.succ_mul]
  exact Nat.mul_le_mul_right size (Nat.le_trans h hy)

/-- A slot lies in its field's array. -/
theorem soaOffset_le_column {k : Slot} (hk : InSlots fields n k) :
    soaOffset fields n k + (slotTy fields k).size ≤
      Llvm.fieldOffset (columns fields n) k.2 0 + (Llvm.Ty.array (slotTy fields k) n).size := by
  have h := mul_add_le (slotTy fields k).size hk.1 (Nat.le_refl n)
  rw [soaOffset, Llvm.Ty.size]
  omega

theorem soaOffset_le {k : Slot} (hk : InSlots fields n k) :
    soaOffset fields n k + (slotTy fields k).size ≤ (Llvm.Ty.struct (columns fields n)).size :=
  Nat.le_trans (soaOffset_le_column hk)
    (Llvm.fieldOffset_add_size_le_struct (columns_getElem? hk))

theorem soaOffset_lt {k k' : Slot} (hk : InSlots fields n k)
    (h : k.2 < k'.2 ∨ k.2 = k'.2 ∧ k.1 < k'.1) :
    soaOffset fields n k + (slotTy fields k).size ≤ soaOffset fields n k' := by
  obtain h | ⟨hj, hi⟩ := h
  · have hnext := Llvm.fieldOffset_add_size_le (columns_getElem? hk) h 0
    have hcol := soaOffset_le_column hk
    rw [soaOffset, soaOffset] at *
    omega
  · have hmul := mul_add_le (slotTy fields k).size hi (Nat.le_refl _)
    have hty : slotTy fields k' = slotTy fields k := by rw [slotTy, slotTy, hj]
    rw [soaOffset, soaOffset, hty, hj]
    omega

theorem plainOffset_le_elem {k : Slot} (hk : InSlots fields n k) :
    plainOffset fields k + (slotTy fields k).size ≤
      k.1 * (Llvm.Ty.struct fields).size + (Llvm.Ty.struct fields).size := by
  have h := Llvm.fieldOffset_add_size_le_struct (slotTy_of hk)
  rw [plainOffset]
  omega

theorem plainOffset_le {k : Slot} (hk : InSlots fields n k) :
    plainOffset fields k + (slotTy fields k).size ≤
      (Llvm.Ty.array (Llvm.Ty.struct fields) n).size := by
  have h := mul_add_le (Llvm.Ty.struct fields).size hk.1 (Nat.le_refl n)
  have helem := plainOffset_le_elem hk
  have hsize : (Llvm.Ty.array (Llvm.Ty.struct fields) n).size = n * (Llvm.Ty.struct fields).size := by
    simp only [Llvm.Ty.size]
  omega

theorem plainOffset_lt {k k' : Slot} (hk : InSlots fields n k)
    (h : k.1 < k'.1 ∨ k.1 = k'.1 ∧ k.2 < k'.2) :
    plainOffset fields k + (slotTy fields k).size ≤ plainOffset fields k' := by
  obtain h | ⟨hi, hj⟩ := h
  · have hmul := mul_add_le (Llvm.Ty.struct fields).size h (Nat.le_refl _)
    have helem := plainOffset_le_elem hk
    rw [plainOffset, plainOffset] at *
    omega
  · have hnext := Llvm.fieldOffset_add_size_le (slotTy_of hk) hj 0
    rw [plainOffset, plainOffset, hi]
    omega

def slotLen (fields : List Llvm.Ty) (k : Slot) : Nat := (slotTy fields k).storeSize

theorem slotLen_le (fields : List Llvm.Ty) (k : Slot) :
    slotLen fields k ≤ (slotTy fields k).size :=
  Llvm.storeSize_le_size _

theorem soaOffset_order {k k' : Slot} (hk : InSlots fields n k) (hk' : InSlots fields n k')
    (hne : k ≠ k') :
    soaOffset fields n k + slotLen fields k ≤ soaOffset fields n k' ∨
      soaOffset fields n k' + slotLen fields k' ≤ soaOffset fields n k := by
  have hlen := slotLen_le fields k
  have hlen' := slotLen_le fields k'
  by_cases hj : k.2 = k'.2
  · have hi : k.1 ≠ k'.1 := fun hi => hne (Prod.ext hi hj)
    rcases Nat.lt_or_gt_of_ne hi with h | h
    · exact Or.inl (Nat.le_trans (by omega) (soaOffset_lt hk (Or.inr ⟨hj, h⟩)))
    · exact Or.inr (Nat.le_trans (by omega) (soaOffset_lt hk' (Or.inr ⟨hj.symm, h⟩)))
  · rcases Nat.lt_or_gt_of_ne hj with h | h
    · exact Or.inl (Nat.le_trans (by omega) (soaOffset_lt hk (Or.inl h)))
    · exact Or.inr (Nat.le_trans (by omega) (soaOffset_lt hk' (Or.inl h)))

theorem plainOffset_order {k k' : Slot} (hk : InSlots fields n k) (hk' : InSlots fields n k')
    (hne : k ≠ k') :
    plainOffset fields k + slotLen fields k ≤ plainOffset fields k' ∨
      plainOffset fields k' + slotLen fields k' ≤ plainOffset fields k := by
  have hlen := slotLen_le fields k
  have hlen' := slotLen_le fields k'
  by_cases hi : k.1 = k'.1
  · have hj : k.2 ≠ k'.2 := fun hj => hne (Prod.ext hi hj)
    rcases Nat.lt_or_gt_of_ne hj with h | h
    · exact Or.inl (Nat.le_trans (by omega) (plainOffset_lt hk (Or.inr ⟨hi, h⟩)))
    · exact Or.inr (Nat.le_trans (by omega) (plainOffset_lt hk' (Or.inr ⟨hi.symm, h⟩)))
  · rcases Nat.lt_or_gt_of_ne hi with h | h
    · exact Or.inl (Nat.le_trans (by omega) (plainOffset_lt hk (Or.inl h)))
    · exact Or.inr (Nat.le_trans (by omega) (plainOffset_lt hk' (Or.inl h)))

def soaSize (fields : List Llvm.Ty) (n : Nat) : Nat := (Llvm.Ty.struct (columns fields n)).size

def plainSize (fields : List Llvm.Ty) (n : Nat) : Nat := (Llvm.Ty.array (.struct fields) n).size

theorem soaOffset_space {k : Slot} (hk : InSlots fields n k) :
    soaOffset fields n k + slotLen fields k ≤ soaSize fields n :=
  Nat.le_trans (Nat.add_le_add_left (slotLen_le fields k) _) (soaOffset_le hk)

theorem plainOffset_space {k : Slot} (hk : InSlots fields n k) :
    plainOffset fields k + slotLen fields k ≤ plainSize fields n :=
  Nat.le_trans (Nat.add_le_add_left (slotLen_le fields k) _) (plainOffset_le hk)

/-- Two objects in memory: a `soa T[N]` at `s` and a `T[N]` at `a`. -/
structure Objects (fields : List Llvm.Ty) (n : Nat) (s a : Addr) : Prop where
  soa_space : soaSize fields n ≤ 2 ^ 64
  plain_space : plainSize fields n ≤ 2 ^ 64
  apart : Apart s (soaSize fields n) a (plainSize fields n)

variable (h : Objects fields n s a)

def Objects.soaCells : Cells.Layout Slot :=
  Cells.Layout.ofParts s (InSlots fields n) (soaOffset fields n) (slotLen fields)
    (fun _ hk => Nat.le_trans (soaOffset_space hk) h.soa_space)
    (fun _ _ hk hk' hne => soaOffset_order hk hk' hne)

def Objects.plainCells : Cells.Layout Slot :=
  Cells.Layout.ofParts a (InSlots fields n) (plainOffset fields) (slotLen fields)
    (fun _ hk => Nat.le_trans (plainOffset_space hk) h.plain_space)
    (fun _ _ hk hk' hne => plainOffset_order hk hk' hne)

end Places

/-- The number that an index stands for at its own type. -/
def IndexOperand.value (o : IndexOperand) (i : BitVec o.width) : Int :=
  if o.signed then i.toInt else i.toNat

/-- The index of the access is below half of the range of its type. -/
def Access.FitsIndex (x : Access) : Prop :=
  ∀ o, lowerIndexOperand x.cx x.index = .ok o → ∀ i, o.run.outcome = .ok i →
    o.value i < (2 : Int) ^ (o.width - 1)

theorem value_toNat {o : IndexOperand} {i : BitVec o.width} {k : Nat} (h : o.value i = k)
    (hfits : o.value i < (2 : Int) ^ (o.width - 1)) : i.toNat = k ∧ i.msb = false := by
  unfold IndexOperand.value at h hfits
  by_cases hs : o.signed = true
  · rw [if_pos hs] at h hfits
    have hmsb : i.msb = false := by
      by_contra hmsb
      have hneg := BitVec.toInt_neg_of_msb_true (Bool.eq_true_of_not_eq_false hmsb)
      omega
    rw [BitVec.toInt_eq_toNat_of_msb hmsb] at h
    exact ⟨by omega, hmsb⟩
  · rw [if_neg hs] at h hfits
    have hlt : i.toNat < 2 ^ (o.width - 1) := by exact_mod_cast hfits
    refine ⟨by omega, ?_⟩
    rw [BitVec.msb_eq_decide, decide_eq_false (Nat.not_le_of_lt hlt)]

section Runs

variable {m : Module} {fuel sid n soa plain : Nat} {s a : Addr} {d : StructDef}
  {fields : List Llvm.Ty}

/-- An access of the program to slot `k`, which exists; a value written is one of the field. -/
structure Access.Targets (m : Module) (fuel sid n soa plain : Nat) (s a : Addr)
    (fields : List Llvm.Ty) (x : Access) (k : Slot) : Prop where
  frame : Frame m fuel sid n soa plain s a x.cx
  index : ∃ o i, lowerIndexOperand x.cx x.index = .ok o ∧ o.run.outcome = .ok i ∧ o.value i = k.1
  field : x.field = k.2
  inSlots : InSlots fields n k
  written : ∀ v, x.written = some v → v.length = slotLen fields k

variable {x : Access} {k : Slot}

/-- Such an access goes to its slot, in either container. -/
theorem addressed_targets (h : Objects fields n s a) (hd : Laid m fuel sid d fields)
    (hn : n < 2 ^ 32) (hx : x.Targets m (fuel + 1) sid n soa plain s a fields k)
    (hfits : x.FitsIndex) :
    addressed x.cx (x.place soa) = some (h.soaCells.addr k, slotTy fields k) ∧
      addressed x.cx (x.place plain) = some (h.plainCells.addr k, slotTy fields k) := by
  obtain ⟨o, i, hop, hi, hvalue⟩ := hx.index
  obtain ⟨hnat, hmsb⟩ := value_toNat hvalue (hfits o hop i hi)
  have hlt : i.toNat < n := hnat ▸ hx.inSlots.1
  have hj : fields[x.field]? = some (slotTy fields k) := hx.field ▸ slotTy_of hx.inSlots
  have hk : (i.toNat, x.field) = k := Prod.ext hnat hx.field
  have hsoa := addressed_soa hx.frame hd hn hop hi hlt hmsb hj
  have hplain := addressed_plain hx.frame hd hn hop hi hlt hmsb hj
  rw [hk] at hsoa hplain
  exact ⟨hsoa, hplain⟩

theorem exec_targets (h : Objects fields n s a) (hd : Laid m fuel sid d fields) (hn : n < 2 ^ 32)
    (hx : x.Targets m (fuel + 1) sid n soa plain s a fields k) (hfits : x.FitsIndex) (mem : Mem) :
    x.exec soa mem = some (h.soaCells.access mem k x.written) ∧
      x.exec plain mem = some (h.plainCells.access mem k x.written) := by
  obtain ⟨hsoa, hplain⟩ := addressed_targets h hd hn hx hfits
  rw [Access.exec, Access.exec, hsoa, hplain]
  cases hw : x.written with
  | none => exact ⟨rfl, rfl⟩
  | some v => exact ⟨rfl, rfl⟩

/-- Accesses that go to their slots read the same from containers that hold the same. -/
theorem runAccesses_same (h : Objects fields n s a) (hd : Laid m fuel sid d fields)
    (hn : n < 2 ^ 32) {xs : List Access} {mem mem' : Mem}
    (hsame : Cells.Same h.soaCells h.plainCells mem mem')
    (hxs : ∀ x ∈ xs, x.FitsIndex ∧ ∃ k, x.Targets m (fuel + 1) sid n soa plain s a fields k) :
    ∃ end₁ end₂ reads, runAccesses soa mem xs = some (end₁, reads) ∧
      runAccesses plain mem' xs = some (end₂, reads) := by
  induction xs generalizing mem mem' with
  | nil => exact ⟨mem, mem', [], rfl, rfl⟩
  | cons x xs ih =>
    obtain ⟨hfits, k, hx⟩ := hxs x List.mem_cons_self
    have hsoa := (exec_targets h hd hn hx hfits mem).1
    have hplain := (exec_targets h hd hn hx hfits mem').2
    obtain ⟨hnext, hreads⟩ := hsame.access (fun _ hk => hk) (fun _ => rfl) hx.inSlots hx.written
    obtain ⟨e₁, e₂, reads, h₁, h₂⟩ := ih hnext fun y hy => hxs y (List.mem_cons_of_mem _ hy)
    refine ⟨e₁, e₂, (h.soaCells.access mem k x.written).2 ++ reads, ?_, ?_⟩
    · simp only [runAccesses, hsoa, h₁, Option.bind_eq_bind, Option.bind_some, Option.pure_def]
    · simp only [runAccesses, hplain, h₂, Option.bind_eq_bind, Option.bind_some, Option.pure_def,
        hreads]

def slots (n width : Nat) : List Slot :=
  (List.range n).flatMap fun i => (List.range width).map fun j => (i, j)

theorem mem_slots {width : Nat} : k ∈ slots n width ↔ k.1 < n ∧ k.2 < width := by
  obtain ⟨i, j⟩ := k
  simp [slots]

def constIndex (i : Nat) : Operand := .const (.int i (.int .w64 true))

def slotPlace (root : Nat) (k : Slot) : Place := .mk root [.index (constIndex k.1), .field k.2]

theorem scatterIntoSoa_eq (hd : Laid m fuel sid d fields) :
    scatterIntoSoa m (.soa (.array (.struct sid) n)) (Place.local soa) (.copy (Place.local plain)) =
      .ok ((slots n fields.length).map fun k => (slotPlace soa k, slotPlace plain k)) := by
  simp only [scatterIntoSoa, operandPlace, hd.drip, slots, List.map_flatMap, List.map_map, hd.length]
  rfl

theorem constIndex_lower (cx : Cx) (i : Nat) :
    lowerIndexOperand cx (constIndex i) =
      .ok { width := 64, signed := true, run := Run.pure (BitVec.ofInt 64 i) } :=
  rfl

theorem constIndex_toNat {i : Nat} (hi : i < 2 ^ 32) :
    (BitVec.ofInt 64 i).toNat = i ∧ (BitVec.ofInt 64 i).msb = false := by
  have hnat : (BitVec.ofInt 64 i).toNat = i := by
    rw [BitVec.ofInt_natCast, BitVec.toNat_ofNat, Nat.mod_eq_of_lt (by omega)]
  refine ⟨hnat, ?_⟩
  rw [BitVec.msb_eq_decide, hnat, decide_eq_false (by omega)]

/-- The scatter loop addresses every slot of either container. -/
theorem addressed_slot {cx : Cx} (h : Objects fields n s a) (hd : Laid m fuel sid d fields)
    (hn : n < 2 ^ 32) (hcx : Frame m (fuel + 1) sid n soa plain s a cx) (hk : InSlots fields n k) :
    addressed cx (slotPlace soa k) = some (h.soaCells.addr k, slotTy fields k) ∧
      addressed cx (slotPlace plain k) = some (h.plainCells.addr k, slotTy fields k) := by
  obtain ⟨hnat, hmsb⟩ := constIndex_toNat (Nat.lt_trans hk.1 hn)
  have hop := constIndex_lower cx k.1
  have hlt : (BitVec.ofInt 64 k.1).toNat < n := hnat.symm ▸ hk.1
  have hsoa := addressed_soa hcx hd hn hop rfl hlt hmsb (slotTy_of hk)
  have hplain := addressed_plain hcx hd hn hop rfl hlt hmsb (slotTy_of hk)
  rw [hnat] at hsoa hplain
  exact ⟨hsoa, hplain⟩

theorem assignAll_slots {cx : Cx} (h : Objects fields n s a) (hd : Laid m fuel sid d fields)
    (hn : n < 2 ^ 32) (hcx : Frame m (fuel + 1) sid n soa plain s a cx) {ks : List Slot}
    (hks : ∀ k ∈ ks, InSlots fields n k) (mem : Mem) :
    assignAll cx mem (ks.map fun k => (slotPlace soa k, slotPlace plain k)) =
      some (Cells.copyCells h.plainCells h.soaCells mem ks) := by
  induction ks generalizing mem with
  | nil => rfl
  | cons k ks ih =>
    obtain ⟨hsoa, hplain⟩ := addressed_slot h hd hn hcx (hks k List.mem_cons_self)
    rw [List.map_cons, assignAll, hsoa, hplain, Cells.copyCells]
    exact ih (fun k' hk' => hks k' (List.mem_cons_of_mem _ hk')) _

/-- After the scatter loop, the `soa T[N]` holds what the array holds, which still does. -/
theorem scatter_same {cx : Cx} (h : Objects fields n s a) (hd : Laid m fuel sid d fields)
    (hn : n < 2 ^ 32) (hcx : Frame m (fuel + 1) sid n soa plain s a cx) (mem : Mem) :
    ∃ assigns scattered,
      scatterIntoSoa m (.soa (.array (.struct sid) n)) (Place.local soa)
          (.copy (Place.local plain)) = .ok assigns ∧
        assignAll cx mem assigns = some scattered ∧
          Cells.Same h.soaCells h.plainCells scattered mem := by
  have hks : ∀ k ∈ slots n fields.length, InSlots fields n k := fun _ hk => mem_slots.mp hk
  refine ⟨_, _, scatterIntoSoa_eq hd, assignAll_slots h hd hn hcx hks mem, fun k hk => ?_⟩
  have hspec := Cells.copyCells_spec h.plainCells h.soaCells (fun _ hk => hk) (fun _ => rfl)
    (fun _ _ hk hk' => h.apart.parts h.soa_space h.plain_space (soaOffset_space hk)
      (plainOffset_space hk')) hks mem
  exact hspec.2.1 k hk (mem_slots.mpr hk)

/-- In every run whose indexes are below half of the range of their types, and for arrays of
fewer than `2 ^ 32` elements, the transposed array reads as the plain one does, and different
slots of it do not overlap. -/
theorem soa_array_transposes {cx : Cx} (h : Objects fields n s a) (hd : Laid m fuel sid d fields)
    (hcx : Frame m (fuel + 1) sid n soa plain s a cx) (hn : n < 2 ^ 32) (mem : Mem)
    (xs : List Access)
    (hxs : ∀ x ∈ xs, x.FitsIndex ∧ ∃ k, x.Targets m (fuel + 1) sid n soa plain s a fields k) :
    (∃ assigns scattered end₁ end₂ reads,
      scatterIntoSoa m (.soa (.array (.struct sid) n)) (Place.local soa)
          (.copy (Place.local plain)) = .ok assigns ∧
        assignAll cx mem assigns = some scattered ∧
          runAccesses soa scattered xs = some (end₁, reads) ∧
            runAccesses plain mem xs = some (end₂, reads)) ∧
      ∀ x ∈ xs, ∀ y ∈ xs, ∀ k k', x.Targets m (fuel + 1) sid n soa plain s a fields k →
        y.Targets m (fuel + 1) sid n soa plain s a fields k' → k ≠ k' →
          ∃ p q, addressed x.cx (x.place soa) = some p ∧ addressed y.cx (y.place soa) = some q ∧
            Apart p.1 p.2.storeSize q.1 q.2.storeSize := by
  constructor
  · obtain ⟨assigns, scattered, hassigns, hscattered, hsame⟩ := scatter_same h hd hn hcx mem
    obtain ⟨e₁, e₂, reads, h₁, h₂⟩ := runAccesses_same h hd hn hsame hxs
    exact ⟨assigns, scattered, e₁, e₂, reads, hassigns, hscattered, h₁, h₂⟩
  · intro x hx y hy k k' hk hk' hne
    have hp := (addressed_targets h hd hn hk (hxs x hx).1).1
    have hq := (addressed_targets h hd hn hk' (hxs y hy).1).1
    exact ⟨_, _, hp, hq, h.soaCells.apart k k' hk.inSlots hk'.inSlots hne⟩

end Runs

section Points

/-- Two fields of eight bytes. -/
def pointDrip : StructDef :=
  { name := "P"
    fields := [{ name := "x", ty := .int .w64 true, vis := .flex },
               { name := "y", ty := .int .w64 true, vis := .flex }] }

/-- `s: soa P[200]` at 4096, `a: P[200]` at 65536 and `i: u8` holding 150. -/
def pointCx : Cx where
  m := { structs := [pointDrip], sums := [], externs := [], globals := [], cribGlobals := []
         funcs := [] }
  fuel := 2
  layout := naturalLayout
  mem := { loadInt := fun bits _ => BitVec.ofNat bits 150, loadPtr := fun _ => 0 }
  func :=
    { name := "main", params := [], rets := [], blocks := [], entry := 0
      locals := [{ ty := .soa (.array (.struct 0) 200), name := some "s", kind := .temp },
                 { ty := .array (.struct 0) 200, name := some "a", kind := .temp },
                 { ty := .int .w8 false, name := some "i", kind := .temp }] }
  allocas := fun l => some (BitVec.ofNat 64 (4096 + 61440 * l))

def pointFields : List Llvm.Ty := [.int 64, .int 64]

theorem pointObjects : Objects pointFields 200 4096 65536 := by
  have hsoa : soaSize pointFields 200 = 3200 := by decide
  have hplain : plainSize pointFields 200 = 3200 := by decide
  refine ⟨by rw [hsoa]; decide, by rw [hplain]; decide, ?_⟩
  rw [hsoa, hplain]
  have h : Apart (0 + BitVec.ofNat 64 4096) 3200 (0 + BitVec.ofNat 64 65536) 3200 :=
    Cells.apart_parts 0 (by decide) (by decide)
  exact h

theorem pointLaid : Laid pointCx.m 1 0 pointDrip pointFields := ⟨rfl, rfl⟩

theorem pointFrame : Frame pointCx.m 2 0 200 0 1 4096 65536 pointCx :=
  ⟨rfl, rfl, rfl, rfl, rfl, rfl, rfl⟩

def ones : List Byte := List.replicate 8 1

/-- `s[94].y = v`. -/
def constWrite : Access :=
  { cx := pointCx, index := constIndex 94, field := 1, written := some ones }

/-- `s[i].y = v`. -/
def byteWrite : Access :=
  { cx := pointCx, index := .copy (Place.local 2), field := 1, written := some ones }

/-- `s[94].x`. -/
def pointRead : Access := { cx := pointCx, index := constIndex 94, field := 0, written := none }

theorem constWrite_targets :
    constWrite.Targets pointCx.m 2 0 200 0 1 4096 65536 pointFields (94, 1) :=
  ⟨pointFrame, ⟨_, _, rfl, rfl, by decide⟩, rfl, ⟨by decide, by decide⟩,
    fun v hv => by cases hv; rfl⟩

theorem byteWrite_targets :
    byteWrite.Targets pointCx.m 2 0 200 0 1 4096 65536 pointFields (150, 1) :=
  ⟨pointFrame, ⟨_, _, rfl, rfl, by decide⟩, rfl, ⟨by decide, by decide⟩,
    fun v hv => by cases hv; rfl⟩

theorem pointRead_targets :
    pointRead.Targets pointCx.m 2 0 200 0 1 4096 65536 pointFields (94, 0) :=
  ⟨pointFrame, ⟨_, _, rfl, rfl, by decide⟩, rfl, ⟨by decide, by decide⟩,
    fun v hv => by cases hv⟩

theorem constIndex_fits {x : Access} {i : Nat} (hx : x.index = constIndex i) (hi : i < 2 ^ 32) :
    x.FitsIndex := by
  intro o ho j hj
  rw [hx, constIndex_lower] at ho
  cases ho
  cases hj
  obtain ⟨hnat, hmsb⟩ := constIndex_toNat hi
  rw [IndexOperand.value, if_pos rfl, BitVec.toInt_eq_toNat_of_msb hmsb, hnat]
  have hlt : i < 2 ^ 63 := Nat.lt_trans hi (by decide)
  exact_mod_cast hlt

theorem soa_array_transposes_points :
    (∃ assigns scattered end₁ end₂ reads,
      scatterIntoSoa pointCx.m (.soa (.array (.struct 0) 200)) (Place.local 0)
          (.copy (Place.local 1)) = .ok assigns ∧
        assignAll pointCx (fun _ => 0) assigns = some scattered ∧
          runAccesses 0 scattered [constWrite, pointRead] = some (end₁, reads) ∧
            runAccesses 1 (fun _ => 0) [constWrite, pointRead] = some (end₂, reads)) ∧
      ∃ p q, addressed pointCx (constWrite.place 0) = some p ∧
        addressed pointCx (pointRead.place 0) = some q ∧
          Apart p.1 p.2.storeSize q.1 q.2.storeSize := by
  have hfits : ∀ x ∈ [constWrite, pointRead], x.FitsIndex ∧
      ∃ k, x.Targets pointCx.m 2 0 200 0 1 4096 65536 pointFields k := by
    intro x hx
    rcases List.mem_cons.mp hx with rfl | hx
    · exact ⟨constIndex_fits rfl (by decide), _, constWrite_targets⟩
    · obtain rfl := List.mem_singleton.mp hx
      exact ⟨constIndex_fits rfl (by decide), _, pointRead_targets⟩
  obtain ⟨hrun, hapart⟩ := soa_array_transposes pointObjects pointLaid pointFrame (by decide)
    (fun _ => 0) [constWrite, pointRead] hfits
  exact ⟨hrun, hapart constWrite (by simp) pointRead (by simp) (94, 1) (94, 0) constWrite_targets
    pointRead_targets (by decide)⟩

/-- `s[150].y` with an index of type `u8` is `s[94].x`. -/
theorem byte_index_aliases :
    byteWrite.Targets pointCx.m 2 0 200 0 1 4096 65536 pointFields (150, 1) ∧
      pointRead.Targets pointCx.m 2 0 200 0 1 4096 65536 pointFields (94, 0) ∧
        addressed pointCx (byteWrite.place 0) = addressed pointCx (pointRead.place 0) ∧
          ∃ assigns scattered end₁ end₂,
            scatterIntoSoa pointCx.m (.soa (.array (.struct 0) 200)) (Place.local 0)
                (.copy (Place.local 1)) = .ok assigns ∧
              assignAll pointCx (fun _ => 0) assigns = some scattered ∧
                runAccesses 0 scattered [byteWrite, pointRead] = some (end₁, [ones]) ∧
                  runAccesses 1 (fun _ => 0) [byteWrite, pointRead] =
                    some (end₂, [List.replicate 8 0]) := by
  have hwrite : addressed pointCx (byteWrite.place 0) = some (4848, .int 64) := rfl
  have hread : addressed pointCx (pointRead.place 0) = some (4848, .int 64) := rfl
  have hwrite' : addressed pointCx (byteWrite.place 1) = some (63848, .int 64) := rfl
  have hread' : addressed pointCx (pointRead.place 1) = some (67040, .int 64) := rfl
  have hapart : Apart (0 + BitVec.ofNat 64 63848) 8 (0 + BitVec.ofNat 64 67040) 8 :=
    Cells.apart_parts 0 (by decide) (by decide)
  obtain ⟨assigns, scattered, hassigns, hscattered, _⟩ :=
    scatter_same pointObjects pointLaid (by decide) pointFrame (fun _ => 0)
  refine ⟨byteWrite_targets, pointRead_targets, hwrite.trans hread.symm, assigns, scattered,
    store scattered 4848 ones, store (fun _ => 0) 63848 ones, hassigns, hscattered, ?_, ?_⟩
  · have hones : load (store scattered 4848 ones) 4848 8 = ones :=
      Cells.load_store_same scattered 4848 (by decide)
    rw [← hones]
    rfl
  · have hzeros : load (store (fun _ => 0) 63848 ones) 67040 8 = List.replicate 8 0 :=
      Cells.load_store_apart (fun _ => 0) (by decide) hapart
    rw [← hzeros]
    rfl

end Points

end BetLang.Codegen
