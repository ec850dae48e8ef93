import BetLang.BumpCrib
import BetLang.DynVec
import BetLang.Sequencing
import Mathlib.Algebra.Group.Nat.Defs

/-! The two growable arrays that compiled code can be linked with, the runtime's and the stub's,
against a list of elements. Index arithmetic and slices fault where they would wrap or leave the
buffer. -/

namespace BetLang.VecAgreement

open Bump (isizeMax)
open VecRuntime

/-- `full` is a buffer that cannot grow, `thread` a handle on another thread than its own. -/
inductive Fault where
  | overflow
  | range
  | full
  | thread

def usizeMul (a b : Nat) : Except Fault Nat :=
  if a * b < 2 ^ 64 then .ok (a * b) else .error .overflow

def usizeAdd (a b : Nat) : Except Fault Nat :=
  if a + b < 2 ^ 64 then .ok (a + b) else .error .overflow

/-- The bytes of a buffer from an index on. -/
def bytesAt (data : List Byte) (start size : Nat) : Except Fault (List Byte) :=
  if start + size ≤ data.length then .ok ((data.drop start).take size) else .error .range

/-- `Vec::extend_from_slice`: `room` is what there is memory for. -/
def extendFromSlice (room : Nat → Bool) (data bytes : List Byte) : Except Fault (List Byte) :=
  if bytes.isEmpty || room (data.length + bytes.length) then .ok (data ++ bytes)
  else .error .full

/-- `checked_div` gives nothing for elements without a size, and that counts as empty. -/
def lenBytes (elemSize : Nat) (data : List Byte) : Nat :=
  if elemSize = 0 then 0 else data.length / elemSize

def popBytes (elemSize : Nat) (data out : List Byte) :
    Except Fault (Bool × List Byte × List Byte) := do
  let n := lenBytes elemSize data
  if n = 0 then return (false, out, data)
  else
    let start ← usizeMul (n - 1) elemSize
    let elem ← bytesAt data start elemSize
    return (true, elem ++ out.drop elemSize, data.take start)

def getBytes (elemSize : Nat) (data : List Byte) (idx : Nat) (out : List Byte) :
    Except Fault (Bool × List Byte) := do
  if idx ≥ lenBytes elemSize data then return (false, out)
  else
    let start ← usizeMul idx elemSize
    let elem ← bytesAt data start elemSize
    return (true, elem ++ out.drop elemSize)

def setBytes (elemSize : Nat) (data : List Byte) (idx : Nat) (elem : List Byte) :
    Except Fault (Bool × List Byte) := do
  if idx ≥ lenBytes elemSize data then return (false, data)
  else
    let start ← usizeMul idx elemSize
    let stop ← usizeAdd start elemSize
    let _ ← bytesAt data start elemSize
    return (true, data.take start ++ elem ++ data.drop stop)

/-- The entry points on one vector; `elem`, `out` and `bytes` are the bytes at the pointer. -/
structure Impl (σ : Type) where
  new : Nat → σ
  push : (Nat → Bool) → σ → List Byte → Except Fault σ
  pop : σ → List Byte → Except Fault (Bool × List Byte × σ)
  get : σ → Nat → List Byte → Except Fault (Bool × List Byte)
  set : σ → Nat → List Byte → Except Fault (Bool × σ)
  len : σ → Except Fault Nat
  extend : (Nat → Bool) → σ → List Byte → Except Fault σ

namespace Runtime

/-- `vec_ref` and `vec_ref_shared`. -/
def vecRef (thread : Nat) (v : DynVec) : Except Fault DynVec :=
  if v.owner = thread then .ok v else .error .thread

def betVecNew (thread elemSize : Nat) : DynVec := ⟨thread, elemSize, []⟩

def betVecPush (thread : Nat) (room : Nat → Bool) (v : DynVec) (elem : List Byte) :
    Except Fault DynVec := do
  let v ← vecRef thread v
  return { v with data := ← extendFromSlice room v.data (elem.take v.elemSize) }

def betVecPop (thread : Nat) (v : DynVec) (out : List Byte) :
    Except Fault (Bool × List Byte × DynVec) := do
  let v ← vecRef thread v
  let r ← popBytes v.elemSize v.data out
  return (r.1, r.2.1, { v with data := r.2.2 })

def betVecGet (thread : Nat) (v : DynVec) (idx : Nat) (out : List Byte) :
    Except Fault (Bool × List Byte) := do
  let v ← vecRef thread v
  getBytes v.elemSize v.data idx out

def betVecSet (thread : Nat) (v : DynVec) (idx : Nat) (elem : List Byte) :
    Except Fault (Bool × DynVec) := do
  let v ← vecRef thread v
  let r ← setBytes v.elemSize v.data idx (elem.take v.elemSize)
  return (r.1, { v with data := r.2 })

def betVecLen (thread : Nat) (v : DynVec) : Except Fault Nat := do
  let v ← vecRef thread v
  return lenBytes v.elemSize v.data

def betVecExtend (thread : Nat) (room : Nat → Bool) (v : DynVec) (bytes : List Byte) :
    Except Fault DynVec := do
  let v ← vecRef thread v
  return { v with data := ← extendFromSlice room v.data bytes }

end Runtime

def runtime (thread : Nat) : Impl DynVec where
  new := Runtime.betVecNew thread
  push := Runtime.betVecPush thread
  pop := Runtime.betVecPop thread
  get := Runtime.betVecGet thread
  set := Runtime.betVecSet thread
  len := Runtime.betVecLen thread
  extend := Runtime.betVecExtend thread

namespace Stub

structure DynVec where
  elemSize : Nat
  data : List Byte

def betVecNew (elemSize : Nat) : DynVec := ⟨elemSize, []⟩

def betVecPush (room : Nat → Bool) (v : DynVec) (elem : List Byte) : Except Fault DynVec := do
  return { v with data := ← extendFromSlice room v.data (elem.take v.elemSize) }

def betVecPop (v : DynVec) (out : List Byte) : Except Fault (Bool × List Byte × DynVec) := do
  let r ← popBytes v.elemSize v.data out
  return (r.1, r.2.1, { v with data := r.2.2 })

def betVecGet (v : DynVec) (idx : Nat) (out : List Byte) : Except Fault (Bool × List Byte) :=
  getBytes v.elemSize v.data idx out

def betVecSet (v : DynVec) (idx : Nat) (elem : List Byte) : Except Fault (Bool × DynVec) := do
  let r ← setBytes v.elemSize v.data idx (elem.take v.elemSize)
  return (r.1, { v with data := r.2 })

def betVecLen (v : DynVec) : Except Fault Nat := return lenBytes v.elemSize v.data

def betVecExtend (room : Nat → Bool) (v : DynVec) (bytes : List Byte) : Except Fault DynVec := do
  return { v with data := ← extendFromSlice room v.data bytes }

end Stub

def stub : Impl Stub.DynVec where
  new := Stub.betVecNew
  push := Stub.betVecPush
  pop := Stub.betVecPop
  get := Stub.betVecGet
  set := Stub.betVecSet
  len := Stub.betVecLen
  extend := Stub.betVecExtend

/-- The bytes of an element. -/
abbrev Block (k : Nat) := { bs : List Byte // bs.length = k }

/-- `out` is what the local for the result holds. -/
inductive Op (k : Nat) where
  | push (elem : Block k)
  | pop (out : Block k)
  | get (idx : Nat) (out : Block k)
  | set (idx : Nat) (elem : Block k)
  | len
  | extend (elems : List (Block k))

/-- The status of an operation, and what is at `out` then. -/
inductive Output where
  | done
  | popped (found : Bool) (out : List Byte)
  | got (found : Bool) (out : List Byte)
  | stored (found : Bool)
  | length (n : Nat)
  deriving DecidableEq

def bytesOf {k : Nat} (es : List (Block k)) : List Byte := (es.map Subtype.val).flatten

section Run

variable {σ : Type} {k : Nat}

def step (impl : Impl σ) (room : Nat → Bool) (v : σ) : Op k → Except Fault (Output × σ)
  | .push elem => do return (.done, ← impl.push room v elem.val)
  | .pop out => do
    let r ← impl.pop v out.val
    return (.popped r.1 r.2.1, r.2.2)
  | .get idx out => do
    let r ← impl.get v idx out.val
    return (.got r.1 r.2, v)
  | .set idx elem => do
    let r ← impl.set v idx elem.val
    return (.stored r.1, r.2)
  | .len => do return (.length (← impl.len v), v)
  | .extend elems => do return (.done, ← impl.extend room v (bytesOf elems))

/-- A run on a vector; `room` is asked with the number of operations to come. -/
def run (impl : Impl σ) (room : Nat → Nat → Bool) (v : σ) :
    List (Op k) → Except Fault (List Output × σ)
  | [] => return ([], v)
  | op :: ops => do
    let r ← step impl (room ops.length) v op
    let rest ← run impl room r.2 ops
    return (r.1 :: rest.1, rest.2)

/-- More elements, where there is memory for their bytes. -/
def listAppend (room : Nat → Bool) (es added : List (Block k)) : Except Fault (List (Block k)) :=
  if added.length * k = 0 ∨ room ((es.length + added.length) * k) then .ok (es ++ added)
  else .error .full

/-- The operation on a list of elements. -/
def listStep (room : Nat → Bool) (es : List (Block k)) :
    Op k → Except Fault (Output × List (Block k))
  | .push elem => do return (.done, ← listAppend room es [elem])
  | .pop out =>
    match es.getLast? with
    | none => return (.popped false out.val, es)
    | some e => return (.popped true e.val, es.dropLast)
  | .get idx out =>
    match es[idx]? with
    | none => return (.got false out.val, es)
    | some e => return (.got true e.val, es)
  | .set idx elem =>
    if idx < es.length then return (.stored true, es.set idx elem) else return (.stored false, es)
  | .len => return (.length es.length, es)
  | .extend elems => do return (.done, ← listAppend room es elems)

def listRun (room : Nat → Nat → Bool) (es : List (Block k)) :
    List (Op k) → Except Fault (List Output × List (Block k))
  | [] => return ([], es)
  | op :: ops => do
    let r ← listStep (room ops.length) es op
    let rest ← listRun room r.2 ops
    return (r.1 :: rest.1, rest.2)

def Op.added : Op k → Nat
  | .push _ => 1
  | .extend elems => elems.length
  | _ => 0

def Output.isPop : Output → Bool
  | .popped found _ => found
  | _ => false

def Output.failed : Output → Bool
  | .popped found _ | .got found _ | .stored found => !found
  | _ => false

/-- What an operation on an empty vector gives. -/
def emptyOutput : Op k → Output
  | .push _ | .extend _ => .done
  | .pop out => .popped false out.val
  | .get _ out => .got false out.val
  | .set _ _ => .stored false
  | .len => .length 0

end Run

/-- What both implementations are: their operations on the bytes of a buffer. -/
structure Flat {σ : Type} (impl : Impl σ) (k : Nat) (ofBytes : List Byte → σ) : Prop where
  new : impl.new k = ofBytes []
  push : ∀ room data elem, impl.push room (ofBytes data) elem =
    ofBytes <$> extendFromSlice room data (elem.take k)
  pop : ∀ data out, impl.pop (ofBytes data) out =
    (fun r => (r.1, r.2.1, ofBytes r.2.2)) <$> popBytes k data out
  get : ∀ data idx out, impl.get (ofBytes data) idx out = getBytes k data idx out
  set : ∀ data idx elem, impl.set (ofBytes data) idx elem =
    (fun r => (r.1, ofBytes r.2)) <$> setBytes k data idx (elem.take k)
  len : ∀ data, impl.len (ofBytes data) = .ok (lenBytes k data)
  extend : ∀ room data bytes, impl.extend room (ofBytes data) bytes =
    ofBytes <$> extendFromSlice room data bytes

theorem runtime_flat (thread k : Nat) : Flat (runtime thread) k (DynVec.mk thread k) := by
  have href : ∀ data, Runtime.vecRef thread ⟨thread, k, data⟩ = .ok ⟨thread, k, data⟩ :=
    fun _ => if_pos rfl
  constructor <;> intros <;> simp [runtime, Runtime.betVecNew, Runtime.betVecPush,
    Runtime.betVecPop, Runtime.betVecGet, Runtime.betVecSet, Runtime.betVecLen,
    Runtime.betVecExtend, href, except_ok_bind]

theorem stub_flat (k : Nat) : Flat stub k (Stub.DynVec.mk k) where
  new := rfl
  push room data elem := by simp [stub, Stub.betVecPush]
  pop data out := by simp [stub, Stub.betVecPop]
  get _ _ _ := rfl
  set data idx elem := by simp [stub, Stub.betVecSet]
  len _ := rfl
  extend room data bytes := by simp [stub, Stub.betVecExtend]

section Bytes

variable {k : Nat} {es : List (Block k)}

theorem holds_bytesOf (es : List (Block k)) : Holds ⟨0, k, bytesOf es⟩ (es.map Subtype.val) where
  data := rfl
  size e he := by
    obtain ⟨b, -, rfl⟩ := List.mem_map.mp he
    exact b.property

theorem bytesOf_length (es : List (Block k)) : (bytesOf es).length = es.length * k := by
  rw [bytesOf, length_flatten_chunks (holds_bytesOf es).size, List.length_map]

theorem bytesOf_append (es es' : List (Block k)) :
    bytesOf (es ++ es') = bytesOf es ++ bytesOf es' := by
  simp [bytesOf]

theorem bytesOf_singleton (e : Block k) : bytesOf [e] = e.val := by
  simp [bytesOf]

theorem lenBytes_eq (hk : 0 < k) (es : List (Block k)) : lenBytes k (bytesOf es) = es.length := by
  have hlen := (holds_bytesOf es).len hk
  rwa [List.length_map] at hlen

/-- The elements have room in a buffer. -/
def Fits (es : List (Block k)) : Prop := es.length * k ≤ isizeMax

theorem Fits.lt (h : Fits es) : es.length * k < 2 ^ 64 :=
  Nat.lt_of_le_of_lt h (by decide)

theorem start_ok (h : Fits es) {i : Nat} (hi : i < es.length) :
    usizeMul i k = .ok (i * k) ∧ usizeAdd (i * k) k = .ok ((i + 1) * k) ∧
      i * k + k ≤ (bytesOf es).length := by
  have hle : (i + 1) * k ≤ es.length * k := Nat.mul_le_mul_right k hi
  have hlt := h.lt
  rw [Nat.succ_mul] at hle ⊢
  rw [bytesOf_length]
  exact ⟨if_pos (by omega), if_pos (by omega), hle⟩

theorem bytesAt_ok (h : Fits es) {i : Nat} {e : Block k} (hi : es[i]? = some e) :
    bytesAt (bytesOf es) (i * k) k = .ok e.val := by
  have hlt : i < es.length := (List.getElem?_eq_some_iff.mp hi).1
  have helem : (es.map Subtype.val)[i]? = some e.val := by
    rw [List.getElem?_map, hi, Option.map_some]
  rw [bytesAt, if_pos (start_ok h hlt).2.2, (holds_bytesOf es).element helem]

theorem block_over (e out : Block k) : e.val ++ out.val.drop k = e.val := by
  rw [List.drop_eq_nil_of_le (Nat.le_of_eq out.property), List.append_nil]

theorem popBytes_nil (k : Nat) (out : List Byte) : popBytes k [] out = .ok (false, out, []) := by
  have hlen : lenBytes k [] = 0 := by simp [lenBytes]
  rw [popBytes, hlen]
  rfl

theorem popBytes_concat (hk : 0 < k) {e : Block k} (h : Fits (es ++ [e])) (out : Block k) :
    popBytes k (bytesOf (es ++ [e])) out.val = .ok (true, e.val, bytesOf es) := by
  have hlen : lenBytes k (bytesOf (es ++ [e])) = es.length + 1 := by
    rw [lenBytes_eq hk, List.length_append, List.length_singleton]
  have hlast : (es ++ [e])[es.length]? = some e := by simp
  have hlt : es.length < (es ++ [e]).length := by simp
  have htake : (bytesOf (es ++ [e])).take (es.length * k) = bytesOf es := by
    rw [bytesOf_append, List.take_left' (bytesOf_length es)]
  simp [popBytes, hlen, (start_ok h hlt).1, bytesAt_ok h hlast, htake, block_over, bind,
    Except.bind, pure, Except.pure]

theorem getBytes_out (hk : 0 < k) {i : Nat} (hi : es[i]? = none) (out : List Byte) :
    getBytes k (bytesOf es) i out = .ok (false, out) := by
  have hge : i ≥ lenBytes k (bytesOf es) := by
    rw [lenBytes_eq hk]
    exact List.getElem?_eq_none_iff.mp hi
  rw [getBytes, if_pos hge]
  rfl

theorem getBytes_in (hk : 0 < k) (h : Fits es) {i : Nat} {e : Block k} (hi : es[i]? = some e)
    (out : Block k) : getBytes k (bytesOf es) i out.val = .ok (true, e.val) := by
  have hlt : i < es.length := (List.getElem?_eq_some_iff.mp hi).1
  have hin : ¬i ≥ lenBytes k (bytesOf es) := by
    rw [lenBytes_eq hk]
    omega
  rw [getBytes, if_neg hin]
  simp [(start_ok h hlt).1, bytesAt_ok h hi, block_over, bind, Except.bind, pure, Except.pure]

theorem setBytes_out (hk : 0 < k) {i : Nat} (hi : ¬i < es.length) (elem : List Byte) :
    setBytes k (bytesOf es) i elem = .ok (false, bytesOf es) := by
  have hge : i ≥ lenBytes k (bytesOf es) := by
    rw [lenBytes_eq hk]
    omega
  rw [setBytes, if_pos hge]
  rfl

theorem setBytes_in (hk : 0 < k) (h : Fits es) {i : Nat} (hi : i < es.length) (elem : Block k) :
    setBytes k (bytesOf es) i elem.val = .ok (true, bytesOf (es.set i elem)) := by
  have hin : ¬i ≥ lenBytes k (bytesOf es) := by
    rw [lenBytes_eq hk]
    omega
  have hget := bytesAt_ok h (List.getElem?_eq_getElem hi)
  have hbytes : (bytesOf es).take (i * k) ++ elem.val ++ (bytesOf es).drop ((i + 1) * k) =
      bytesOf (es.set i elem) := by
    have hsizes := (holds_bytesOf es).size
    rw [bytesOf, take_chunks hsizes, drop_chunks hsizes, List.set_eq_take_append_cons_drop,
      if_pos hi, bytesOf, List.map_append, List.map_cons, List.flatten_append, List.flatten_cons,
      List.map_take, List.map_drop, List.append_assoc]
  obtain ⟨hmul, hadd, -⟩ := start_ok h hi
  rw [setBytes, if_neg hin]
  simp only [hmul, hadd, hget, hbytes, bind, Except.bind, pure, Except.pure]

theorem extendFromSlice_eq (room : Nat → Bool) (es added : List (Block k)) :
    extendFromSlice room (bytesOf es) (bytesOf added) = bytesOf <$> listAppend room es added := by
  have hempty : (bytesOf added).isEmpty = true ↔ added.length * k = 0 := by
    rw [← bytesOf_length, List.isEmpty_iff, List.length_eq_zero_iff]
  have hsum : (bytesOf es).length + (bytesOf added).length = (es.length + added.length) * k := by
    rw [bytesOf_length, bytesOf_length, Nat.add_mul]
  rw [extendFromSlice, listAppend, hsum]
  by_cases hroom : added.length * k = 0 ∨ room ((es.length + added.length) * k) = true
  · have hyes : ((bytesOf added).isEmpty || room ((es.length + added.length) * k)) = true := by
      rwa [Bool.or_eq_true, hempty]
    rw [if_pos hyes, if_pos hroom, Except.map_ok, bytesOf_append]
  · have hno : ¬((bytesOf added).isEmpty || room ((es.length + added.length) * k)) = true := by
      rwa [Bool.or_eq_true, hempty]
    rw [if_neg hno, if_neg hroom]
    rfl

/-- There is never memory for more bytes than a buffer can have. -/
def Limited (room : Nat → Bool) : Prop := ∀ n, room n = true → n ≤ isizeMax

theorem listAppend_fits (hk : 0 < k) {room : Nat → Bool} (hroom : Limited room) (h : Fits es)
    {added es' : List (Block k)} (ha : listAppend room es added = .ok es') : Fits es' := by
  rw [listAppend] at ha
  split at ha
  · rename_i hok
    cases ha
    rw [Fits, List.length_append]
    rcases hok with hzero | hok
    · have hnil : added.length = 0 := by
        rcases Nat.mul_eq_zero.mp hzero with hnil | hzero
        · exact hnil
        · omega
      rw [hnil]
      exact h
    · exact hroom _ hok
  · cases ha

theorem listStep_fits (hk : 0 < k) {room : Nat → Bool} (hroom : Limited room) (h : Fits es)
    {op : Op k} {r : Output × List (Block k)} (hr : listStep room es op = .ok r) : Fits r.2 := by
  cases op with
  | push elem =>
    obtain ⟨es', ha, hr⟩ := except_bind_ok hr
    cases hr
    exact listAppend_fits hk hroom h ha
  | pop out =>
    have hle : es.dropLast.length * k ≤ es.length * k :=
      Nat.mul_le_mul_right k (by rw [List.length_dropLast]; omega)
    rw [listStep] at hr
    split at hr
    · cases hr
      exact h
    · cases hr
      exact Nat.le_trans hle h
  | get idx out =>
    rw [listStep] at hr
    split at hr <;> cases hr <;> exact h
  | set idx elem =>
    rw [listStep] at hr
    split at hr
    · cases hr
      rwa [Fits, List.length_set]
    · cases hr
      exact h
  | len =>
    cases hr
    exact h
  | extend elems =>
    obtain ⟨es', ha, hr⟩ := except_bind_ok hr
    cases hr
    exact listAppend_fits hk hroom h ha

end Bytes

section Simulation

variable {σ : Type} {impl : Impl σ} {k : Nat} {ofBytes : List Byte → σ}

theorem block_take (e : Block k) : e.val.take k = e.val :=
  List.take_of_length_le (Nat.le_of_eq e.property)

/-- One operation on the bytes of a list is that operation on the list. -/
theorem step_eq (himpl : Flat impl k ofBytes) (hk : 0 < k) (room : Nat → Bool)
    {es : List (Block k)} (h : Fits es) (op : Op k) :
    step impl room (ofBytes (bytesOf es)) op =
      (fun r => (r.1, ofBytes (bytesOf r.2))) <$> listStep room es op := by
  cases op with
  | push elem =>
    have happend := extendFromSlice_eq room es [elem]
    rw [bytesOf_singleton] at happend
    rw [step, listStep, himpl.push, block_take, happend]
    simp
  | pop out =>
    rw [step, listStep, himpl.pop]
    rcases List.eq_nil_or_concat es with rfl | ⟨init, last, rfl⟩
    · rw [show bytesOf ([] : List (Block k)) = [] from rfl, popBytes_nil]
      rfl
    · rw [List.concat_eq_append] at h ⊢
      rw [popBytes_concat hk h, List.getLast?_concat, List.dropLast_concat]
      rfl
  | get idx out =>
    rw [step, listStep, himpl.get]
    cases hi : es[idx]? with
    | none =>
      rw [getBytes_out hk hi]
      rfl
    | some e =>
      rw [getBytes_in hk h hi]
      rfl
  | set idx elem =>
    rw [step, listStep, himpl.set, block_take]
    by_cases hi : idx < es.length
    · rw [setBytes_in hk h hi, if_pos hi]
      rfl
    · rw [setBytes_out hk hi, if_neg hi]
      rfl
  | len =>
    rw [step, listStep, himpl.len, lenBytes_eq hk]
    rfl
  | extend elems =>
    rw [step, listStep, himpl.extend, extendFromSlice_eq]
    simp

theorem run_eq (himpl : Flat impl k ofBytes) (hk : 0 < k) {room : Nat → Nat → Bool}
    (hroom : ∀ i, Limited (room i)) {es : List (Block k)} (h : Fits es) (ops : List (Op k)) :
    run impl room (ofBytes (bytesOf es)) ops =
      (fun r => (r.1, ofBytes (bytesOf r.2))) <$> listRun room es ops := by
  induction ops generalizing es with
  | nil => rfl
  | cons op ops ih =>
    rw [run, listRun, step_eq himpl hk (room ops.length) h op]
    cases hr : listStep (room ops.length) es op with
    | error e => rfl
    | ok r =>
      rw [Except.map_ok, except_ok_bind, except_ok_bind,
        ih (listStep_fits hk (hroom ops.length) h hr)]
      cases listRun room r.2 ops <;> rfl

theorem step_empty (himpl : Flat impl 0 ofBytes) (room : Nat → Bool) (op : Op 0) :
    step impl room (ofBytes []) op = .ok (emptyOutput op, ofBytes []) := by
  cases op with
  | push elem =>
    rw [step, himpl.push]
    rfl
  | pop out =>
    rw [step, himpl.pop, popBytes_nil]
    rfl
  | get idx out =>
    rw [step, himpl.get]
    rfl
  | set idx elem =>
    rw [step, himpl.set]
    rfl
  | len =>
    rw [step, himpl.len]
    rfl
  | extend elems =>
    have hnil : bytesOf elems = [] :=
      List.eq_nil_of_length_eq_zero ((bytesOf_length elems).trans (Nat.mul_zero _))
    rw [step, himpl.extend, hnil]
    rfl

theorem run_empty (himpl : Flat impl 0 ofBytes) (room : Nat → Nat → Bool) (ops : List (Op 0)) :
    run impl room (ofBytes []) ops = .ok (ops.map emptyOutput, ofBytes []) := by
  induction ops with
  | nil => rfl
  | cons op ops ih =>
    rw [run, step_empty himpl, except_ok_bind, ih]
    rfl

theorem popBytes_failed {data out : List Byte} {r : Bool × List Byte × List Byte}
    (hr : popBytes k data out = .ok r) (hfailed : r.1 = false) : r.2.2 = data := by
  by_cases hn : lenBytes k data = 0
  · rw [popBytes, if_pos hn] at hr
    cases hr
    rfl
  · rw [popBytes, if_neg hn] at hr
    obtain ⟨start, -, hr⟩ := except_bind_ok hr
    obtain ⟨elem, -, hr⟩ := except_bind_ok hr
    cases hr
    cases hfailed

theorem setBytes_failed {data elem : List Byte} {i : Nat} {r : Bool × List Byte}
    (hr : setBytes k data i elem = .ok r) (hfailed : r.1 = false) : r.2 = data := by
  by_cases hi : i ≥ lenBytes k data
  · rw [setBytes, if_pos hi] at hr
    cases hr
    rfl
  · rw [setBytes, if_neg hi] at hr
    obtain ⟨start, -, hr⟩ := except_bind_ok hr
    obtain ⟨stop, -, hr⟩ := except_bind_ok hr
    obtain ⟨old, -, hr⟩ := except_bind_ok hr
    cases hr
    cases hfailed

/-- An operation that fails leaves the vector as it is. -/
theorem failed_unchanged (himpl : Flat impl k ofBytes) {room : Nat → Bool} {data : List Byte}
    {op : Op k} {r : Output × σ} (hr : step impl room (ofBytes data) op = .ok r)
    (hfailed : r.1.failed = true) : r.2 = ofBytes data := by
  cases op with
  | push elem =>
    obtain ⟨v, -, hr⟩ := except_bind_ok hr
    cases hr
    cases hfailed
  | pop out =>
    rw [step, himpl.pop] at hr
    cases hp : popBytes k data out.val with
    | error e =>
      rw [hp] at hr
      cases hr
    | ok p =>
      rw [hp] at hr
      cases hr
      have hfound : p.1 = false := by simpa [Output.failed] using hfailed
      exact congrArg ofBytes (popBytes_failed hp hfound)
  | get idx out =>
    obtain ⟨g, -, hr⟩ := except_bind_ok hr
    cases hr
    rfl
  | set idx elem =>
    rw [step, himpl.set] at hr
    cases hp : setBytes k data idx (elem.val.take k) with
    | error e =>
      rw [hp] at hr
      cases hr
    | ok p =>
      rw [hp] at hr
      cases hr
      have hfound : p.1 = false := by simpa [Output.failed] using hfailed
      exact congrArg ofBytes (setBytes_failed hp hfound)
  | len =>
    obtain ⟨n, -, hr⟩ := except_bind_ok hr
    cases hr
    rfl
  | extend elems =>
    obtain ⟨v, -, hr⟩ := except_bind_ok hr
    cases hr
    cases hfailed

end Simulation

section Lists

variable {k : Nat} {es : List (Block k)}

def addedBy : List (Op k) → Nat
  | [] => 0
  | op :: ops => op.added + addedBy ops

theorem listAppend_error {room : Nat → Bool} {added : List (Block k)} {e : Fault}
    (h : listAppend room es added = .error e) : e = .full := by
  rw [listAppend] at h
  split at h <;> cases h
  rfl

theorem listStep_error {room : Nat → Bool} {op : Op k} {e : Fault}
    (h : listStep room es op = .error e) : e = .full := by
  cases op with
  | push elem =>
    cases ha : listAppend room es [elem] with
    | error e' =>
      rw [listStep, ha] at h
      cases h
      exact listAppend_error ha
    | ok es' =>
      rw [listStep, ha] at h
      cases h
  | pop out =>
    rw [listStep] at h
    split at h <;> cases h
  | get idx out =>
    rw [listStep] at h
    split at h <;> cases h
  | set idx elem =>
    rw [listStep] at h
    split at h <;> cases h
  | len => cases h
  | extend elems =>
    cases ha : listAppend room es elems with
    | error e' =>
      rw [listStep, ha] at h
      cases h
      exact listAppend_error ha
    | ok es' =>
      rw [listStep, ha] at h
      cases h

theorem listRun_error {room : Nat → Nat → Bool} {ops : List (Op k)} {e : Fault}
    (h : listRun room es ops = .error e) : e = .full := by
  induction ops generalizing es with
  | nil => cases h
  | cons op ops ih =>
    rw [listRun] at h
    cases hr : listStep (room ops.length) es op with
    | error e' =>
      rw [hr] at h
      cases h
      exact listStep_error hr
    | ok r =>
      rw [hr, except_ok_bind] at h
      cases hrest : listRun room r.2 ops with
      | error e' =>
        rw [hrest] at h
        cases h
        exact ih hrest
      | ok rest =>
        rw [hrest] at h
        cases h

theorem listAppend_length {room : Nat → Bool} {added es' : List (Block k)}
    (h : listAppend room es added = .ok es') : es'.length = es.length + added.length := by
  rw [listAppend] at h
  split at h <;> cases h
  exact List.length_append

theorem listStep_length {room : Nat → Bool} {op : Op k} {r : Output × List (Block k)}
    (h : listStep room es op = .ok r) :
    r.2.length + (if r.1.isPop then 1 else 0) = es.length + op.added := by
  cases op with
  | push elem =>
    obtain ⟨es', ha, h⟩ := except_bind_ok h
    cases h
    exact listAppend_length ha
  | pop out =>
    rcases List.eq_nil_or_concat es with rfl | ⟨init, last, rfl⟩
    · cases h
      rfl
    · rw [List.concat_eq_append] at h ⊢
      rw [listStep, List.getLast?_concat, List.dropLast_concat] at h
      cases h
      simp [Output.isPop, Op.added]
  | get idx out =>
    rw [listStep] at h
    split at h <;> cases h <;> rfl
  | set idx elem =>
    rw [listStep] at h
    split at h <;> cases h
    · simp [Output.isPop, Op.added]
    · rfl
  | len =>
    cases h
    rfl
  | extend elems =>
    obtain ⟨es', ha, h⟩ := except_bind_ok h
    cases h
    exact listAppend_length ha

theorem listRun_length {room : Nat → Nat → Bool} {ops : List (Op k)}
    {r : List Output × List (Block k)} (h : listRun room es ops = .ok r) :
    r.2.length + r.1.countP Output.isPop = es.length + addedBy ops := by
  induction ops generalizing es r with
  | nil =>
    cases h
    rfl
  | cons op ops ih =>
    obtain ⟨r₁, hstep, h⟩ := except_bind_ok h
    obtain ⟨r₂, hrest, h⟩ := except_bind_ok h
    cases h
    have hlen := listStep_length hstep
    have hlen' := ih hrest
    show r₂.2.length + (r₁.1 :: r₂.1).countP Output.isPop = _
    rw [List.countP_cons, addedBy]
    omega

end Lists

section Agreement

variable {σ : Type} {k : Nat}

/-- The vector gives what a list of elements gives, from the empty one on: the same statuses and
bytes up to a buffer that cannot grow, and no other fault. -/
structure Simulates (impl : Impl σ) (ofBytes : List Byte → σ) (room : Nat → Nat → Bool)
    (ops : List (Op k)) : Prop where
  outputs : run impl room (impl.new k) ops =
    (fun r => (r.1, ofBytes (bytesOf r.2))) <$> listRun room ([] : List (Block k)) ops
  faults : ∀ e, run impl room (impl.new k) ops = .error e → e = .full
  length : ∀ r, run impl room (impl.new k) ops = .ok r →
    ∃ n, impl.len r.2 = .ok n ∧ n + r.1.countP Output.isPop = addedBy ops

theorem simulates {impl : Impl σ} {ofBytes : List Byte → σ} (himpl : Flat impl k ofBytes)
    (hk : 0 < k) {room : Nat → Nat → Bool} (hroom : ∀ i, Limited (room i)) (ops : List (Op k)) :
    Simulates impl ofBytes room ops := by
  have hnil : Fits ([] : List (Block k)) := by simp [Fits]
  have hrun := run_eq himpl hk hroom hnil ops
  have hnew : impl.new k = ofBytes (bytesOf ([] : List (Block k))) := himpl.new
  refine ⟨hnew ▸ hrun, fun e he => ?_, fun r hr => ?_⟩
  · rw [hnew, hrun] at he
    cases hlist : listRun room ([] : List (Block k)) ops with
    | error e' =>
      rw [hlist] at he
      cases he
      exact listRun_error hlist
    | ok r =>
      rw [hlist] at he
      cases he
  · rw [hnew, hrun] at hr
    cases hlist : listRun room ([] : List (Block k)) ops with
    | error e' =>
      rw [hlist] at hr
      cases hr
    | ok r' =>
      rw [hlist] at hr
      cases hr
      refine ⟨r'.2.length, ?_, ?_⟩
      · rw [himpl.len, lenBytes_eq hk]
      · simpa using listRun_length hlist

/-- The vector counts as empty whatever is added, and nothing is found in it. -/
def StaysEmpty (impl : Impl σ) (room : Nat → Nat → Bool) (ops : List (Op k)) : Prop :=
  run impl room (impl.new k) ops = .ok (ops.map emptyOutput, impl.new k)

theorem staysEmpty {impl : Impl σ} {ofBytes : List Byte → σ} (himpl : Flat impl 0 ofBytes)
    (room : Nat → Nat → Bool) (ops : List (Op 0)) : StaysEmpty impl room ops := by
  rw [StaysEmpty, himpl.new, run_empty himpl]

/-- A failed operation leaves a vector of these as it is. -/
def FailsClean (impl : Impl σ) (k : Nat) (ofBytes : List Byte → σ) : Prop :=
  ∀ (room : Nat → Bool) (data : List Byte) (op : Op k) (r : Output × σ),
    step impl room (ofBytes data) op = .ok r → r.1.failed = true → r.2 = ofBytes data

/-- Both vectors are the list of what was added and not popped; where the elements have no size
they stay empty. -/
theorem vecs_simulate_list {room : Nat → Nat → Bool} (hroom : ∀ i, Limited (room i))
    (thread k : Nat) (ops : List (Op k)) :
    (0 < k → Simulates (runtime thread) (DynVec.mk thread k) room ops ∧
      Simulates stub (Stub.DynVec.mk k) room ops) ∧
    (k = 0 → StaysEmpty (runtime thread) room ops ∧ StaysEmpty stub room ops) ∧
    FailsClean (runtime thread) k (DynVec.mk thread k) ∧
    FailsClean stub k (Stub.DynVec.mk k) := by
  have hruntime := runtime_flat thread k
  have hstub := stub_flat k
  refine ⟨fun hk => ⟨simulates hruntime hk hroom ops, simulates hstub hk hroom ops⟩, ?_,
    fun _ _ _ _ => failed_unchanged hruntime, fun _ _ _ _ => failed_unchanged hstub⟩
  rintro rfl
  exact ⟨staysEmpty hruntime room ops, staysEmpty hstub room ops⟩

/-- Memory up to what a buffer can have. -/
def upToLimit (_ n : Nat) : Bool := n ≤ isizeMax

theorem upToLimit_limited (i : Nat) : Limited (upToLimit i) := fun _ h => of_decide_eq_true h

def pairOps : List (Op 2) :=
  [.push ⟨[1, 2], rfl⟩, .extend [⟨[3, 4], rfl⟩], .get 7 ⟨[0, 0], rfl⟩, .pop ⟨[0, 0], rfl⟩]

theorem vecs_simulate_list_pair :
    Simulates (runtime 0) (DynVec.mk 0 2) upToLimit pairOps ∧
      Simulates stub (Stub.DynVec.mk 2) upToLimit pairOps :=
  (vecs_simulate_list upToLimit_limited 0 2 pairOps).1 (by decide)

def unitOps : List (Op 0) := [.push ⟨[], rfl⟩, .len]

/-- An element without a size has been added, and the length is still 0. -/
theorem sizeless_len_zero : ¬Simulates stub (Stub.DynVec.mk 0) upToLimit unitOps := by
  intro h
  cases h.outputs

end Agreement

end BetLang.VecAgreement
