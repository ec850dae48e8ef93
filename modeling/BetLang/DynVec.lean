import Mathlib.Data.List.Basic
import Mathlib.Tactic.Common

/-! The runtime's growable array: a flat buffer of elements of one size. A pointer to an element is
the bytes from there on, a handle the place of its vector among all that were made. -/

namespace BetLang.VecRuntime

abbrev Byte := BitVec 8

/-- `owner` is the thread that made it. -/
structure DynVec where
  owner : Nat
  elemSize : Nat
  data : List Byte

/-- A vector of elements without a size counts as empty. -/
def DynVec.len (v : DynVec) : Nat := if v.elemSize = 0 then 0 else v.data.length / v.elemSize

def DynVec.push (v : DynVec) (elem : List Byte) : DynVec :=
  { v with data := v.data ++ elem.take v.elemSize }

/-- The bytes of an element, copied over what is at `out`. -/
def DynVec.copyOut (v : DynVec) (start : Nat) (out : List Byte) : List Byte :=
  (v.data.drop start).take v.elemSize ++ out.drop v.elemSize

def DynVec.pop (v : DynVec) (out : List Byte) : Bool × List Byte × DynVec :=
  if v.len = 0 then (false, out, v)
  else
    let start := (v.len - 1) * v.elemSize
    (true, v.copyOut start out, { v with data := v.data.take start })

def DynVec.get (v : DynVec) (idx : Nat) (out : List Byte) : Bool × List Byte :=
  if idx ≥ v.len then (false, out) else (true, v.copyOut (idx * v.elemSize) out)

def DynVec.set (v : DynVec) (idx : Nat) (elem : List Byte) : Bool × DynVec :=
  if idx ≥ v.len then (false, v)
  else
    let start := idx * v.elemSize
    let rest := v.data.drop (start + v.elemSize)
    (true, { v with data := v.data.take start ++ elem.take v.elemSize ++ rest })

/-- The vectors by their handles. -/
abbrev Heap := List DynVec

/-- `vec_ref`: a vector is touched by its own thread, any other dies. -/
def vecRef (thread : Nat) (heap : Heap) (h : Nat) : Option DynVec :=
  heap[h]?.filter fun v => v.owner == thread

def betVecNew (thread elemSize : Nat) (heap : Heap) : Nat × Heap :=
  (heap.length, heap ++ [⟨thread, elemSize, []⟩])

def betVecPush (thread : Nat) (heap : Heap) (h : Nat) (elem : List Byte) : Option Heap :=
  (vecRef thread heap h).map fun v => heap.set h (v.push elem)

def betVecPop (thread : Nat) (heap : Heap) (h : Nat) (out : List Byte) :
    Option (Bool × List Byte × Heap) :=
  (vecRef thread heap h).map fun v =>
    ((v.pop out).1, (v.pop out).2.1, heap.set h (v.pop out).2.2)

def betVecGet (thread : Nat) (heap : Heap) (h idx : Nat) (out : List Byte) :
    Option (Bool × List Byte) :=
  (vecRef thread heap h).map fun v => v.get idx out

def betVecSet (thread : Nat) (heap : Heap) (h idx : Nat) (elem : List Byte) : Option (Bool × Heap) :=
  (vecRef thread heap h).map fun v => ((v.set idx elem).1, heap.set h (v.set idx elem).2)

def betVecLen (thread : Nat) (heap : Heap) (h : Nat) : Option Nat :=
  (vecRef thread heap h).map DynVec.len

section Chunks

variable {α : Type} {k : Nat} {es : List (List α)}

theorem length_flatten_chunks (h : ∀ e ∈ es, e.length = k) : es.flatten.length = es.length * k := by
  induction es with
  | nil => simp
  | cons e es ih =>
    have he := h e List.mem_cons_self
    have hes := ih fun x hx => h x (List.mem_cons_of_mem _ hx)
    rw [List.flatten_cons, List.length_append, he, hes, List.length_cons, Nat.succ_mul, Nat.add_comm]

theorem drop_chunks (h : ∀ e ∈ es, e.length = k) (i : Nat) :
    es.flatten.drop (i * k) = (es.drop i).flatten := by
  induction es generalizing i with
  | nil => simp
  | cons e es ih =>
    cases i with
    | zero => simp
    | succ i =>
      have he := h e List.mem_cons_self
      have hes := ih (fun x hx => h x (List.mem_cons_of_mem _ hx)) i
      rw [List.flatten_cons, Nat.succ_mul, Nat.add_comm, ← List.drop_drop, ← he, List.drop_left, he,
        hes, List.drop_succ_cons]

theorem take_chunks (h : ∀ e ∈ es, e.length = k) (i : Nat) :
    es.flatten.take (i * k) = (es.take i).flatten := by
  induction es generalizing i with
  | nil => simp
  | cons e es ih =>
    cases i with
    | zero => simp
    | succ i =>
      have he := h e List.mem_cons_self
      have hes := ih (fun x hx => h x (List.mem_cons_of_mem _ hx)) i
      rw [List.flatten_cons, Nat.succ_mul, Nat.add_comm, ← he, List.take_length_add_append, he, hes,
        List.take_succ_cons, List.flatten_cons]

end Chunks

/-- The vector holds these elements. -/
structure Holds (v : DynVec) (es : List (List Byte)) : Prop where
  data : v.data = es.flatten
  size : ∀ e ∈ es, e.length = v.elemSize

section Holds

variable {v : DynVec} {es : List (List Byte)}

theorem Holds.len (h : Holds v es) (hsize : 0 < v.elemSize) : v.len = es.length := by
  rw [DynVec.len, if_neg (Nat.ne_of_gt hsize), h.data, length_flatten_chunks h.size,
    Nat.mul_div_cancel _ hsize]

theorem Holds.push (h : Holds v es) {elem : List Byte} (he : elem.length = v.elemSize) :
    Holds (v.push elem) (es ++ [elem]) where
  data := by
    rw [DynVec.push, ← he, List.take_length, h.data]
    simp
  size e hmem := by
    rcases List.mem_append.mp hmem with hmem | hmem
    · exact h.size e hmem
    · rw [List.mem_singleton.mp hmem]
      exact he

theorem Holds.element (h : Holds v es) {i : Nat} {e : List Byte} (hi : es[i]? = some e) :
    (v.data.drop (i * v.elemSize)).take v.elemSize = e := by
  have hlt : i < es.length := (List.getElem?_eq_some_iff.mp hi).1
  have he : e.length = v.elemSize := h.size e (List.mem_of_getElem? hi)
  have hget : es[i] = e := (List.getElem?_eq_some_iff.mp hi).2
  rw [h.data, drop_chunks h.size, List.drop_eq_getElem_cons hlt, List.flatten_cons, hget, ← he,
    List.take_left]

/-- A read in range copies the element out. -/
theorem Holds.get (h : Holds v es) (hsize : 0 < v.elemSize) {i : Nat} {e : List Byte}
    (hi : es[i]? = some e) {out : List Byte} (hout : out.length = v.elemSize) :
    v.get i out = (true, e) := by
  have hlt : i < es.length := (List.getElem?_eq_some_iff.mp hi).1
  have hin : ¬i ≥ v.len := by
    rw [h.len hsize]
    omega
  rw [DynVec.get, if_neg hin, DynVec.copyOut, h.element hi, ← hout, List.drop_length, List.append_nil]

theorem Holds.set (h : Holds v es) (hsize : 0 < v.elemSize) {i : Nat} (hi : i < es.length)
    {elem : List Byte} (he : elem.length = v.elemSize) :
    Holds (v.set i elem).2 (es.set i elem) := by
  have hin : ¬i ≥ v.len := by
    rw [h.len hsize]
    omega
  rw [DynVec.set, if_neg hin]
  constructor
  · show v.data.take (i * v.elemSize) ++ elem.take v.elemSize ++
      v.data.drop (i * v.elemSize + v.elemSize) = _
    have hnext : i * v.elemSize + v.elemSize = (i + 1) * v.elemSize := (Nat.succ_mul _ _).symm
    rw [hnext, h.data, take_chunks h.size, drop_chunks h.size, ← he, List.take_length,
      List.set_eq_take_append_cons_drop, if_pos hi]
    simp
  · intro e hmem
    rcases List.mem_or_eq_of_mem_set hmem with hmem | rfl
    · exact h.size e hmem
    · exact he

theorem flatten_of_nil (h : ∀ e ∈ es, e.length = 0) : es.flatten = [] := by
  have hlen := length_flatten_chunks h
  rw [Nat.mul_zero] at hlen
  exact List.eq_nil_of_length_eq_zero hlen

/-- The bytes of an element without a size are those of a slot for it. -/
theorem Holds.getD_nil (h : Holds v es) (hsize : v.elemSize = 0) {e? : Option (List Byte)}
    (he : ∀ e, e? = some e → e ∈ es) {out : List Byte} (hout : out.length = v.elemSize) :
    e?.getD out = out := by
  cases e? with
  | none => rfl
  | some e =>
    have hlen := (h.size e (he e rfl)).trans hsize
    rw [Option.getD_some, List.eq_nil_of_length_eq_zero hlen,
      List.eq_nil_of_length_eq_zero (hout.trans hsize)]

/-- A read gives the element, or what was in the slot for it. -/
theorem Holds.get_out (h : Holds v es) (i : Nat) {out : List Byte} (hout : out.length = v.elemSize) :
    (v.get i out).2 = es[i]?.getD out := by
  by_cases hsize : v.elemSize = 0
  · rw [h.getD_nil hsize (fun e he => List.mem_of_getElem? he) hout, DynVec.get, DynVec.len,
      if_pos hsize, if_pos (Nat.zero_le i)]
  · cases hi : es[i]? with
    | none =>
      have hge : i ≥ v.len := by
        rw [h.len (Nat.pos_of_ne_zero hsize)]
        exact List.getElem?_eq_none_iff.mp hi
      rw [DynVec.get, if_pos hge]
      rfl
    | some e => rw [h.get (Nat.pos_of_ne_zero hsize) hi hout, Option.getD_some]

theorem Holds.pop_out (h : Holds v es) {out : List Byte} (hout : out.length = v.elemSize) :
    (v.pop out).2.1 = es.getLast?.getD out ∧ Holds (v.pop out).2.2 es.dropLast ∧
      (v.pop out).2.2.owner = v.owner ∧ (v.pop out).2.2.elemSize = v.elemSize := by
  have hsizes : ∀ e ∈ es.dropLast, e.length = v.elemSize :=
    fun e he => h.size e (List.dropLast_subset es he)
  by_cases hsize : v.elemSize = 0
  · have hpop : v.pop out = (false, out, v) := by rw [DynVec.pop, DynVec.len, if_pos hsize, if_pos rfl]
    rw [hpop, h.getD_nil hsize (fun e he => List.mem_of_getLast? he) hout]
    refine ⟨rfl, ⟨?_, hsizes⟩, rfl, rfl⟩
    rw [h.data, flatten_of_nil (fun e he => (h.size e he).trans hsize),
      flatten_of_nil (fun e he => (hsizes e he).trans hsize)]
  · have hlen := h.len (Nat.pos_of_ne_zero hsize)
    by_cases hes : es = []
    · have hpop : v.pop out = (false, out, v) := by
        rw [DynVec.pop, hlen, hes, List.length_nil, if_pos rfl]
      subst hes
      rw [hpop]
      exact ⟨rfl, h, rfl, rfl⟩
    · have hpos : 0 < es.length := List.length_pos_iff.mpr hes
      have hlast : es[es.length - 1]? = some (es.getLast hes) := by
        rw [← List.getLast?_eq_getElem?, List.getLast?_eq_some_getLast hes]
      have hne : ¬v.len = 0 := by omega
      rw [DynVec.pop, if_neg hne, hlen]
      refine ⟨?_, ⟨?_, hsizes⟩, rfl, rfl⟩
      · dsimp only [DynVec.copyOut]
        rw [h.element hlast, ← hout, List.drop_length, List.append_nil,
          List.getLast?_eq_some_getLast hes, Option.getD_some]
      · rw [List.dropLast_eq_take, ← take_chunks h.size, ← h.data]

end Holds

theorem holds_new (thread elemSize : Nat) : Holds ⟨thread, elemSize, []⟩ [] :=
  ⟨rfl, fun _ he => by cases he⟩

end BetLang.VecRuntime
