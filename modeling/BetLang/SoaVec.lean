import BetLang.DynVec
import BetLang.PayloadLayout
import Mathlib.Data.List.Nodup

/-! A `soa vec`: one runtime vector for each field of a drip. -/

namespace BetLang.SoaVec

open Codegen (basicTy basicTy_array basicTy_tuple basicTy_struct basicTy_sum basicTy_soa
  basicTy_simd)
open Ir (Ty Field StructDef Module)
open VecRuntime

/-- The field types that a column of a `soa vec` does not take. -/
def isAggregate : Ty → Bool
  | .struct _ | .sum _ | .array _ _ | .tuple _ | .soa _ => true
  | _ => false

/-- A call of the runtime on the vector of field `j`; `out` is what the local for the result holds. -/
inductive Call where
  | new (elemSize : Nat)
  | push (j : Nat) (elem : List Byte)
  | len (j : Nat)
  | get (j i : Nat) (out : List Byte)
  | set (j i : Nat) (elem : List Byte)

/-- `SizeOf` in codegen. -/
def sizeOf (m : Module) (fuel : Nat) (ty : Ty) : Except String Nat := do
  return (← basicTy m fuel ty).storeSize

/-- `lower_soa_vec_new`. -/
def lowerNew (m : Module) (fuel : Nat) (d : StructDef) : Except String (List Call) :=
  match d.fields.find? fun f => isAggregate f.ty with
  | some f => .error (s!"soa vec needs scalar-shaped fields — drip field `{f.name}` is an " ++
      "aggregate. keep soa vec drips flat (ints/floats/bools/handles).")
  | none => d.fields.mapM fun f => do return .new (← sizeOf m fuel f.ty)

/-- An element, as the bytes of each of its fields. -/
abbrev Elem := Nat → List Byte

/-- What a program does with the `soa vec`. The operands have been evaluated by then. -/
inductive Op where
  | stack (el : Elem)
  | gang
  | read (field : String) (i : Nat) (out : List Byte)
  | write (field : String) (i : Nat) (value : List Byte)

def fieldIndex (d : StructDef) (field : String) : Except String Nat :=
  match d.fields.findIdx? fun f => f.name == field with
  | some j => .ok j
  | none => .error s!"drip `{d.name}` has no field `{field}`"

/-- `lower_soa_vec_method`, `lower_soa_vec_read` and `lower_soa_vec_write`. -/
def lowerOp (d : StructDef) : Op → Except String (List Call)
  | .stack el =>
    if d.fields.isEmpty then .error "a soa vec drip needs at least one field"
    else .ok ((List.range d.fields.length).map fun j => .push j (el j))
  | .gang =>
    if d.fields.isEmpty then .error "a soa vec drip needs at least one field" else .ok [.len 0]
  | .read field i out => do return [.get (← fieldIndex d field) i out]
  | .write field i value => do return [.set (← fieldIndex d field) i value]

/-- The vectors, and the handles in the bundle. -/
structure State where
  heap : Heap
  bundle : List Nat

/-- What a call gives back. -/
inductive Res where
  | done
  | len (n : Nat)
  | elem (ok : Bool) (out : List Byte)
  | stored (ok : Bool)

def exec (thread : Nat) (s : State) : Call → Option (State × Res)
  | .new elemSize =>
    let r := betVecNew thread elemSize s.heap
    some (⟨r.2, s.bundle ++ [r.1]⟩, .done)
  | .push j elem => do
    let h ← s.bundle[j]?
    return ({ s with heap := ← betVecPush thread s.heap h elem }, .done)
  | .len j => do
    let h ← s.bundle[j]?
    return (s, .len (← betVecLen thread s.heap h))
  | .get j i out => do
    let h ← s.bundle[j]?
    let r ← betVecGet thread s.heap h i out
    return (s, .elem r.1 r.2)
  | .set j i elem => do
    let h ← s.bundle[j]?
    let r ← betVecSet thread s.heap h i elem
    return ({ s with heap := r.2 }, .stored r.1)

/-- The calls in order, with what the last one gives back. -/
def execAll (thread : Nat) (s : State) (last : Res) : List Call → Option (State × Res)
  | [] => some (s, last)
  | c :: cs => do
    let r ← exec thread s c
    execAll thread r.1 r.2 cs

/-- An operation, or what the rest of the program does to the vectors in between. -/
inductive Step where
  | op (o : Op)
  | elsewhere (change : Heap → Heap)

def run (thread : Nat) (d : StructDef) (s : State) : List Step → Option (State × List Res)
  | [] => some (s, [])
  | .elsewhere change :: steps => run thread d { s with heap := change s.heap } steps
  | .op o :: steps =>
    match lowerOp d o with
    | .error _ => none
    | .ok calls => do
      let r ← execAll thread s .done calls
      let rest ← run thread d r.1 steps
      return (rest.1, r.2 :: rest.2)

/-- A plain vector of drips, where every access is in range. -/
def plainOp (d : StructDef) (es : List Elem) : Op → Option (List Elem × Res)
  | .stack el => some (es ++ [el], .done)
  | .gang => some (es, .len es.length)
  | .read field i _ => do
    let j ← (fieldIndex d field).toOption
    let el ← es[i]?
    return (es, .elem true (el j))
  | .write field i value => do
    let j ← (fieldIndex d field).toOption
    let el ← es[i]?
    return (es.set i (Function.update el j value), .stored true)

def plainRun (d : StructDef) (es : List Elem) : List Step → Option (List Elem × List Res)
  | [] => some (es, [])
  | .elsewhere _ :: steps => plainRun d es steps
  | .op o :: steps => do
    let r ← plainOp d es o
    let rest ← plainRun d r.1 steps
    return (rest.1, r.2 :: rest.2)

section Columns

variable {thread : Nat} {sizes : List Nat} {s s' : State} {rows : Nat → List Elem}

/-- Vector `j` of the bundle holds field `j` of `rows j`. -/
structure Columns (thread : Nat) (sizes : List Nat) (s : State) (rows : Nat → List Elem) : Prop where
  length : s.bundle.length = sizes.length
  nodup : s.bundle.Nodup
  column : ∀ j h size, s.bundle[j]? = some h → sizes[j]? = some size →
    ∃ v, s.heap[h]? = some v ∧ v.owner = thread ∧ v.elemSize = size ∧
      Holds v ((rows j).map fun el => el j)

theorem Columns.at_field (h : Columns thread sizes s rows) {j size : Nat}
    (hj : sizes[j]? = some size) :
    ∃ a v, s.bundle[j]? = some a ∧ vecRef thread s.heap a = some v ∧ s.heap[a]? = some v ∧
      v.elemSize = size ∧ Holds v ((rows j).map fun el => el j) := by
  have hlt : j < s.bundle.length := by
    rw [h.length]
    exact (List.getElem?_eq_some_iff.mp hj).1
  have ha := List.getElem?_eq_getElem hlt
  obtain ⟨v, hv, howner, hsize, hholds⟩ := h.column j _ size ha hj
  refine ⟨_, v, ha, ?_, hv, hsize, hholds⟩
  rw [vecRef, hv]
  simp [howner]

/-- One vector of the bundle is replaced. -/
theorem Columns.replace (h : Columns thread sizes s rows) {j a : Nat} {v v' : DynVec}
    {es : List Elem} (ha : s.bundle[j]? = some a) (hv : s.heap[a]? = some v)
    (howner : v'.owner = v.owner) (hsize : v'.elemSize = v.elemSize)
    (hholds : Holds v' (es.map fun el => el j)) :
    Columns thread sizes { s with heap := s.heap.set a v' } (Function.update rows j es) where
  length := h.length
  nodup := h.nodup
  column i b size hb hi := by
    obtain ⟨u, hu, huowner, husize, huholds⟩ := h.column i b size hb hi
    by_cases hij : i = j
    · subst hij
      obtain rfl : a = b := Option.some.inj (ha.symm.trans hb)
      obtain rfl : u = v := Option.some.inj (hu.symm.trans hv)
      have hlt : a < s.heap.length := (List.getElem?_eq_some_iff.mp hv).1
      refine ⟨v', ?_, howner.trans huowner, hsize.trans husize, ?_⟩
      · exact List.getElem?_set_self hlt
      · rw [Function.update_self]
        exact hholds
    · have hab : a ≠ b := by
        intro hab
        subst hab
        have hlt := (List.getElem?_eq_some_iff.mp hb).1
        exact hij ((List.getElem?_inj hlt h.nodup).mp (hb.trans ha.symm))
      refine ⟨u, ?_, huowner, husize, ?_⟩
      · rw [List.getElem?_set_ne hab]
        exact hu
      · rw [Function.update_of_ne hij]
        exact huholds

theorem exec_push (h : Columns thread sizes s rows) {j : Nat} {el : Elem}
    (hj : sizes[j]? = some (el j).length) :
    ∃ heap, exec thread s (.push j (el j)) = some ({ s with heap := heap }, .done) ∧
      Columns thread sizes { s with heap := heap } (Function.update rows j (rows j ++ [el])) := by
  obtain ⟨a, v, ha, href, hv, hsize, hholds⟩ := h.at_field hj
  refine ⟨s.heap.set a (v.push (el j)), ?_, h.replace ha hv rfl rfl ?_⟩
  · simp [exec, ha, betVecPush, href]
  · rw [List.map_append]
    exact hholds.push hsize.symm

theorem exec_get (h : Columns thread sizes s rows) {j i size : Nat} (hj : sizes[j]? = some size)
    (hpos : 0 < size) {el : Elem} (hi : (rows j)[i]? = some el) {out : List Byte}
    (hout : out.length = size) : exec thread s (.get j i out) = some (s, .elem true (el j)) := by
  obtain ⟨a, v, ha, href, hv, rfl, hholds⟩ := h.at_field hj
  have hget : v.get i out = (true, el j) := by
    refine hholds.get hpos ?_ hout
    rw [List.getElem?_map, hi, Option.map_some]
  simp [exec, ha, betVecGet, href, hget]

theorem exec_set (h : Columns thread sizes s rows) {j i size : Nat} (hj : sizes[j]? = some size)
    (hpos : 0 < size) {el : Elem} (hi : (rows j)[i]? = some el) {value : List Byte}
    (hvalue : value.length = size) :
    ∃ heap, exec thread s (.set j i value) = some ({ s with heap := heap }, .stored true) ∧
      Columns thread sizes { s with heap := heap }
        (Function.update rows j ((rows j).set i (Function.update el j value))) := by
  obtain ⟨a, v, ha, href, hv, rfl, hholds⟩ := h.at_field hj
  have hlt : i < ((rows j).map fun el => el j).length := by
    rw [List.length_map]
    exact (List.getElem?_eq_some_iff.mp hi).1
  have hset := hholds.set hpos hlt hvalue
  have hok : (v.set i value).1 = true := by
    have hin : ¬i ≥ v.len := by
      rw [hholds.len hpos]
      omega
    rw [DynVec.set, if_neg hin]
  have hkept : (v.set i value).2.owner = v.owner ∧ (v.set i value).2.elemSize = v.elemSize := by
    rw [DynVec.set]
    split <;> exact ⟨rfl, rfl⟩
  refine ⟨s.heap.set a (v.set i value).2, ?_, h.replace ha hv hkept.1 hkept.2 ?_⟩
  · simp [exec, ha, betVecSet, href, hok]
  · rw [List.map_set, Function.update_self]
    exact hset

theorem exec_len (h : Columns thread sizes s rows) {j size : Nat} (hj : sizes[j]? = some size)
    (hpos : 0 < size) : exec thread s (.len j) = some (s, .len (rows j).length) := by
  obtain ⟨a, v, ha, href, hv, rfl, hholds⟩ := h.at_field hj
  have hlen : v.len = (rows j).length := by rw [hholds.len hpos, List.length_map]
  simp [exec, ha, betVecLen, href, hlen]

theorem execAll_append {last : Res} (cs cs' : List Call) :
    execAll thread s last (cs ++ cs') =
      (execAll thread s last cs).bind fun r => execAll thread r.1 r.2 cs' := by
  induction cs generalizing s last with
  | nil => rfl
  | cons c cs ih =>
    show (exec thread s c).bind (fun r => execAll thread r.1 r.2 (cs ++ cs')) =
      ((exec thread s c).bind fun r => execAll thread r.1 r.2 cs).bind _
    cases exec thread s c with
    | none => rfl
    | some r => exact ih

/-- The pushes of an element: the columns before `n` have it, the others have not. -/
theorem exec_pushes {es : List Elem} {el : Elem} (h : Columns thread sizes s fun _ => es)
    (hel : ∀ j size, sizes[j]? = some size → (el j).length = size) {n : Nat} (hn : n ≤ sizes.length) :
    ∃ heap, execAll thread s .done ((List.range n).map fun j => .push j (el j)) =
        some ({ s with heap := heap }, .done) ∧
      Columns thread sizes { s with heap := heap } fun j => if j < n then es ++ [el] else es := by
  induction n with
  | zero => exact ⟨s.heap, rfl, by simpa using h⟩
  | succ n ih =>
    obtain ⟨heap, hrun, hcols⟩ := ih (by omega)
    have hn' : sizes[n]? = some (el n).length := by
      rw [List.getElem?_eq_getElem hn, hel n _ (List.getElem?_eq_getElem hn)]
    obtain ⟨heap', hpush, hcols'⟩ := exec_push hcols hn'
    refine ⟨heap', ?_, ?_⟩
    · rw [List.range_succ, List.map_append, execAll_append, hrun]
      show (exec thread _ (.push n (el n))).bind (fun r => execAll thread r.1 r.2 []) = _
      rw [hpush]
      rfl
    · have hrows : (Function.update (fun j => if j < n then es ++ [el] else es) n
          ((if n < n then es ++ [el] else es) ++ [el])) =
          fun j => if j < n + 1 then es ++ [el] else es := by
        funext j
        by_cases hj : j = n
        · subst hj
          simp
        · rw [Function.update_of_ne hj]
          have hiff : j < n ↔ j < n + 1 := by omega
          simp only [hiff]
      rw [← hrows]
      exact hcols'

/-- A new vector is a new column. -/
theorem exec_new (h : Columns thread sizes s fun _ => []) (size : Nat) :
    ∃ s', exec thread s (.new size) = some (s', .done) ∧
      Columns thread (sizes ++ [size]) s' fun _ => [] := by
  refine ⟨_, rfl, ?_⟩
  have hlt (a : Nat) (ha : a ∈ s.bundle) : a < s.heap.length := by
    obtain ⟨j, hj⟩ := List.mem_iff_getElem?.mp ha
    have hjlt : j < sizes.length := by
      rw [← h.length]
      exact (List.getElem?_eq_some_iff.mp hj).1
    obtain ⟨v, hv, -⟩ := h.column j a _ hj (List.getElem?_eq_getElem hjlt)
    exact (List.getElem?_eq_some_iff.mp hv).1
  constructor
  · show (s.bundle ++ [s.heap.length]).length = _
    rw [List.length_append, List.length_append, h.length]
    rfl
  · refine List.Nodup.append h.nodup (List.nodup_singleton _) ?_
    intro a ha ha'
    exact absurd (hlt a ha) (by rw [List.mem_singleton.mp ha']; exact Nat.lt_irrefl _)
  · intro j a n ha hn
    change (s.bundle ++ [s.heap.length])[j]? = some a at ha
    show ∃ v, (s.heap ++ [⟨thread, size, []⟩])[a]? = some v ∧ _
    by_cases hj : j < sizes.length
    · rw [List.getElem?_append_left (by rw [h.length]; exact hj)] at ha
      rw [List.getElem?_append_left hj] at hn
      obtain ⟨v, hv, hrest⟩ := h.column j a n ha hn
      refine ⟨v, ?_, hrest⟩
      rw [List.getElem?_append_left (List.getElem?_eq_some_iff.mp hv).1]
      exact hv
    · have hjlen : j = sizes.length := by
        have := (List.getElem?_eq_some_iff.mp hn).1
        rw [List.length_append, List.length_singleton] at this
        omega
      subst hjlen
      rw [← h.length, List.getElem?_concat_length] at ha
      rw [List.getElem?_concat_length] at hn
      cases ha
      cases hn
      exact ⟨_, List.getElem?_concat_length, rfl, rfl, holds_new thread _⟩

theorem exec_news (h : Columns thread sizes s fun _ => []) (more : List Nat) :
    ∃ s', execAll thread s .done (more.map .new) = some (s', .done) ∧
      Columns thread (sizes ++ more) s' fun _ => [] := by
  induction more generalizing s sizes with
  | nil =>
    rw [List.append_nil]
    exact ⟨s, rfl, h⟩
  | cons size more ih =>
    obtain ⟨s₁, hnew, hcols⟩ := exec_new h size
    obtain ⟨s₂, hrest, hcols'⟩ := ih hcols
    rw [List.append_assoc] at hcols'
    refine ⟨s₂, ?_, hcols'⟩
    show (exec thread s (.new size)).bind (fun r => execAll thread r.1 r.2 _) = _
    rw [hnew]
    exact hrest

end Columns

section Sizes

variable {m : Module} {fuel : Nat} {d : StructDef}

/-- The lane counts that a SIMD type name can give. -/
def LanesOk : Ty → Prop
  | .simd _ lanes => 0 < lanes
  | _ => True

theorem basicTy_int {ty : Ty} {bits : Nat} (h : basicTy m fuel ty = .ok (.int bits)) : 0 < bits := by
  cases fuel with
  | zero => cases h
  | succ fuel =>
    cases ty with
    | bool =>
      cases h
      decide
    | int width signed =>
      cases h
      cases width <;> decide
    | array =>
      obtain ⟨_, _, ht⟩ := basicTy_array h
      cases ht
    | tuple =>
      obtain ⟨_, ht, _⟩ := basicTy_tuple h
      cases ht
    | struct =>
      obtain ⟨_, ht, _⟩ := basicTy_struct h
      cases ht
    | sum =>
      obtain ⟨_, _, _, _, ht⟩ := basicTy_sum h
      cases ht
    | soa =>
      obtain ⟨_, _, ht, _⟩ := basicTy_soa h
      cases ht
    | simd =>
      obtain ⟨_, ht, _⟩ := basicTy_simd h
      cases ht
    | _ => cases h

theorem vector_store_pos {e : Llvm.Ty} {lanes : Nat} (he : 0 < e.scalarBits) (hl : 0 < lanes) :
    0 < (Llvm.Ty.vector e lanes).storeSize := by
  have hbits : 0 < lanes * e.scalarBits := Nat.mul_pos hl he
  show 0 < (lanes * e.scalarBits + 7) / 8
  omega

theorem sizeOf_pos {ty : Ty} (hagg : isAggregate ty = false) (hlanes : LanesOk ty) {n : Nat}
    (h : sizeOf m fuel ty = .ok n) : 0 < n := by
  obtain ⟨t, ht, h⟩ := except_bind_ok h
  cases h
  cases fuel with
  | zero => cases ht
  | succ fuel =>
    cases ty with
    | int width signed =>
      cases ht
      cases width <;> decide
    | simd elem lanes =>
      rw [basicTy] at ht
      obtain ⟨e, he, ht⟩ := except_bind_ok ht
      cases e with
      | int bits =>
        cases ht
        exact vector_store_pos (basicTy_int he) hlanes
      | float =>
        cases ht
        exact vector_store_pos (by decide) hlanes
      | double =>
        cases ht
        exact vector_store_pos (by decide) hlanes
      | _ => cases ht
    | struct | sum | array | tuple | soa => cases hagg
    | void => cases ht
    | bool | f32 | f64 | str | rawPtr | slice | tag | crib | ref | map | vec | rng | fnPtr =>
      cases ht
      decide

end Sizes

section Run

variable {m : Module} {fuel : Nat} {d : StructDef} {thread : Nat} {sizes : List Nat} {s : State}

/-- The bytes of a value are those of its type. -/
def Op.Typed (d : StructDef) (sizes : List Nat) : Op → Prop
  | .stack el => ∀ j size, sizes[j]? = some size → (el j).length = size
  | .gang => True
  | .read field _ bytes | .write field _ bytes =>
    ∀ j size, fieldIndex d field = .ok j → sizes[j]? = some size → bytes.length = size

/-- A typed operation that lowering accepts, or a change of other vectors. -/
def Step.Allowed (d : StructDef) (sizes bundle : List Nat) : Step → Prop
  | .op o => o.Typed d sizes ∧ ∃ calls, lowerOp d o = .ok calls
  | .elsewhere change => ∀ heap, ∀ a ∈ bundle, (change heap)[a]? = heap[a]?

theorem fieldIndex_lt {field : String} {j : Nat} (h : fieldIndex d field = .ok j) :
    j < d.fields.length := by
  rw [fieldIndex] at h
  cases hj : d.fields.findIdx? fun f => f.name == field with
  | none =>
    rw [hj] at h
    cases h
  | some i =>
    rw [hj] at h
    cases h
    exact (List.findIdx?_eq_some_iff_getElem.mp hj).1

theorem toOption_ok {α : Type} {x : Except String α} {a : α} (h : x.toOption = some a) :
    x = .ok a := by
  cases x with
  | error e => cases h
  | ok b =>
    cases h
    rfl

/-- What one operation does to the columns is what it does to a plain vector. -/
theorem exec_op {es es' : List Elem} {o : Op} {calls : List Call} {r : Res}
    (h : Columns thread sizes s fun _ => es) (hlen : sizes.length = d.fields.length)
    (hpos : ∀ size ∈ sizes, 0 < size) (htyped : o.Typed d sizes) (hcalls : lowerOp d o = .ok calls)
    (hplain : plainOp d es o = some (es', r)) :
    ∃ heap, execAll thread s .done calls = some ({ s with heap := heap }, r) ∧
      Columns thread sizes { s with heap := heap } fun _ => es' := by
  cases o with
  | stack el =>
    cases hplain
    rw [lowerOp] at hcalls
    by_cases hempty : d.fields.isEmpty
    · rw [if_pos hempty] at hcalls
      cases hcalls
    rw [if_neg hempty] at hcalls
    cases hcalls
    obtain ⟨heap, hrun, hcols⟩ := exec_pushes h htyped (Nat.le_of_eq hlen.symm)
    refine ⟨heap, hrun, ⟨hcols.length, hcols.nodup, fun j a size ha hj => ?_⟩⟩
    have hlt : j < d.fields.length := hlen ▸ (List.getElem?_eq_some_iff.mp hj).1
    have hcol := hcols.column j a size ha hj
    rwa [if_pos hlt] at hcol
  | gang =>
    cases hplain
    rw [lowerOp] at hcalls
    by_cases hempty : d.fields.isEmpty
    · rw [if_pos hempty] at hcalls
      cases hcalls
    rw [if_neg hempty] at hcalls
    cases hcalls
    have hlt : 0 < sizes.length := by
      rw [hlen]
      exact List.length_pos_iff.mpr fun hnil => hempty (by rw [hnil]; rfl)
    have hsize := List.getElem?_eq_getElem hlt
    refine ⟨s.heap, ?_, h⟩
    show (exec thread s (.len 0)).bind (fun r => execAll thread r.1 r.2 []) = _
    rw [exec_len h hsize (hpos _ (List.mem_of_getElem? hsize))]
    rfl
  | read field i out =>
    obtain ⟨j, hj, hplain⟩ := option_bind_some hplain
    obtain ⟨el, hel, hplain⟩ := option_bind_some hplain
    cases hplain
    have hidx := toOption_ok hj
    have hsize := List.getElem?_eq_getElem (hlen ▸ fieldIndex_lt hidx : j < sizes.length)
    obtain ⟨k, hk, hcalls⟩ := except_bind_ok hcalls
    obtain rfl : j = k := Except.ok.inj (hidx.symm.trans hk)
    cases hcalls
    refine ⟨s.heap, ?_, h⟩
    show (exec thread s (.get j i out)).bind (fun r => execAll thread r.1 r.2 []) = _
    rw [exec_get h hsize (hpos _ (List.mem_of_getElem? hsize)) hel (htyped j _ hidx hsize)]
    rfl
  | write field i value =>
    obtain ⟨j, hj, hplain⟩ := option_bind_some hplain
    obtain ⟨el, hel, hplain⟩ := option_bind_some hplain
    cases hplain
    have hidx := toOption_ok hj
    have hsize := List.getElem?_eq_getElem (hlen ▸ fieldIndex_lt hidx : j < sizes.length)
    obtain ⟨k, hk, hcalls⟩ := except_bind_ok hcalls
    obtain rfl : j = k := Except.ok.inj (hidx.symm.trans hk)
    cases hcalls
    obtain ⟨heap, hset, hcols⟩ :=
      exec_set h hsize (hpos _ (List.mem_of_getElem? hsize)) hel (htyped j _ hidx hsize)
    refine ⟨heap, ?_, ⟨hcols.length, hcols.nodup, fun i' a size ha hi' => ?_⟩⟩
    · show (exec thread s (.set j i value)).bind (fun r => execAll thread r.1 r.2 []) = _
      rw [hset]
      rfl
    · obtain ⟨v, hv, howner, hvsize, hholds⟩ := hcols.column i' a size ha hi'
      refine ⟨v, hv, howner, hvsize, ?_⟩
      by_cases hij : i' = j
      · subst hij
        rwa [Function.update_self] at hholds
      · -- the other columns have the same bytes in the element
        rw [Function.update_of_ne hij] at hholds
        have hsame : (es.set i (Function.update el j value)).map (fun el => el i') =
            es.map fun el => el i' := by
          have hcol : (es.map fun el => el i')[i]? = some (el i') := by
            rw [List.getElem?_map, hel]
            rfl
          obtain ⟨hlt, hget⟩ := List.getElem?_eq_some_iff.mp hcol
          rw [List.map_set, Function.update_of_ne hij, ← hget, List.set_getElem_self hlt]
        rwa [hsame]

/-- Over a run. -/
theorem run_columns {es es' : List Elem} {steps : List Step} {rs : List Res}
    (h : Columns thread sizes s fun _ => es) (hlen : sizes.length = d.fields.length)
    (hpos : ∀ size ∈ sizes, 0 < size) (hsteps : ∀ st ∈ steps, st.Allowed d sizes s.bundle)
    (hplain : plainRun d es steps = some (es', rs)) :
    ∃ s', run thread d s steps = some (s', rs) ∧ Columns thread sizes s' fun _ => es' := by
  induction steps generalizing s es rs with
  | nil =>
    cases hplain
    exact ⟨s, rfl, h⟩
  | cons st steps ih =>
    have hst := hsteps st List.mem_cons_self
    have hrest := fun x hx => hsteps x (List.mem_cons_of_mem _ hx)
    cases st with
    | elsewhere change =>
      have hcols : Columns thread sizes { s with heap := change s.heap } fun _ => es := by
        refine ⟨h.length, h.nodup, fun j a size ha hj => ?_⟩
        obtain ⟨v, hv, hv'⟩ := h.column j a size ha hj
        refine ⟨v, ?_, hv'⟩
        rw [← hv]
        exact hst s.heap a (List.mem_of_getElem? ha)
      exact ih hcols hrest hplain
    | op o =>
      obtain ⟨htyped, calls, hcalls⟩ := hst
      obtain ⟨⟨es₁, r⟩, hop, hplain⟩ := option_bind_some hplain
      obtain ⟨⟨es₂, rs₂⟩, hplain', heq⟩ := option_bind_some hplain
      cases heq
      obtain ⟨heap, hexec, hcols⟩ := exec_op h hlen hpos htyped hcalls hop
      obtain ⟨s₂, hrun, hcols'⟩ := ih hcols hrest hplain'
      refine ⟨s₂, ?_, hcols'⟩
      rw [run, hcalls]
      show (execAll thread s .done calls).bind _ = _
      rw [hexec]
      show (run thread d { s with heap := heap } steps).bind _ = _
      rw [hrun]
      rfl

theorem lowerNew_sizes {calls : List Call} (h : lowerNew m fuel d = .ok calls) :
    ∃ sizes : List Nat, calls = sizes.map .new ∧
      List.Forall₂ (fun f n => isAggregate f.ty = false ∧ sizeOf m fuel f.ty = .ok n)
        d.fields sizes := by
  rw [lowerNew] at h
  cases hfind : d.fields.find? fun f => isAggregate f.ty with
  | some f =>
    rw [hfind] at h
    cases h
  | none =>
    rw [hfind] at h
    have hall := List.find?_eq_none.mp hfind
    replace h := mapM_ok_iff.mp h
    generalize d.fields = fields at h hall
    induction h with
    | nil => exact ⟨[], rfl, .nil⟩
    | @cons f c fields calls hf _ ih =>
      obtain ⟨n, hn, hc⟩ := except_bind_ok hf
      cases hc
      obtain ⟨sizes, rfl, hsizes⟩ := ih fun g hg => hall g (List.mem_cons_of_mem _ hg)
      have hagg := hall f List.mem_cons_self
      exact ⟨n :: sizes, rfl, .cons ⟨by simpa using hagg, hn⟩ hsizes⟩

/-- Every field's vector has the length of a plain vector of the drip after any run on a new
`soa vec`, and every read gives what the plain vector gives. -/
theorem soa_vec_lockstep (thread : Nat) (heap : Heap) {calls : List Call}
    (hnew : lowerNew m fuel d = .ok calls) (hlanes : ∀ f ∈ d.fields, LanesOk f.ty) :
    ∃ sizes s, calls = sizes.map .new ∧ execAll thread ⟨heap, []⟩ .done calls = some (s, .done) ∧
      ∀ steps es rs, (∀ st ∈ steps, st.Allowed d sizes s.bundle) →
        plainRun d [] steps = some (es, rs) →
          ∃ s', run thread d s steps = some (s', rs) ∧
            ∀ j < d.fields.length, ∃ a, s'.bundle[j]? = some a ∧
              betVecLen thread s'.heap a = some es.length := by
  obtain ⟨sizes, rfl, hsizes⟩ := lowerNew_sizes hnew
  have hlen := hsizes.length_eq
  have hpos : ∀ size ∈ sizes, 0 < size := by
    intro size hsize
    obtain ⟨j, hj⟩ := List.mem_iff_getElem?.mp hsize
    have hjlt : j < d.fields.length := hlen ▸ (List.getElem?_eq_some_iff.mp hj).1
    obtain ⟨n, hn, hagg, hof⟩ := forall₂_getElem? hsizes (List.getElem?_eq_getElem hjlt)
    cases hj.symm.trans hn
    exact sizeOf_pos hagg (hlanes _ (List.getElem_mem hjlt)) hof
  have hstart : Columns thread [] ⟨heap, []⟩ fun _ => [] :=
    ⟨rfl, List.nodup_nil, fun j h size hj => by cases hj⟩
  obtain ⟨s, hrun, hcols⟩ := exec_news hstart sizes
  rw [List.nil_append] at hcols
  refine ⟨sizes, s, rfl, hrun, fun steps es rs hsteps hplain => ?_⟩
  obtain ⟨s', hrun', hcols'⟩ := run_columns hcols hlen.symm hpos hsteps hplain
  refine ⟨s', hrun', fun j hj => ?_⟩
  have hj' := List.getElem?_eq_getElem (hlen ▸ hj : j < sizes.length)
  have hsize := hpos _ (List.mem_of_getElem? hj')
  obtain ⟨a, v, ha, href, -, hv, hholds⟩ := hcols'.at_field hj'
  rw [← hv] at hsize
  refine ⟨a, ha, ?_⟩
  rw [betVecLen, href, Option.map_some, hholds.len hsize, List.length_map]

end Run

/-- `drip P { x: i64, seen: bool }`. -/
def point : StructDef :=
  ⟨"P", [⟨"x", .int .w64 true, .hush⟩, ⟨"seen", .bool, .hush⟩]⟩

def pointModule : Module :=
  { structs := [point], sums := [], globals := [], cribGlobals := [], externs := [], funcs := [] }

def pointElem (x seen : Byte) : Elem := fun j => if j = 0 then List.replicate 8 x else [seen]

theorem pointElem_typed (x seen : Byte) (j size : Nat) (h : [8, 1][j]? = some size) :
    (pointElem x seen j).length = size := by
  cases j with
  | zero =>
    cases h
    rfl
  | succ j =>
    cases j with
    | zero =>
      cases h
      rfl
    | succ j => cases h

/-- Two elements, then `v[0].seen = nocap` and the read of it. -/
def pointSteps : List Step :=
  [.op (.stack (pointElem 1 0)), .op (.stack (pointElem 2 0)), .op (.write "seen" 0 [1]),
    .op (.read "seen" 0 [7]), .op .gang]

theorem soa_vec_lockstep_point :
    ∃ s s', execAll 0 ⟨[], []⟩ .done [.new 8, .new 1] = some (s, .done) ∧
      run 0 point s pointSteps =
        some (s', [.done, .done, .stored true, .elem true [1], .len 2]) ∧
      ∀ j < 2, ∃ a, s'.bundle[j]? = some a ∧ betVecLen 0 s'.heap a = some 2 := by
  have hnew : lowerNew pointModule 1 point = .ok [.new 8, .new 1] := rfl
  have hlanes : ∀ f ∈ point.fields, LanesOk f.ty := by
    intro f hf
    rcases List.mem_cons.mp hf with rfl | hf
    · trivial
    · rw [List.mem_singleton.mp hf]
      trivial
  obtain ⟨sizes, s, hcalls, hstart, hrun⟩ := soa_vec_lockstep 0 [] hnew hlanes
  obtain rfl : [8, 1] = sizes :=
    List.map_injective_iff.mpr (fun a b h => Call.new.inj h) hcalls
  have hseen (j size : Nat) (hj : fieldIndex point "seen" = .ok j) (h : [8, 1][j]? = some size) :
      size = 1 := by
    cases hj
    cases h
    rfl
  have hallowed : ∀ st ∈ pointSteps, st.Allowed point [8, 1] s.bundle := by
    intro st hst
    simp only [pointSteps, List.mem_cons, List.not_mem_nil, or_false] at hst
    rcases hst with rfl | rfl | rfl | rfl | rfl
    · exact ⟨pointElem_typed 1 0, _, rfl⟩
    · exact ⟨pointElem_typed 2 0, _, rfl⟩
    · exact ⟨fun j size hj h => (hseen j size hj h).symm, _, rfl⟩
    · exact ⟨fun j size hj h => (hseen j size hj h).symm, _, rfl⟩
    · exact ⟨trivial, _, rfl⟩
  obtain ⟨s', hrun', hlens⟩ := hrun pointSteps _ _ hallowed rfl
  exact ⟨s, s', hstart, hrun', hlens⟩

end BetLang.SoaVec
