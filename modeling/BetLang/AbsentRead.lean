import BetLang.SoaVec
import BetLang.Stash

/-! Reads of what is not there: a compiled read passes the slot of its result to the runtime,
which leaves the slot alone when there is nothing to read. -/

namespace BetLang.AbsentRead

open SoaVec (Elem Columns exec execAll)
open Stash (callStash betMap putFirst Canonical)
open VecRuntime

/-- An element is the bytes of each column; a plain vec has one. -/
inductive Op (K : Type) where
  | stack (el : Elem)
  | pop (site : Nat)
  | read (site j : Nat) (i : BitVec 64)
  | put (k : K) (v : List Byte)
  | peep (site : Nat) (k : K)
  | yeet (k : K)
  | elsewhere (change : Heap → Heap)

/-- What the program sees of an operation: nothing, a value (with the flag of `peep`), or no value. -/
inductive Seen where
  | unit
  | value (v : List Byte) (found : Option Bool)
  | ghosted

section Machines

variable {K B : Type}

/-- One vec and one stash of the interpreter. -/
structure Interp (K : Type) where
  rows : List Elem
  entries : List (K × List Byte)

/-- Those of the compiled program, with the slots of the reads. -/
structure Compiled (B : Type) where
  vec : SoaVec.State
  entries : List (B × List Byte)
  slots : Nat → List Byte

/-- `vec_stack_pop`, an index expression (and a field of it), and `call_stash`. -/
def interpStep (same : K → K → Bool) (s : Interp K) : Op K → Except String (Interp K × Seen)
  | .stack el => .ok ({ s with rows := s.rows ++ [el] }, .unit)
  | .pop _ =>
    match s.rows.getLast? with
    | none => .error "`pop` on an empty vec"
    | some el => .ok ({ s with rows := s.rows.dropLast }, .value (el 0) none)
  | .read _ j i =>
    if i.toInt < 0 then .error "index must be a non-negative int, got int"
    else
      match s.rows[i.toInt.toNat]? with
      | none => .error s!"index {i.toInt} out of bounds (len {s.rows.length})"
      | some el => .ok (s, .value (el j) none)
  | .put k v => .ok ({ s with entries := (callStash same s.entries (.put k v)).1 }, .unit)
  | .peep _ k =>
    match (callStash same s.entries (.peep k)).2 with
    | .found v => .ok (s, .value v (some true))
    | _ => .ok (s, .ghosted)
  | .yeet k => .ok ({ s with entries := (callStash same s.entries (.yeet k)).1 }, .unit)
  | .elsewhere _ => .ok (s, .unit)

def interpRun (same : K → K → Bool) (s : Interp K) : List (Op K) → Except String (Interp K)
  | [] => .ok s
  | op :: ops => do
    let r ← interpStep same s op
    interpRun same r.1 ops

/-- The slot takes what the runtime left in it, and is read. -/
def Compiled.readSlot (s : Compiled B) (site : Nat) (out : List Byte) (found : Option Bool) :
    Compiled B × Seen :=
  ({ s with slots := Function.update s.slots site out }, .value out found)

/-- `lower_vec_method`, `lower_vec_index`, `lower_soa_vec_read` and `lower_stash_method`. -/
def compiledStep [DecidableEq B] (thread : Nat) (ser : K → B) (s : Compiled B) :
    Op K → Option (Compiled B × Seen)
  | .stack el => do
    let calls := (List.range s.vec.bundle.length).map fun j => SoaVec.Call.push j (el j)
    let r ← execAll thread s.vec .done calls
    return ({ s with vec := r.1 }, .unit)
  | .pop site => do
    let h ← s.vec.bundle[0]?
    let r ← betVecPop thread s.vec.heap h (s.slots site)
    return { s with vec := { s.vec with heap := r.2.2 } }.readSlot site r.2.1 none
  | .read site j i => do
    let h ← s.vec.bundle[j]?
    let r ← betVecGet thread s.vec.heap h i.toNat (s.slots site)
    return s.readSlot site r.2 none
  | .put k v => some ({ s with entries := (betMap ser s.entries (.put k v)).1 }, .unit)
  | .peep site k =>
    match (betMap ser s.entries (.peep k)).2 with
    | .found v => some (s.readSlot site v (some true))
    | _ => some (s.readSlot site (s.slots site) (some false))
  | .yeet k => some ({ s with entries := (betMap ser s.entries (.yeet k)).1 }, .unit)
  | .elsewhere change => some ({ s with vec := { s.vec with heap := change s.vec.heap } }, .unit)

def compiledRun [DecidableEq B] (thread : Nat) (ser : K → B) (s : Compiled B) :
    List (Op K) → Option (Compiled B)
  | [] => some s
  | op :: ops => do
    let r ← compiledStep thread ser s op
    compiledRun thread ser r.1 ops

/-- What a read finds. -/
def stored (same : K → K → Bool) (s : Interp K) : Op K → Option (List Byte)
  | .pop _ => s.rows.getLast?.map fun el => el 0
  | .read _ j i => s.rows[i.toNat]?.map fun el => el j
  | .peep _ k => (s.entries.find? fun e => same e.1 k).map Prod.snd
  | _ => none

def Op.site? : Op K → Option Nat
  | .pop site | .read site _ _ | .peep site _ => some site
  | _ => none

/-- A slot has the size of the local it is. -/
def Sized (siteSize : Nat → Nat) (slots : Nat → List Byte) : Prop :=
  ∀ site, (slots site).length = siteSize site

/-- What the program sees when its slots hold these bytes. -/
def Compiled.sees [DecidableEq B] (thread : Nat) (ser : K → B) (s : Compiled B) (op : Op K)
    (slots : Nat → List Byte) : Option Seen :=
  (compiledStep thread ser { s with slots := slots } op).map Prod.snd

/-- The compiled program sees the interpreter's value, or, where that has none, one that does not
depend on what the slots hold. -/
def ReadAgrees [DecidableEq B] (thread : Nat) (same : K → K → Bool) (ser : K → B)
    (siteSize : Nat → Nat) (s : Interp K) (c : Compiled B) (op : Op K) : Prop :=
  match interpStep same s op with
  | .ok (_, .value v found) =>
    ∀ slots, Sized siteSize slots → c.sees thread ser op slots = some (.value v found)
  | .ok (_, .ghosted) =>
    ∃ v, ∀ slots, Sized siteSize slots → c.sees thread ser op slots = some (.value v (some false))
  | _ => ∃ seen, ∀ slots, Sized siteSize slots → c.sees thread ser op slots = some seen

end Machines

section Steps

variable {K B : Type} [DecidableEq B] {thread valSize : Nat} {same : K → K → Bool} {ser : K → B}
  {P : K → Prop} {sizes bundle : List Nat} {siteSize : Nat → Nat} {i i' : Interp K}
  {c c' : Compiled B} {op : Op K}

/-- The bytes of a value are those of its type, the keys are of a kind, and what the rest of the
program does leaves these vectors alone. -/
def Op.Typed (P : K → Prop) (sizes bundle : List Nat) (valSize : Nat) (siteSize : Nat → Nat) :
    Op K → Prop
  | .stack el => ∀ j size, sizes[j]? = some size → (el j).length = size
  | .pop site => sizes = [siteSize site]
  | .read site j _ => sizes[j]? = some (siteSize site)
  | .put k v => P k ∧ v.length = valSize
  | .peep site k => P k ∧ siteSize site = valSize
  | .yeet k => P k
  | .elsewhere change => ∀ heap, ∀ a ∈ bundle, (change heap)[a]? = heap[a]?

structure Related (thread : Nat) (ser : K → B) (P : K → Prop) (sizes bundle : List Nat)
    (valSize : Nat) (siteSize : Nat → Nat) (i : Interp K) (c : Compiled B) : Prop where
  columns : Columns thread sizes c.vec fun _ => i.rows
  bundle : c.vec.bundle = bundle
  entries : Stash.Agrees ser P i.entries c.entries
  values : ∀ e ∈ i.entries, e.2.length = valSize
  slots : Sized siteSize c.slots

theorem putFirst_values {k : K} {v : List Byte} {m : List (K × List Byte)} {e : K × List Byte}
    (h : e ∈ putFirst same k v m) : e.2 = v ∨ e ∈ m := by
  induction m with
  | nil =>
    rw [putFirst, List.mem_singleton] at h
    exact Or.inl (h ▸ rfl)
  | cons x m ih =>
    rw [putFirst] at h
    by_cases hx : same x.1 k = true
    · rw [if_pos hx] at h
      rcases List.mem_cons.mp h with rfl | h
      · exact Or.inl rfl
      · exact Or.inr (List.mem_cons_of_mem _ h)
    · rw [if_neg hx] at h
      rcases List.mem_cons.mp h with rfl | h
      · exact Or.inr List.mem_cons_self
      · exact (ih h).imp_right (List.mem_cons_of_mem _)

/-- A peep finds the same on both sides. -/
theorem peep_found (hc : Canonical same ser P) {m : List (K × List Byte)}
    {b : List (B × List Byte)} (h : Stash.Agrees ser P m b) {k : K} (hk : P k) :
    (betMap ser b (.peep k)).2 = (callStash same m (.peep k)).2 := by
  have hkey : ∀ k', (Stash.Op.peep k : Stash.Op K (List Byte)).key? = some k' → P k' := by
    intro k' hk'
    cases hk'
    exact hk
  exact (Stash.agrees_step hc h hkey).2.symm

theorem stored_peep {k : K} (site : Nat) :
    (callStash same i.entries (.peep k)).2 =
      (stored same i (.peep site k)).elim Stash.Res.missing .found := by
  rw [callStash, stored]
  cases i.entries.find? fun e => same e.1 k <;> rfl

section Columns

variable {s : SoaVec.State} {rows : List Elem} {size : Nat} {out : List Byte}

theorem columns_congr {rows rows' : Nat → List Elem} (h : Columns thread sizes s rows)
    (hrows : ∀ j < sizes.length, rows j = rows' j) : Columns thread sizes s rows' where
  length := h.length
  nodup := h.nodup
  column j a size ha hj := by
    rw [← hrows j (List.getElem?_eq_some_iff.mp hj).1]
    exact h.column j a size ha hj

theorem get_column (h : Columns thread sizes s fun _ => rows) {j : Nat} (hj : sizes[j]? = some size)
    (hout : out.length = size) (i : Nat) :
    ∃ a found, s.bundle[j]? = some a ∧
      betVecGet thread s.heap a i out = some (found, (rows[i]?.map fun el => el j).getD out) := by
  obtain ⟨a, v, ha, href, _, hsize, hholds⟩ := h.at_field hj
  refine ⟨a, (v.get i out).1, ha, ?_⟩
  rw [betVecGet, href, Option.map_some, ← List.getElem?_map,
    ← hholds.get_out i (hout.trans hsize.symm)]

theorem pop_column (h : Columns thread [size] s fun _ => rows) (hout : out.length = size) :
    ∃ a found heap, s.bundle[0]? = some a ∧
      betVecPop thread s.heap a out =
        some (found, (rows.getLast?.map fun el => el 0).getD out, heap) ∧
        Columns thread [size] { s with heap := heap } fun _ => rows.dropLast := by
  obtain ⟨a, v, ha, href, hv, hsize, hholds⟩ := h.at_field (List.getElem?_cons_zero)
  obtain ⟨hlast, hrest, howner, hsize'⟩ := hholds.pop_out (hout.trans hsize.symm)
  rw [← List.map_dropLast] at hrest
  refine ⟨a, (v.pop out).1, s.heap.set a (v.pop out).2.2, ha, ?_, ?_⟩
  · rw [betVecPop, href, Option.map_some, hlast, List.getLast?_map]
  · refine columns_congr (h.replace ha hv howner hsize' hrest) fun j hj => ?_
    obtain rfl : j = 0 := Nat.lt_one_iff.mp hj
    rw [Function.update_self]

theorem push_columns {el : Elem} (h : Columns thread sizes s fun _ => rows)
    (hel : ∀ j size, sizes[j]? = some size → (el j).length = size) :
    ∃ heap, execAll thread s .done
        ((List.range s.bundle.length).map fun j => .push j (el j)) =
          some ({ s with heap := heap }, .done) ∧
      Columns thread sizes { s with heap := heap } fun _ => rows ++ [el] := by
  obtain ⟨heap, hrun, hcols⟩ := SoaVec.exec_pushes h hel (Nat.le_refl sizes.length)
  rw [← h.length] at hrun
  exact ⟨heap, hrun, columns_congr hcols fun j hj => if_pos hj⟩

end Columns

/-- The flag that only `peep` shows. -/
def Op.flag (op : Op K) (found : Option (List Byte)) : Option Bool :=
  match op with
  | .peep _ _ => some found.isSome
  | _ => none

variable {slots : Nat → List Byte} {site : Nat}

theorem Sized.update (h : Sized siteSize slots) {v : List Byte} (hv : v.length = siteSize site) :
    Sized siteSize (Function.update slots site v) := by
  intro k
  by_cases hk : k = site
  · rw [hk, Function.update_self]
    exact hv
  · rw [Function.update_of_ne hk]
    exact h k

/-- A compiled read sees what is stored, or else its slot. -/
theorem sees_read (hc : Canonical same ser P)
    (h : Related thread ser P sizes bundle valSize siteSize i c)
    (hop : op.Typed P sizes bundle valSize siteSize) (hsite : op.site? = some site)
    (hslots : Sized siteSize slots) :
    c.sees thread ser op slots =
      some (.value ((stored same i op).getD (slots site)) (op.flag (stored same i op))) := by
  cases op with
  | pop k =>
    cases hsite
    have hcols := h.columns
    rw [show sizes = [siteSize site] from hop] at hcols
    obtain ⟨a, found, heap, ha, hpop, _⟩ := pop_column hcols (hslots site)
    simp [Compiled.sees, compiledStep, ha, hpop, Compiled.readSlot, stored, Op.flag]
  | read k j idx =>
    cases hsite
    obtain ⟨a, found, ha, hget⟩ := get_column h.columns hop (hslots site) idx.toNat
    simp [Compiled.sees, compiledStep, ha, hget, Compiled.readSlot, stored, Op.flag]
  | peep k key =>
    cases hsite
    have hpeep := (peep_found hc h.entries hop.1).trans (stored_peep site)
    cases hs : stored same i (.peep site key) with
    | none =>
      rw [hs] at hpeep
      simp [Compiled.sees, compiledStep, hpeep, Compiled.readSlot, Op.flag]
    | some v =>
      rw [hs] at hpeep
      simp [Compiled.sees, compiledStep, hpeep, Compiled.readSlot, Op.flag]
  | _ => cases hsite

theorem column_size {s : SoaVec.State} {rows : List Elem} {j size : Nat}
    (h : Columns thread sizes s fun _ => rows) (hj : sizes[j]? = some size) {el : Elem}
    (hel : el ∈ rows) : (el j).length = size := by
  obtain ⟨_, v, _, _, _, hsize, hholds⟩ := h.at_field hj
  exact (hholds.size _ (List.mem_map_of_mem hel)).trans hsize

omit [DecidableEq B] in
theorem stored_length (h : Related thread ser P sizes bundle valSize siteSize i c)
    (hop : op.Typed P sizes bundle valSize siteSize) (hsite : op.site? = some site)
    {v : List Byte} (hv : stored same i op = some v) : v.length = siteSize site := by
  cases op with
  | pop k =>
    cases hsite
    obtain ⟨el, hel, rfl⟩ := Option.map_eq_some_iff.mp hv
    have hsizes : sizes = [siteSize site] := hop
    exact column_size h.columns (by rw [hsizes]; rfl) (List.mem_of_getLast? hel)
  | read k j idx =>
    cases hsite
    obtain ⟨el, hel, rfl⟩ := Option.map_eq_some_iff.mp hv
    exact column_size h.columns hop (List.mem_of_getElem? hel)
  | peep k key =>
    cases hsite
    obtain ⟨e, he, rfl⟩ := Option.map_eq_some_iff.mp hv
    exact (h.values e (List.mem_of_find?_eq_some he)).trans hop.2.symm
  | _ => cases hsite

omit [DecidableEq B] in
theorem related_slot (h : Related thread ser P sizes bundle valSize siteSize i c) {v : List Byte}
    (hv : v.length = siteSize site) :
    Related thread ser P sizes bundle valSize siteSize i
      { c with slots := Function.update c.slots site v } :=
  ⟨h.columns, h.bundle, h.entries, h.values, h.slots.update hv⟩

omit [DecidableEq B] in
/-- Whatever a read finds fits its slot, as does what the slot held. -/
theorem slot_length (h : Related thread ser P sizes bundle valSize siteSize i c)
    (hop : op.Typed P sizes bundle valSize siteSize) (hsite : op.site? = some site) :
    ((stored same i op).getD (c.slots site)).length = siteSize site := by
  cases hs : stored same i op with
  | none => exact h.slots site
  | some v => exact stored_length h hop hsite hs

theorem related_entries (hc : Canonical same ser P)
    (h : Related thread ser P sizes bundle valSize siteSize i c) {o : Stash.Op K (List Byte)}
    (hkey : ∀ k, o.key? = some k → P k)
    (hvalues : ∀ e ∈ (callStash same i.entries o).1, e.2.length = valSize) :
    Related thread ser P sizes bundle valSize siteSize
      { i with entries := (callStash same i.entries o).1 }
      { c with entries := (betMap ser c.entries o).1 } :=
  ⟨h.columns, h.bundle, (Stash.agrees_step hc h.entries hkey).1, hvalues, h.slots⟩

theorem related_step (hc : Canonical same ser P)
    (h : Related thread ser P sizes bundle valSize siteSize i c)
    (hop : op.Typed P sizes bundle valSize siteSize) {seen : Seen}
    (hi : interpStep same i op = .ok (i', seen)) :
    ∃ c' seen', compiledStep thread ser c op = some (c', seen') ∧
      Related thread ser P sizes bundle valSize siteSize i' c' := by
  cases op with
  | stack el =>
    cases hi
    obtain ⟨heap, hrun, hcols⟩ := push_columns h.columns hop
    refine ⟨_, .unit, by simp [compiledStep, hrun]; rfl, ?_⟩
    exact ⟨hcols, h.bundle, h.entries, h.values, h.slots⟩
  | pop site =>
    have hcols := h.columns
    rw [show sizes = [siteSize site] from hop] at hcols
    obtain ⟨a, found, heap, ha, hpop, hrest⟩ := pop_column hcols (h.slots site)
    have hlen : ((stored same i (.pop site)).getD (c.slots site)).length = siteSize site :=
      slot_length h hop rfl
    rw [← show sizes = [siteSize site] from hop] at hrest
    have hrun : compiledStep thread ser c (.pop site) =
        some (Compiled.readSlot { c with vec := { c.vec with heap := heap } } site
          ((stored same i (.pop site)).getD (c.slots site)) none) := by
      simp only [compiledStep, ha, hpop, Option.bind_eq_bind, Option.bind_some]
      rfl
    cases hlast : i.rows.getLast? with
    | none =>
      simp only [interpStep, hlast] at hi
      cases hi
    | some el =>
      simp only [interpStep, hlast] at hi
      cases hi
      refine ⟨_, _, hrun, ?_⟩
      exact ⟨hrest, h.bundle, h.entries, h.values, h.slots.update hlen⟩
  | read site j idx =>
    obtain ⟨a, found, ha, hget⟩ := get_column h.columns hop (h.slots site) idx.toNat
    have hlen : ((stored same i (.read site j idx)).getD (c.slots site)).length = siteSize site :=
      slot_length h hop rfl
    have hsame : i' = i := by
      rw [interpStep] at hi
      by_cases hneg : idx.toInt < 0
      · rw [if_pos hneg] at hi
        cases hi
      · rw [if_neg hneg] at hi
        cases hrow : i.rows[idx.toInt.toNat]? with
        | none =>
          simp only [hrow] at hi
          cases hi
        | some el =>
          simp only [hrow] at hi
          cases hi
          rfl
    subst hsame
    have hrun : compiledStep thread ser c (.read site j idx) =
        some (c.readSlot site ((stored same i' (.read site j idx)).getD (c.slots site)) none) := by
      simp only [compiledStep, ha, hget, Option.bind_eq_bind, Option.bind_some]
      rfl
    exact ⟨_, _, hrun, related_slot h hlen⟩
  | put k v =>
    cases hi
    refine ⟨_, .unit, rfl, related_entries hc h (fun k' hk' => ?_) fun e he => ?_⟩
    · cases hk'
      exact hop.1
    · rcases putFirst_values he with rfl | he
      · exact hop.2
      · exact h.values e he
  | peep site k =>
    have hpeep := (peep_found hc h.entries hop.1).trans (stored_peep site)
    have hlen : ((stored same i (.peep site k)).getD (c.slots site)).length = siteSize site :=
      slot_length h hop rfl
    rw [interpStep, stored_peep site] at hi
    cases hs : stored same i (.peep site k) with
    | none =>
      rw [hs] at hi hpeep hlen
      cases hi
      have hrun : compiledStep thread ser c (.peep site k) =
          some (c.readSlot site (c.slots site) (some false)) := by
        simp only [compiledStep, hpeep]
        rfl
      exact ⟨_, _, hrun, related_slot h hlen⟩
    | some v =>
      rw [hs] at hi hpeep hlen
      cases hi
      have hrun : compiledStep thread ser c (.peep site k) =
          some (c.readSlot site v (some true)) := by
        simp only [compiledStep, hpeep]
        rfl
      exact ⟨_, _, hrun, related_slot h hlen⟩
  | yeet k =>
    cases hi
    refine ⟨_, .unit, rfl, related_entries hc h (fun k' hk' => ?_) fun e he => ?_⟩
    · cases hk'
      exact hop
    · exact h.values e (List.mem_filter.mp he).1
  | elsewhere change =>
    cases hi
    refine ⟨_, .unit, rfl, ⟨?_, h.bundle, h.entries, h.values, h.slots⟩⟩
    refine ⟨h.columns.length, h.columns.nodup, fun j a size ha hj => ?_⟩
    obtain ⟨v, hv, hrest⟩ := h.columns.column j a size ha hj
    have hmem : a ∈ bundle := h.bundle ▸ List.mem_of_getElem? ha
    exact ⟨v, (hop c.vec.heap a hmem).trans hv, hrest⟩

theorem related_run (hc : Canonical same ser P) {ops : List (Op K)}
    (h : Related thread ser P sizes bundle valSize siteSize i c)
    (hops : ∀ op ∈ ops, op.Typed P sizes bundle valSize siteSize)
    (hi : interpRun same i ops = .ok i') :
    ∃ c', compiledRun thread ser c ops = some c' ∧
      Related thread ser P sizes bundle valSize siteSize i' c' := by
  induction ops generalizing i c with
  | nil =>
    cases hi
    exact ⟨c, rfl, h⟩
  | cons op ops ih =>
    obtain ⟨⟨i₁, seen⟩, hstep, hrest⟩ := except_bind_ok hi
    obtain ⟨c₁, seen', hcstep, h₁⟩ := related_step hc h (hops op List.mem_cons_self) hstep
    obtain ⟨c₂, hcrest, h₂⟩ := ih h₁ (fun o ho => hops o (List.mem_cons_of_mem _ ho)) hrest
    refine ⟨c₂, ?_, h₂⟩
    simp only [compiledRun, hcstep, Option.bind_eq_bind, Option.bind_some]
    exact hcrest

theorem sized_const (siteSize : Nat → Nat) (b : Byte) :
    Sized siteSize fun site => List.replicate (siteSize site) b :=
  fun _ => List.length_replicate

theorem sized_nil (hslots : Sized siteSize slots) (hzero : siteSize site = 0) : slots site = [] :=
  List.eq_nil_of_length_eq_zero ((hslots site).trans hzero)

/-- A read of nothing shows its slot, which could hold anything unless it has no bytes. -/
theorem const_iff_zero {f : List Byte → Seen} (hf : Function.Injective f) :
    (∃ seen, ∀ slots, Sized siteSize slots → some (f (slots site)) = some seen) ↔
      siteSize site = 0 := by
  constructor
  · rintro ⟨seen, h⟩
    have hsame := (h _ (sized_const siteSize 0)).trans (h _ (sized_const siteSize 1)).symm
    by_contra hne
    have hbytes := hf (Option.some.inj hsame)
    rw [List.replicate_right_inj hne] at hbytes
    exact absurd hbytes (by decide)
  · intro hzero
    exact ⟨f [], fun slots hslots => by rw [sized_nil hslots hzero]⟩

theorem value_injective (found : Option Bool) :
    Function.Injective fun v => Seen.value v found := by
  intro v v' h
  cases h
  rfl

/-- What the interpreter makes of a read. -/
theorem interp_read (same : K → K → Bool) (i : Interp K) (hsite : op.site? = some site) :
    (∃ v, stored same i op = some v ∧
      ((∃ i', interpStep same i op = .ok (i', .value v (op.flag (some v)))) ∨
        ∃ e, interpStep same i op = .error e)) ∨
      stored same i op = none ∧
        ((∃ e, op.flag none = none ∧ interpStep same i op = .error e) ∨
          ∃ i', op.flag none = some false ∧ interpStep same i op = .ok (i', .ghosted)) := by
  cases op with
  | pop k =>
    simp only [interpStep, stored]
    cases i.rows.getLast? with
    | none => exact Or.inr ⟨rfl, Or.inl ⟨_, rfl, rfl⟩⟩
    | some el => exact Or.inl ⟨el 0, rfl, Or.inl ⟨_, rfl⟩⟩
  | read k j idx =>
    simp only [interpStep, stored]
    by_cases hneg : idx.toInt < 0
    · rw [if_pos hneg]
      cases i.rows[idx.toNat]? with
      | none => exact Or.inr ⟨rfl, Or.inl ⟨_, rfl, rfl⟩⟩
      | some el => exact Or.inl ⟨el j, rfl, Or.inr ⟨_, rfl⟩⟩
    · have hnat : idx.toInt.toNat = idx.toNat := by
        have hmsb : idx.msb = false := by
          rw [BitVec.msb_eq_toInt, decide_eq_false hneg]
        rw [BitVec.toInt_eq_toNat_of_msb hmsb, Int.toNat_natCast]
      rw [if_neg hneg, hnat]
      cases i.rows[idx.toNat]? with
      | none => exact Or.inr ⟨rfl, Or.inl ⟨_, rfl, rfl⟩⟩
      | some el => exact Or.inl ⟨el j, rfl, Or.inl ⟨_, rfl⟩⟩
  | peep k key =>
    rw [interpStep, stored_peep k]
    cases hs : stored same i (.peep k key) with
    | none => exact Or.inr ⟨rfl, Or.inr ⟨_, rfl, rfl⟩⟩
    | some v => exact Or.inl ⟨v, rfl, Or.inl ⟨_, rfl⟩⟩
  | _ => cases hsite

/-- A read agrees when it finds something, and else only when there are no bytes to see. -/
theorem read_agrees_iff (hc : Canonical same ser P)
    (h : Related thread ser P sizes bundle valSize siteSize i c)
    (hop : op.Typed P sizes bundle valSize siteSize) (hsite : op.site? = some site) :
    ReadAgrees thread same ser siteSize i c op ↔
      (stored same i op).isSome = true ∨ siteSize site = 0 := by
  have hsees (slots : Nat → List Byte) (hslots : Sized siteSize slots) :=
    sees_read hc h hop hsite hslots
  obtain ⟨v, hv, hstep⟩ | ⟨hnone, hstep⟩ := interp_read same i hsite
  · simp only [hv, Option.getD_some] at hsees
    have hagrees : ReadAgrees thread same ser siteSize i c op := by
      unfold ReadAgrees
      obtain ⟨i', hok⟩ | ⟨e, herr⟩ := hstep
      · rw [hok]
        exact hsees
      · rw [herr]
        exact ⟨_, hsees⟩
    simp [hagrees, hv]
  · simp only [hnone, Option.getD_none] at hsees
    have hagrees : ReadAgrees thread same ser siteSize i c op ↔
        ∃ seen, ∀ slots, Sized siteSize slots →
          some (Seen.value (slots site) (op.flag none)) = some seen := by
      unfold ReadAgrees
      obtain ⟨e, _, herr⟩ | ⟨i', hflag, hok⟩ := hstep
      · rw [herr]
        exact exists_congr fun seen => forall₂_congr fun slots hslots => by rw [hsees slots hslots]
      · rw [hok, hflag]
        rw [hflag] at hsees
        constructor
        · rintro ⟨v, hv⟩
          exact ⟨_, fun slots hslots => (hsees slots hslots).symm.trans (hv slots hslots)⟩
        · rintro ⟨seen, hseen⟩
          have hzero := hseen _ (sized_const siteSize 0)
          exact ⟨_, fun slots hslots =>
            (hsees slots hslots).trans ((hseen slots hslots).trans hzero.symm)⟩
    rw [hagrees, const_iff_zero (value_injective _), hnone]
    simp

/-- In every state that a program reaches, each read agrees if and only if it finds an element
or an entry, or what it reads has no bytes. -/
theorem absent_reads_agree_iff (hc : Canonical same ser P)
    (hnew : Columns thread sizes c.vec fun _ => []) (hempty : c.entries = [])
    (hslots : Sized siteSize c.slots) {ops : List (Op K)}
    (hops : ∀ op ∈ ops, op.Typed P sizes c.vec.bundle valSize siteSize)
    (hi : interpRun same ⟨[], []⟩ ops = .ok i) :
    ∃ c', compiledRun thread ser c ops = some c' ∧
      ∀ op site, op.Typed P sizes c.vec.bundle valSize siteSize → op.site? = some site →
        (ReadAgrees thread same ser siteSize i c' op ↔
          (stored same i op).isSome = true ∨ siteSize site = 0) := by
  have hstart : Related thread ser P sizes c.vec.bundle valSize siteSize ⟨[], []⟩ c :=
    ⟨hnew, rfl, hempty ▸ Stash.agrees_empty, fun _ he => (by cases he), hslots⟩
  obtain ⟨c', hrun, hend⟩ := related_run hc hstart hops hi
  exact ⟨c', hrun, fun _ _ hop hsite => read_agrees_iff hc hend hop hsite⟩

end Steps

def sevens : List Byte := List.replicate 8 7

/-- A new `vec[int]` and a new `stash[int, int]`. -/
def fresh : Compiled Nat :=
  { vec := { heap := [⟨0, 8, []⟩], bundle := [0] }, entries := [], slots := fun _ => List.replicate 8 0 }

def sameNat (a b : Nat) : Bool := a == b

/-- `v.stack(7)` and `x = v.pop()`. -/
def pushPop : List (Op Nat) := [.stack fun _ => sevens, .pop 0]

theorem fresh_columns : Columns 0 [8] fresh.vec fun _ => [] where
  length := rfl
  nodup := by decide
  column j a size ha hj := by
    cases j with
    | zero =>
      cases ha
      cases hj
      exact ⟨_, rfl, rfl, rfl, holds_new 0 8⟩
    | succ j => cases hj

theorem canonical_nat : Canonical sameNat id fun _ => True :=
  fun k k' _ _ => by simp [sameNat]

theorem pushPop_typed : ∀ op ∈ pushPop, op.Typed (fun _ => True) [8] [0] 8 fun _ => 8 := by
  intro op hop
  rcases List.mem_cons.mp hop with rfl | hop
  · intro j size hj
    cases j with
    | zero =>
      cases hj
      rfl
    | succ j => cases hj
  · obtain rfl := List.mem_singleton.mp hop
    rfl

theorem absent_reads_agree_pushPop : ∃ c', compiledRun 0 id fresh pushPop = some c' ∧
    ∀ op site, op.Typed (fun _ => True) [8] [0] 8 (fun _ => 8) → op.site? = some site →
      (ReadAgrees 0 sameNat id (fun _ => 8) ⟨[], []⟩ c' op ↔
        (stored sameNat ⟨[], []⟩ op).isSome = true ∨ 8 = 0) :=
  absent_reads_agree_iff canonical_nat fresh_columns rfl (fun _ => rfl) pushPop_typed rfl

/-- A second `v.pop()` there, of an empty vec, is an error in the interpreter and gives the first
one's 7 again in the compiled program. -/
theorem stale_pop :
    interpRun sameNat ⟨[], []⟩ pushPop = .ok ⟨[], []⟩ ∧
      ∃ c', compiledRun 0 id fresh pushPop = some c' ∧
        interpStep sameNat ⟨[], []⟩ (.pop 0) = .error "`pop` on an empty vec" ∧
          (compiledStep 0 id c' (.pop 0)).map Prod.snd = some (.value sevens none) ∧
            ¬ReadAgrees 0 sameNat id (fun _ => 8) ⟨[], []⟩ c' (.pop 0) := by
  refine ⟨rfl, _, rfl, rfl, rfl, fun h => ?_⟩
  obtain ⟨seen, hseen⟩ := h
  have hzeros := hseen _ (sized_const (fun _ => 8) 0)
  have hones := hseen _ (sized_const (fun _ => 8) 1)
  have hsame : Seen.value (List.replicate 8 0) none = .value (List.replicate 8 1) none :=
    Option.some.inj (hzeros.trans hones.symm)
  injection hsame with hbytes
  exact absurd hbytes (by decide)

end BetLang.AbsentRead
