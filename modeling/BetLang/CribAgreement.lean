import BetLang.CribSession

/-! The two runtimes agree on every run of a crib in which no generation comes round, down to the
bytes that were written. -/

namespace BetLang.Runtime

open Slab (Pool Cells)

section Bytes

variable {n : Nat}

/-- What a program does with the `n` bytes behind a tag. -/
inductive ByteOp (n : Nat) where
  | look
  | read (off : Fin n)
  | write (off : Fin n) (b : BitVec 8)

abbrev Op (n : Nat) := Slab.Op Unit (ByteOp n)

/-- A `cop` alone writes nothing. -/
def byteStorage (n : Nat) :
    Storage (Nat → BitVec 8) Unit (ByteOp n) (Option (BitVec 8)) (Fin n → BitVec 8) where
  cell mem ptr off := mem (ptr + off)
  init mem _ _ := mem
  act mem ptr
    | .look => (mem, none)
    | .read off => (mem, some (mem (ptr + off)))
    | .write off b => (Function.update mem (ptr + off) b, none)

/-- The bytes of an element as far as they were written since its `cop`. -/
def byteCells (n : Nat) :
    Cells Unit (Fin n → Option (BitVec 8)) (ByteOp n) (Option (Option (BitVec 8))) where
  init _ _ := none
  act
    | .look, w => (w, none)
    | .read off, w => (w, some (w off))
    | .write off b, w => (Function.update w off (some b), none)

/-- A byte that was not written may be anything. -/
inductive SameByte : Option (BitVec 8) → Option (Option (BitVec 8)) → Prop where
  | found : SameByte none none
  | unwritten (b : BitVec 8) : SameByte (some b) (some none)
  | byte (b : BitVec 8) : SameByte (some b) (some (some b))

/-- The bytes that were written are there. -/
def HoldsBytes (w : Fin n → Option (BitVec 8)) (c : Fin n → BitVec 8) : Prop :=
  ∀ off b, w off = some b → c off = b

theorem HoldsBytes.update {w : Fin n → Option (BitVec 8)} {c : Fin n → BitVec 8} (h : HoldsBytes w c)
    (off : Fin n) (b : BitVec 8) :
    HoldsBytes (Function.update w off (some b)) (Function.update c off b) := by
  intro o b' hb'
  by_cases ho : o = off
  · subst ho
    rw [Function.update_self] at hb' ⊢
    exact Option.some.inj hb'
  · rw [Function.update_of_ne ho] at hb' ⊢
    exact h o b' hb'

theorem cell_write (mem : Nat → BitVec 8) (ptr : Nat) (off : Fin n) (b : BitVec 8) :
    (byteStorage n).cell ((byteStorage n).act mem ptr (.write off b)).1 ptr =
      Function.update ((byteStorage n).cell mem ptr) off b := by
  funext o
  dsimp only [byteStorage]
  by_cases ho : o = off
  · rw [ho, Function.update_self, Function.update_self]
  · rw [Function.update_of_ne ho, Function.update_of_ne]
    intro heq
    exact ho (Fin.ext (by omega))

theorem byteStorage_models (n : Nat) :
    (byteStorage n).Models n True (byteCells n) HoldsBytes SameByte where
  init _ _ _ _ _ hb := by cases hb
  init_frame _ _ _ _ _ _ := rfl
  act := by
    intro mem ptr a w _ hw
    cases a with
    | look => exact ⟨hw, .found⟩
    | read off =>
      refine ⟨hw, ?_⟩
      dsimp only [byteStorage, byteCells]
      cases hb : w off with
      | none => exact .unwritten _
      | some b =>
        rw [show mem (ptr + off) = b from hw off b hb]
        exact .byte b
    | write off b =>
      rw [cell_write]
      exact ⟨hw.update off b, .found⟩
  act_frame := by
    intro mem ptr a q _ hq
    cases a with
    | look => rfl
    | read off => rfl
    | write off b =>
      funext o
      have hlt := off.isLt
      have hlt' := o.isLt
      dsimp only [byteStorage]
      rw [Function.update_of_ne]
      omega
  unstored h := absurd trivial h

end Bytes

section Agreement

/-- What two runtimes answer differs in bytes that were not written only. -/
theorem answers_unique {x y : Slab.Obs (Option (BitVec 8))} {z : Slab.Obs (Option (Option (BitVec 8)))}
    (hx : Answers SameByte x z) (hy : Answers SameByte y z) (hz : z ≠ .found (some none)) : x = y := by
  cases hx with
  | found hx =>
    cases hy with
    | found hy =>
      cases hx with
      | unwritten b => exact absurd rfl hz
      | _ => cases hy; rfl
  | _ => cases hy; rfl

theorem forall₂_unique {xs ys : List (Slab.Obs (Option (BitVec 8)))}
    {zs : List (Slab.Obs (Option (Option (BitVec 8))))} (hx : List.Forall₂ (Answers SameByte) xs zs)
    (hy : List.Forall₂ (Answers SameByte) ys zs) (i : Nat) (hz : zs[i]? ≠ some (.found (some none))) :
    xs[i]? = ys[i]? := by
  induction hx generalizing ys i with
  | nil =>
    cases hy
    rfl
  | cons h hx ih =>
    cases hy with
    | cons h' hy =>
      cases i with
      | zero => exact congrArg some (answers_unique h h' fun heq => hz (congrArg some heq))
      | succ i => exact ih hy i hz

abbrev realStep (n : Nat) := Runtime.real.step (byteStorage n)

abbrev stubStep (n : Nat) := Runtime.stub.step (byteStorage n)

def Session.real (alloc : Nat → Nat → Nat) (elemSize elemAlign : Nat) (capacity : BitVec 32)
    (mem : Nat → BitVec 8) : Session TypedCrib (Nat → BitVec 8) :=
  ⟨betCribNew alloc elemSize elemAlign capacity, [], mem⟩

def Session.stub (alloc : Nat → Nat → Nat) (elemSize elemAlign : Nat) (capacity : BitVec 32)
    (mem : Nat → BitVec 8) : Session Stub.TypedCrib (Nat → BitVec 8) :=
  ⟨Stub.betCribNew alloc elemSize elemAlign capacity, [], mem⟩

/-- While no counter comes round, both runtimes are the pool of `capacity` elements: they agree on
every null tag, on every tag that resolves and on every byte that was written through its tag. -/
theorem runtimes_agree {alloc alloc' : Nat → Nat → Nat} (halloc : ∀ size align, alloc size align ≠ 0)
    (halloc' : ∀ size align, alloc' size align ≠ 0) {elemSize : Nat} (hsize : elemSize ≠ 0)
    (elemAlign : Nat) (capacity : BitVec 32) (mem mem' : Nat → BitVec 8) (ops : List (Op elemSize))
    (hreal : Lockstep.TraceOk (realStep elemSize) Runtime.real.Unwrapped
      (Session.real alloc elemSize elemAlign capacity mem) ops)
    (hstub : Lockstep.TraceOk (stubStep elemSize) Runtime.stub.Unwrapped
      (Session.stub alloc' elemSize elemAlign capacity mem') ops) :
    let real := Lockstep.trace (realStep elemSize) (Session.real alloc elemSize elemAlign capacity mem) ops
    let stub := Lockstep.trace (stubStep elemSize) (Session.stub alloc' elemSize elemAlign capacity mem') ops
    let pool := Lockstep.trace (Pool.step (byteCells elemSize)) ⟨some capacity.toNat, []⟩ ops
    List.Forall₂ (Answers SameByte) real pool ∧ List.Forall₂ (Answers SameByte) stub pool ∧
      ∀ i : Nat, pool[i]? ≠ some (.found (some none)) → real[i]? = stub[i]? := by
  intro real stub pool
  have hr : List.Forall₂ (Answers SameByte) real pool := by
    have h := trace_answers lawful_real (byteStorage_models elemSize)
      (s := Session.real alloc elemSize elemAlign capacity mem)
      (cribInv_new alloc elemSize elemAlign capacity) (fun _ => slab_base_ne_zero halloc hsize _)
      (fun h => absurd trivial h) rfl (fun m hm => by rw [fresh_slots hm]) rfl ops
      (hreal.imp fun s op hok => ⟨hok, fun _ _ _ _ => trivial⟩)
    rwa [show (Runtime.real.slots (Session.real alloc elemSize elemAlign capacity mem).crib).length =
      capacity.toNat from List.length_replicate] at h
  have hs : List.Forall₂ (Answers SameByte) stub pool := by
    have h := trace_answers lawful_stub (byteStorage_models elemSize)
      (s := Session.stub alloc' elemSize elemAlign capacity mem')
      (by simpa [Session.stub, Stub.betCribNew] using capacity.isLt)
      (fun _ => slab_base_ne_zero halloc' hsize _) (fun h => absurd trivial h) rfl
      (fun m hm => by rw [fresh_slots hm]) rfl ops
      (hstub.imp fun s op hok => ⟨hok, fun _ _ _ _ => trivial⟩)
    rwa [show (Runtime.stub.slots (Session.stub alloc' elemSize elemAlign capacity mem').crib).length =
      capacity.toNat from List.length_replicate] at h
  exact ⟨hr, hs, forall₂_unique hr hs⟩

/-- Two elements, and the first of them evicted twice. -/
def evictTwice : List (Op 1) := [.alloc (), .alloc (), .free 0, .free 0, .access 1 .look]

theorem runtimes_agree_evictTwice :
    List.Forall₂ (Answers SameByte)
      (Lockstep.trace (realStep 1) (Session.real (fun _ _ => 4096) 1 1 2 fun _ => 0) evictTwice)
      (Lockstep.trace (Pool.step (byteCells 1)) ⟨some 2, []⟩ evictTwice) :=
  (runtimes_agree (fun _ _ => by decide) (fun _ _ => by decide) (by decide) 1 2 (fun _ => 0)
    (fun _ => 0) evictTwice
    (unwrapped_of_length lawful_real (j := 0) (cribInv_new (fun _ _ => 4096) 1 1 2)
      (fun m hm => by rw [fresh_slots hm]; decide) evictTwice (by decide))
    (unwrapped_of_length (s := Session.stub (fun _ _ => 64) 1 1 2 fun _ => 0) lawful_stub (j := 0)
      (by decide) (fun m hm => by rw [fresh_slots hm]; decide) evictTwice (by decide))).1

end Agreement

section Wrap

variable {σ : Type}

/-- `evict` of the last element and a `cop` in its place, again and again. -/
def refill (k : Nat) : Nat → List (Op 1)
  | 0 => []
  | r + 1 => .free k :: .alloc () :: refill (k + 1) r

/-- Two elements are evicted one after the other; then one slot is refilled, and the second element's
tag is tried. -/
def wrapOps (rounds : Nat) : List (Op 1) :=
  [.alloc (), .alloc (), .free 0, .free 1, .alloc ()] ++ refill 2 rounds ++ [.access 1 .look]

/-- The crib of two slots after the first evictions and `g` refills. -/
def wrapReal (g : BitVec 64) : TypedCrib := ⟨1, 1, 4096, [⟨true, g⟩, ⟨false, 1⟩], [1]⟩

def wrapStub (g : BitVec 64) : Stub.TypedCrib := ⟨1, 1, 4096, [⟨true, g⟩, ⟨false, 1⟩]⟩

theorem real_refill (g : BitVec 64) :
    betCop (betEvictSlot (wrapReal g) (Tag.new 0 g)) = (wrapReal (g + 1), Tag.new 0 (g + 1)) := by
  have hevict : betEvictSlot (wrapReal g) (Tag.new 0 g) =
      ⟨1, 1, 4096, [⟨false, g + 1⟩, ⟨false, 1⟩], [1, 0]⟩ := by
    simp [betEvictSlot, wrapReal, Tag.new, SlotMeta.bump]
  rw [hevict]
  rfl

theorem stub_refill (g : BitVec 64) :
    Stub.betCop (Stub.betEvictSlot (wrapStub g) (Tag.new 0 g)) =
      (wrapStub (g + 1), Tag.new 0 (g + 1)) := by
  have hevict : Stub.betEvictSlot (wrapStub g) (Tag.new 0 g) =
      ⟨1, 1, 4096, [⟨false, g + 1⟩, ⟨false, 1⟩]⟩ := by
    simp [Stub.betEvictSlot, wrapStub, Tag.new, SlotMeta.bump]
  rw [hevict]
  rfl

theorem after_refill (R : Runtime σ) {crib : BitVec 64 → σ} (mem : Nat → BitVec 8)
    (hrefill : ∀ g, R.cop (R.evictSlot (crib g) (Tag.new 0 g)) = (crib (g + 1), Tag.new 0 (g + 1)))
    (rounds : Nat) (g : BitVec 64) (tags : List Tag) :
    ∃ more, Lockstep.after (R.step (byteStorage 1)) ⟨crib g, tags ++ [Tag.new 0 g], mem⟩ (refill tags.length rounds) =
      ⟨crib (g + BitVec.ofNat 64 rounds), tags ++ more, mem⟩ := by
  induction rounds generalizing g tags with
  | zero => exact ⟨[Tag.new 0 g], by simp [refill, Lockstep.after]⟩
  | succ r ih =>
    obtain ⟨more, hmore⟩ := ih (g + 1) (tags ++ [Tag.new 0 g])
    have hlen : (tags ++ [Tag.new 0 g]).length = tags.length + 1 := by simp
    have hg : g + 1 + BitVec.ofNat 64 r = g + BitVec.ofNat 64 (r + 1) := by
      rw [BitVec.add_assoc, BitVec.add_comm 1, BitVec.ofNat_add]
      rfl
    have htag : (⟨crib g, tags ++ [Tag.new 0 g], mem⟩ : Session σ (Nat → BitVec 8)).tag tags.length = Tag.new 0 g := by
      rw [Session.tag, List.getElem?_concat_length]
      rfl
    rw [hlen, hg] at hmore
    refine ⟨Tag.new 0 g :: more, ?_⟩
    rw [refill, Lockstep.after, Lockstep.after, step, step, htag]
    dsimp only
    rw [hrefill, show R.place (byteStorage 1) (crib (g + 1), Tag.new 0 (g + 1)).1
      (crib (g + 1), Tag.new 0 (g + 1)).2 mem () = mem from ite_self _]
    exact hmore.trans (by rw [List.append_assoc]; rfl)

/-- After `2 ^ 64 - 1` refills the counter of the slot is where the second element's was; the real
runtime had that element in the slot, the stub in the other one. -/
theorem wrapped_tag_resolves_in_real :
    (Lockstep.trace (realStep 1) (Session.real (fun _ _ => 4096) 1 1 2 fun _ => 0)
        (wrapOps (2 ^ 64 - 1))).getLast? = some (.found none) ∧
      (Lockstep.trace (stubStep 1) (Session.stub (fun _ _ => 4096) 1 1 2 fun _ => 0)
        (wrapOps (2 ^ 64 - 1))).getLast? = some .absent := by
  obtain ⟨more, hreal⟩ := after_refill Runtime.real (fun _ => 0) real_refill (2 ^ 64 - 1) 1
    [Tag.new 1 0, Tag.new 0 0]
  obtain ⟨more', hstub⟩ := after_refill Runtime.stub (fun _ => 0) stub_refill (2 ^ 64 - 1) 1
    [Tag.new 0 0, Tag.new 1 0]
  have hg : (1 : BitVec 64) + BitVec.ofNat 64 (2 ^ 64 - 1) = 0 := by decide
  rw [hg] at hreal hstub
  have hreal' : Lockstep.after (realStep 1) (Session.real (fun _ _ => 4096) 1 1 2 fun _ => 0)
      ([.alloc (), .alloc (), .free 0, .free 1, .alloc ()] ++ refill 2 (2 ^ 64 - 1)) =
        ⟨wrapReal 0, [Tag.new 1 0, Tag.new 0 0] ++ more, fun _ => 0⟩ := by
    rw [Lockstep.after_append]
    exact hreal
  have hstub' : Lockstep.after (stubStep 1) (Session.stub (fun _ _ => 4096) 1 1 2 fun _ => 0)
      ([.alloc (), .alloc (), .free 0, .free 1, .alloc ()] ++ refill 2 (2 ^ 64 - 1)) =
        ⟨wrapStub 0, [Tag.new 0 0, Tag.new 1 0] ++ more', fun _ => 0⟩ := by
    rw [Lockstep.after_append]
    exact hstub
  rw [wrapOps, Lockstep.trace_getLast?, Lockstep.trace_getLast?, hreal', hstub']
  exact ⟨rfl, rfl⟩

end Wrap

end BetLang.Runtime
