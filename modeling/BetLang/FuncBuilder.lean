import BetLang.Cfg
import BetLang.Sequencing
import Mathlib.Data.Set.Insert

/-! A builder of functions that checks what it is asked for, and its use through a current block.
The blocks that still need a terminator form a set; every operation says what it does to it. -/

namespace BetLang.Cfg

/-- What can go wrong while a function is built. -/
inductive Fault where
  /-- The program has an error. The builder has no part in it. -/
  | rejected
  | noCurrentBlock
  | noSuchBlock
  | alreadyTerminated
  /-- A statement behind a terminator. Here the code has no assertion. -/
  | appended
  | noBlocks
  | noTerminator
  deriving DecidableEq, Repr

structure FuncBuilder (ι τ : Type) where
  blocks : Blocks ι τ
  current : Option Nat

namespace FuncBuilder

variable {ι τ : Type}

def new : FuncBuilder ι τ := ⟨[], none⟩

def block (fb : FuncBuilder ι τ) : FuncBuilder ι τ :=
  ⟨fb.blocks ++ [⟨[], none⟩], some fb.blocks.length⟩

/-- `at`. -/
def atBlock (fb : FuncBuilder ι τ) (bb : Nat) : Except Fault (FuncBuilder ι τ) :=
  if bb < fb.blocks.length then .ok { fb with current := some bb } else .error .noSuchBlock

def cur (fb : FuncBuilder ι τ) : Except Fault (Nat × Block ι τ) :=
  match fb.current with
  | none => .error .noCurrentBlock
  | some bb =>
    match fb.blocks[bb]? with
    | none => .error .noSuchBlock
    | some b => .ok (bb, b)

/-- `assign`, `evict` and the like. -/
def append (fb : FuncBuilder ι τ) (i : ι) : Except Fault (FuncBuilder ι τ) := do
  let (bb, b) ← fb.cur
  if b.term.isSome then .error .appended
  else .ok { fb with blocks := fb.blocks.modify bb fun b => { b with stmts := b.stmts ++ [i] } }

def terminate (fb : FuncBuilder ι τ) (t : τ) : Except Fault (FuncBuilder ι τ) := do
  let (bb, b) ← fb.cur
  if b.term.isSome then .error .alreadyTerminated
  else .ok { fb with blocks := fb.blocks.modify bb fun b => { b with term := some t } }

def finishBlock (b : Block ι τ) : Except Fault (List ι × τ) :=
  match b.term with
  | none => .error .noTerminator
  | some t => .ok (b.stmts, t)

def finish (fb : FuncBuilder ι τ) : Except Fault (List (List ι × τ)) :=
  if fb.blocks.isEmpty then .error .noBlocks else fb.blocks.mapM finishBlock

theorem atBlock_ok {fb : FuncBuilder ι τ} {bb : Nat} (hlt : bb < fb.blocks.length) :
    fb.atBlock bb = .ok { fb with current := some bb } := if_pos hlt

theorem cur_ok {fb : FuncBuilder ι τ} {bb : Nat} {b : Block ι τ} (hcur : fb.current = some bb)
    (hb : fb.blocks[bb]? = some b) : fb.cur = .ok (bb, b) := by
  rw [cur, hcur]
  dsimp only
  rw [hb]

theorem append_ok {fb : FuncBuilder ι τ} {bb : Nat} {b : Block ι τ} (hcur : fb.current = some bb)
    (hb : fb.blocks[bb]? = some b) (hterm : b.term = none) (i : ι) :
    fb.append i =
      .ok { fb with blocks := fb.blocks.modify bb fun b => { b with stmts := b.stmts ++ [i] } } := by
  rw [append, cur_ok hcur hb]
  exact if_neg (by simp [hterm])

theorem terminate_ok (fb : FuncBuilder ι τ) {bb : Nat} {b : Block ι τ}
    (hcur : fb.current = some bb) (hb : fb.blocks[bb]? = some b) (hterm : b.term = none) (t : τ) :
    fb.terminate t =
      .ok { fb with blocks := fb.blocks.modify bb fun b => { b with term := some t } } := by
  rw [terminate, cur_ok hcur hb]
  exact if_neg (by simp [hterm])

end FuncBuilder

section Disciplined

variable {ι τ : Type} {targets : τ → List Nat} {O : Set Nat} {bs : Blocks ι τ}

/-- The blocks of `O` are the ones without terminator, and every target is a block. -/
structure Disciplined (targets : τ → List Nat) (O : Set Nat) (bs : Blocks ι τ) : Prop where
  term : ∀ (i : Nat) (b : Block ι τ), bs[i]? = some b → (b.term = none ↔ i ∈ O)
  lt : ∀ i ∈ O, i < bs.length
  target : ∀ (i : Nat) (b : Block ι τ) (t : τ), bs[i]? = some b → b.term = some t →
    ∀ x ∈ targets t, x < bs.length

theorem notMem_insert {i j : Nat} {O : Set Nat} (hne : i ≠ j) (hi : i ∉ O) : i ∉ insert j O :=
  fun h => h.elim hne hi

theorem Disciplined.nil : Disciplined targets ∅ ([] : Blocks ι τ) :=
  ⟨fun _ _ hb => (by cases hb), fun _ hi => hi.elim, fun _ _ _ hb => (by cases hb)⟩

theorem Disciplined.pending (hd : Disciplined targets O bs) {i : Nat} (hi : i ∈ O) :
    ∃ b, bs[i]? = some b ∧ b.term = none := by
  have hlt := hd.lt i hi
  have hb := List.getElem?_eq_getElem hlt
  exact ⟨bs[i], hb, (hd.term i _ hb).mpr hi⟩

theorem Disciplined.block (hd : Disciplined targets O bs) :
    Disciplined targets (insert bs.length O) (bs ++ [⟨[], none⟩]) := by
  have hsplit : ∀ (i : Nat) (b : Block ι τ), (bs ++ [⟨[], none⟩])[i]? = some b →
      i ≠ bs.length ∧ bs[i]? = some b ∨ i = bs.length ∧ b = ⟨[], none⟩ := by
    intro i b hb
    by_cases hi : i < bs.length
    · rw [List.getElem?_append_left hi] at hb
      exact .inl ⟨by omega, hb⟩
    · obtain ⟨hlt, hget⟩ := List.getElem?_eq_some_iff.mp hb
      rw [List.length_append, List.length_singleton] at hlt
      have heq : i = bs.length := by omega
      subst heq
      rw [List.getElem_append_right (Nat.le_refl _)] at hget
      exact .inr ⟨rfl, by simpa using hget.symm⟩
  refine ⟨fun i b hb => ?_, fun i hi => ?_, fun i b t hb ht x hx => ?_⟩
  · rcases hsplit i b hb with ⟨hne, hb⟩ | ⟨rfl, rfl⟩
    · rw [hd.term i b hb, Set.mem_insert_iff]
      exact ⟨.inr, fun h => h.resolve_left hne⟩
    · exact ⟨fun _ => Set.mem_insert _ _, fun _ => rfl⟩
  · rw [List.length_append, List.length_singleton]
    rcases hi with rfl | hi
    · omega
    · have hlt := hd.lt i hi
      omega
  · rw [List.length_append, List.length_singleton]
    rcases hsplit i b hb with ⟨_, hb⟩ | ⟨rfl, rfl⟩
    · have hlt := hd.target i b t hb ht x hx
      omega
    · cases ht

theorem modify_cases {bb j : Nat} {f : Block ι τ → Block ι τ} {b : Block ι τ}
    (hb : (bs.modify bb f)[j]? = some b) :
    j = bb ∧ (∃ b₀, bs[j]? = some b₀ ∧ b = f b₀) ∨ j ≠ bb ∧ bs[j]? = some b := by
  by_cases hj : bb = j
  · subst hj
    rw [List.getElem?_modify_eq, Option.map_eq_map] at hb
    obtain ⟨b₀, hb₀, heq⟩ := Option.map_eq_some_iff.mp hb
    exact .inl ⟨rfl, b₀, hb₀, heq.symm⟩
  · rw [List.getElem?_modify_ne _ _ hj] at hb
    exact .inr ⟨Ne.symm hj, hb⟩

theorem Disciplined.append (hd : Disciplined targets O bs) (bb : Nat) (i : ι) :
    Disciplined targets O (bs.modify bb fun b => { b with stmts := b.stmts ++ [i] }) := by
  have hold : ∀ (j : Nat) (b : Block ι τ),
      (bs.modify bb fun b => { b with stmts := b.stmts ++ [i] })[j]? = some b →
      ∃ b₀, bs[j]? = some b₀ ∧ b.term = b₀.term := by
    intro j b hb
    rcases modify_cases hb with ⟨_, b₀, hb₀, rfl⟩ | ⟨_, hb⟩
    · exact ⟨b₀, hb₀, rfl⟩
    · exact ⟨b, hb, rfl⟩
  refine ⟨fun j b hb => ?_, fun j hj => ?_, fun j b t hb ht x hx => ?_⟩
  · obtain ⟨b₀, hb₀, hterm⟩ := hold j b hb
    rw [hterm]
    exact hd.term j b₀ hb₀
  · rw [List.length_modify]
    exact hd.lt j hj
  · obtain ⟨b₀, hb₀, hterm⟩ := hold j b hb
    rw [List.length_modify]
    exact hd.target j b₀ t hb₀ (hterm ▸ ht) x hx

theorem Disciplined.terminate {bb : Nat} {t : τ} (hd : Disciplined targets (insert bb O) bs)
    (hbb : bb ∉ O) (ht : ∀ x ∈ targets t, x < bs.length) :
    Disciplined targets O (bs.modify bb fun b => { b with term := some t }) := by
  have hold : ∀ (j : Nat) (b : Block ι τ),
      (bs.modify bb fun b => { b with term := some t })[j]? = some b →
      j = bb ∧ b.term = some t ∨ j ≠ bb ∧ bs[j]? = some b := by
    intro j b hb
    rcases modify_cases hb with ⟨heq, _, _, rfl⟩ | ⟨hne, hb⟩
    · exact .inl ⟨heq, rfl⟩
    · exact .inr ⟨hne, hb⟩
  refine ⟨fun j b hb => ?_, fun j hj => ?_, fun j b t' hb ht' x hx => ?_⟩
  · rcases hold j b hb with ⟨rfl, hterm⟩ | ⟨hne, hb⟩
    · rw [hterm]
      exact ⟨fun h => (by cases h), fun h => absurd h hbb⟩
    · rw [hd.term j b hb, Set.mem_insert_iff]
      exact ⟨fun h => h.resolve_left hne, .inr⟩
  · rw [List.length_modify]
    exact hd.lt j (.inr hj)
  · rw [List.length_modify]
    rcases hold j b hb with ⟨rfl, hterm⟩ | ⟨hne, hb⟩
    · rw [hterm] at ht'
      cases ht'
      exact ht x hx
    · exact hd.target j b t' hb ht' x hx

end Disciplined

/-- The walk over a function, with its current block. -/
structure Walker (ι τ : Type) where
  fb : FuncBuilder ι τ
  cur : Nat
  /-- The current block has its terminator. -/
  done : Bool

namespace Walker

variable {ι τ : Type}

def newBlock (st : Walker ι τ) : Walker ι τ :=
  { fb := st.fb.block, cur := st.fb.blocks.length, done := false }

/-- A block to be filled later. -/
def reserveBlock (st : Walker ι τ) : Except Fault (Walker ι τ) := do
  let saved := st.cur
  return { st with fb := ← st.fb.block.atBlock saved }

def select (st : Walker ι τ) (b : Nat) : Except Fault (Walker ι τ) := do
  return { fb := ← st.fb.atBlock b, cur := b, done := false }

def emit (st : Walker ι τ) (i : ι) : Except Fault (Walker ι τ) := do
  return { st with fb := ← st.fb.append i }

/-- The terminator of the current block, if it has none. -/
def terminate (st : Walker ι τ) (t : τ) : Except Fault (Walker ι τ) :=
  if st.done then .ok st
  else do return { st with fb := ← st.fb.terminate t, done := true }

/-- The builder is left at `b`. -/
def setTerm (st : Walker ι τ) (b : Nat) (t : τ) : Except Fault (Walker ι τ) := do
  return { st with fb := ← (← st.fb.atBlock b).terminate t }

/-- Without the checks. -/
def erase (st : Walker ι τ) : Builder ι τ := ⟨st.fb.blocks, st.cur, st.done⟩

@[simp] theorem erase_blocks (st : Walker ι τ) : st.erase.blocks = st.fb.blocks := rfl

@[simp] theorem erase_cur (st : Walker ι τ) : st.erase.cur = st.cur := rfl

@[simp] theorem erase_newBlock (st : Walker ι τ) : st.erase.newBlock = st.newBlock.erase := rfl

@[simp] theorem newBlock_size (st : Walker ι τ) :
    st.newBlock.fb.blocks.length = st.fb.blocks.length + 1 := by
  rw [newBlock, FuncBuilder.block, List.length_append, List.length_singleton]

@[simp] theorem newBlock_cur (st : Walker ι τ) : st.newBlock.cur = st.fb.blocks.length := rfl

section Rules

variable {targets : τ → List Nat} {O P : Set Nat} {m n : Nat} {st : Walker ι τ}

/-- The first `n` blocks exist, and those of `O` wait for a terminator. -/
structure Waits (targets : τ → List Nat) (O : Set Nat) (n : Nat) (st : Walker ι τ) : Prop where
  blocks : Disciplined targets O st.fb.blocks
  size : n ≤ st.fb.blocks.length

/-- The current block and those of `P` wait for a terminator. -/
structure Open (targets : τ → List Nat) (P : Set Nat) (n : Nat) (st : Walker ι τ) : Prop where
  done : st.done = false
  waits : Waits targets (insert st.cur P) n st
  fresh : st.cur ∉ P
  current : st.fb.current = some st.cur

structure Shut (targets : τ → List Nat) (P : Set Nat) (n : Nat) (st : Walker ι τ) : Prop where
  done : st.done = true
  waits : Waits targets P n st

def Ready (targets : τ → List Nat) (P : Set Nat) (n : Nat) (st : Walker ι τ) : Prop :=
  Open targets P n st ∨ Shut targets P n st

/-- The step succeeds, and is that of the builder without checks. -/
def Goes (r : Except Fault (Walker ι τ)) (b : Builder ι τ) (Q : Walker ι τ → Prop) : Prop :=
  ∃ st', r = .ok st' ∧ st'.erase = b ∧ Q st'

theorem Waits.mono (hw : Waits targets O n st) (h : m ≤ n) : Waits targets O m st :=
  ⟨hw.blocks, Nat.le_trans h hw.size⟩

theorem Open.mono (ho : Open targets P n st) (h : m ≤ n) : Open targets P m st :=
  ⟨ho.done, ho.waits.mono h, ho.fresh, ho.current⟩

theorem Shut.mono (hs : Shut targets P n st) (h : m ≤ n) : Shut targets P m st :=
  ⟨hs.done, hs.waits.mono h⟩

theorem Waits.newBlock (hw : Waits targets O n st) :
    Open targets O (st.fb.blocks.length + 1) st.newBlock := by
  refine ⟨rfl, ⟨hw.blocks.block, ?_⟩, fun hin => Nat.lt_irrefl _ (hw.blocks.lt _ hin), rfl⟩
  exact Nat.le_of_eq (newBlock_size st).symm

theorem Waits.notMem {i : Nat} (hw : Waits targets O n st) (hi : st.fb.blocks.length ≤ i) :
    i ∉ O := by
  intro hin
  have hlt := hw.blocks.lt i hin
  omega

theorem Open.notMem {i : Nat} (ho : Open targets P n st) (hi : st.fb.blocks.length ≤ i) :
    i ∉ P := fun hin => ho.waits.notMem hi (.inr hin)

theorem Open.cur_lt (ho : Open targets P n st) : st.cur < st.fb.blocks.length :=
  ho.waits.blocks.lt _ (.inl rfl)

theorem Open.reserveBlock (ho : Open targets P n st) :
    Goes st.reserveBlock st.erase.reserveBlock fun st' =>
      Open targets (insert st.fb.blocks.length P) (st.fb.blocks.length + 1) st' ∧
        st'.cur = st.cur := by
  have hlt := ho.cur_lt
  have hlen : st.fb.block.blocks.length = st.fb.blocks.length + 1 := by simp [FuncBuilder.block]
  refine ⟨⟨⟨st.fb.block.blocks, some st.cur⟩, st.cur, st.done⟩, ?_, rfl, ⟨ho.done, ⟨?_, ?_⟩, ?_, rfl⟩,
    rfl⟩
  · rw [Walker.reserveBlock, FuncBuilder.atBlock_ok (by omega)]
    rfl
  · rw [Set.insert_comm]
    exact ho.waits.blocks.block
  · exact Nat.le_of_eq hlen.symm
  · exact notMem_insert (Nat.ne_of_lt hlt) ho.fresh

theorem Waits.select {i : Nat} (hw : Waits targets (insert i P) n st) (hi : i ∉ P) :
    Goes (st.select i) (st.erase.select i) (Open targets P n) := by
  refine ⟨⟨⟨st.fb.blocks, some i⟩, i, false⟩, ?_, rfl, rfl, ⟨hw.blocks, hw.size⟩, hi, rfl⟩
  rw [Walker.select, FuncBuilder.atBlock_ok (hw.blocks.lt i (.inl rfl))]
  rfl

theorem Open.emit (ho : Open targets P n st) (i : ι) :
    Goes (st.emit i) (st.erase.emit i) fun st' => Open targets P n st' ∧ st'.cur = st.cur := by
  obtain ⟨b, hb, hterm⟩ := ho.waits.blocks.pending (.inl rfl)
  refine ⟨⟨⟨st.fb.blocks.modify st.cur fun b => { b with stmts := b.stmts ++ [i] }, st.fb.current⟩,
    st.cur, st.done⟩, ?_, rfl, ⟨ho.done, ⟨ho.waits.blocks.append st.cur i, ?_⟩, ho.fresh,
    ho.current⟩, rfl⟩
  · rw [Walker.emit, FuncBuilder.append_ok ho.current hb hterm]
    rfl
  · exact Nat.le_trans ho.waits.size (Nat.le_of_eq (List.length_modify _ _ _).symm)

theorem Waits.setTerm {i : Nat} {t : τ} (hw : Waits targets (insert i O) n st) (hi : i ∉ O)
    (ht : ∀ x ∈ targets t, x < n) :
    Goes (st.setTerm i t) (st.erase.setTerm i t) fun st' =>
      Waits targets O n st' ∧ st'.done = st.done := by
  obtain ⟨b, hb, hterm⟩ := hw.blocks.pending (.inl rfl)
  have hd := hw.blocks.terminate hi fun x hx => Nat.lt_of_lt_of_le (ht x hx) hw.size
  have hgo : FuncBuilder.terminate ⟨st.fb.blocks, some i⟩ t =
      .ok ⟨st.fb.blocks.modify i fun b => { b with term := some t }, some i⟩ :=
    FuncBuilder.terminate_ok ⟨st.fb.blocks, some i⟩ rfl hb hterm t
  refine ⟨⟨⟨st.fb.blocks.modify i fun b => { b with term := some t }, some i⟩, st.cur, st.done⟩,
    ?_, rfl, ⟨hd, ?_⟩, rfl⟩
  · rw [Walker.setTerm, FuncBuilder.atBlock_ok (hw.blocks.lt i (.inl rfl))]
    exact congrArg (Functor.map fun fb => ({ st with fb } : Walker ι τ)) hgo
  · exact Nat.le_trans hw.size (Nat.le_of_eq (List.length_modify _ _ _).symm)

theorem Open.terminate {t : τ} (ho : Open targets P n st) (ht : ∀ x ∈ targets t, x < n) :
    Goes (st.terminate t) (st.erase.terminate t) (Shut targets P n) := by
  obtain ⟨b, hb, hterm⟩ := ho.waits.blocks.pending (.inl rfl)
  have hd := ho.waits.blocks.terminate ho.fresh fun x hx =>
    Nat.lt_of_lt_of_le (ht x hx) ho.waits.size
  refine ⟨⟨⟨st.fb.blocks.modify st.cur fun b => { b with term := some t }, st.fb.current⟩, st.cur,
    true⟩, ?_, ?_, rfl, ⟨hd, ?_⟩⟩
  · rw [Walker.terminate, ho.done, FuncBuilder.terminate_ok _ ho.current hb hterm]
    rfl
  · have hdone : st.erase.done = false := ho.done
    rw [Builder.terminate, hdone]
    rfl
  · exact Nat.le_trans ho.waits.size (Nat.le_of_eq (List.length_modify _ _ _).symm)

theorem Shut.terminate (hs : Shut targets P n st) (t : τ) :
    Goes (st.terminate t) (st.erase.terminate t) (Shut targets P n) := by
  refine ⟨st, ?_, ?_, hs⟩
  · rw [Walker.terminate, hs.done]
    rfl
  · have hdone : st.erase.done = true := hs.done
    rw [Builder.terminate, hdone]
    rfl

theorem Ready.terminate {t : τ} (hr : Ready targets P n st) (ht : ∀ x ∈ targets t, x < n) :
    Goes (st.terminate t) (st.erase.terminate t) (Shut targets P n) :=
  hr.elim (·.terminate ht) (·.terminate t)

/-- At the end every block has its terminator, and all targets are blocks. -/
theorem Shut.finish (hs : Shut targets ∅ (n + 1) st) :
    ∃ g, st.fb.finish = .ok g ∧ st.fb.blocks = g.map (fun b => ⟨b.1, some b.2⟩) ∧ g ≠ [] ∧
      ∀ b ∈ g, ∀ x ∈ targets b.2, x < g.length := by
  obtain ⟨hd, hsize⟩ := hs.waits
  have hall : ∀ b ∈ st.fb.blocks, ∃ t, b.term = some t := by
    intro b hb
    obtain ⟨i, hi⟩ := List.getElem?_of_mem hb
    have hne : b.term ≠ none := fun hnone => ((hd.term i b hi).mp hnone).elim
    exact Option.ne_none_iff_exists'.mp hne
  have hmap : ∀ bs : Blocks ι τ, (∀ b ∈ bs, ∃ t, b.term = some t) →
      ∃ g, bs.mapM FuncBuilder.finishBlock = .ok g ∧ bs = g.map (fun b => ⟨b.1, some b.2⟩) := by
    intro bs hbs
    induction bs with
    | nil => exact ⟨[], rfl, rfl⟩
    | cons b bs ih =>
      obtain ⟨t, ht⟩ := hbs b (List.mem_cons_self ..)
      obtain ⟨g, hg, hbs'⟩ := ih fun b' hb' => hbs b' (List.mem_cons_of_mem _ hb')
      have hb : FuncBuilder.finishBlock b = .ok (b.stmts, t) := by rw [FuncBuilder.finishBlock, ht]
      refine ⟨(b.stmts, t) :: g, ?_, ?_⟩
      · rw [List.mapM_cons, hb, hg]
        rfl
      · rw [List.map_cons, ← hbs', ← ht]
  obtain ⟨g, hg, hblocks⟩ := hmap st.fb.blocks hall
  have hlen : st.fb.blocks.length = g.length := by rw [hblocks, List.length_map]
  refine ⟨g, ?_, hblocks, ?_, fun b hb x hx => ?_⟩
  · rw [FuncBuilder.finish, if_neg]
    · exact hg
    · rw [List.isEmpty_iff_length_eq_zero]
      omega
  · intro hnil
    rw [hnil, List.length_nil] at hlen
    omega
  · obtain ⟨i, hi⟩ := List.getElem?_of_mem hb
    have hi' : st.fb.blocks[i]? = some ⟨b.1, some b.2⟩ := by
      rw [hblocks, List.getElem?_map, hi]
      rfl
    rw [← hlen]
    exact hd.target i _ b.2 hi' rfl x hx

end Rules

end Walker

section Agrees

variable {α β γ δ : Type}

/-- Both computations refuse, or both succeed; the checked one has no other fault. -/
def Agrees (e : α → β) (Q : α → Prop) (r : Except Fault α) (o : Option β) : Prop :=
  r = .error .rejected ∧ o = none ∨ ∃ a, r = .ok a ∧ o = some (e a) ∧ Q a

variable {e : α → β} {e' : γ → δ} {Q : α → Prop} {Q' : γ → Prop}

theorem Walker.Goes.bind {ι τ : Type} {r : Except Fault (Walker ι τ)} {b : Builder ι τ}
    {Q : Walker ι τ → Prop} {k : Walker ι τ → Except Fault γ} {o : Option δ} {e' : γ → δ}
    {Q' : γ → Prop} (h : Walker.Goes r b Q)
    (hk : ∀ st', st'.erase = b → Q st' → Agrees e' Q' (k st') o) : Agrees e' Q' (r >>= k) o := by
  obtain ⟨st', rfl, hst, hQ⟩ := h
  exact hk st' hst hQ

theorem Walker.Goes.agrees {ι τ : Type} {r : Except Fault (Walker ι τ)} {b : Builder ι τ}
    {Q : Walker ι τ → Prop} (h : Walker.Goes r b Q) : Agrees Walker.erase Q r (some b) := by
  obtain ⟨st', hr, hst, hQ⟩ := h
  exact .inr ⟨st', hr, congrArg some hst.symm, hQ⟩

theorem Agrees.goes {ι τ : Type} {r : Except Fault (Walker ι τ)} {b : Builder ι τ}
    {Q : Walker ι τ → Prop} (h : Agrees Walker.erase Q r (some b)) : Walker.Goes r b Q := by
  rcases h with ⟨_, hnone⟩ | ⟨st', hr, hst, hQ⟩
  · cases hnone
  · exact ⟨st', hr, (Option.some.inj hst).symm, hQ⟩

theorem Agrees.ok {a : α} (h : Q a) : Agrees e Q (.ok a) (some (e a)) := .inr ⟨a, rfl, rfl, h⟩

theorem Agrees.rejected : Agrees e Q (.error .rejected) none := .inl ⟨rfl, rfl⟩

theorem Agrees.mono {Q₂ : α → Prop} {r : Except Fault α} {o : Option β} (h : Agrees e Q r o)
    (hQ : ∀ a, Q a → Q₂ a) : Agrees e Q₂ r o := by
  rcases h with h | ⟨a, hr, ho, ha⟩
  · exact .inl h
  · exact .inr ⟨a, hr, ho, hQ a ha⟩

theorem Agrees.bind {r : Except Fault α} {o : Option β} {k : α → Except Fault γ}
    {k' : β → Option δ} (h : Agrees e Q r o) (hk : ∀ a, Q a → Agrees e' Q' (k a) (k' (e a))) :
    Agrees e' Q' (r >>= k) (o >>= k') := by
  rcases h with ⟨rfl, rfl⟩ | ⟨a, rfl, rfl, ha⟩
  · exact .rejected
  · exact hk a ha

end Agrees

end BetLang.Cfg
