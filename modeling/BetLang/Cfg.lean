import Mathlib.Data.List.Basic

/-! Control-flow graphs under construction. Blocks are filled one at a time; a later graph keeps
what an earlier one fixed. -/

namespace BetLang.Cfg

structure Block (ι τ : Type) where
  stmts : List ι
  term : Option τ

abbrev Blocks (ι τ : Type) := List (Block ι τ)

structure Pos where
  block : Nat
  offset : Nat
  deriving DecidableEq, Repr

section At

variable {ι τ : Type}

def InstrAt (g : Blocks ι τ) (p : Pos) (i : ι) : Prop :=
  ∃ b, g[p.block]? = some b ∧ b.stmts[p.offset]? = some i

def TermAt (g : Blocks ι τ) (p : Pos) (t : τ) : Prop :=
  ∃ stmts, g[p.block]? = some ⟨stmts, some t⟩ ∧ stmts.length = p.offset

/-- A block with a terminator is finished, another one may only get more statements. -/
def Block.Within (b b' : Block ι τ) : Prop :=
  b' = b ∨ b.term = none ∧ b.stmts <+: b'.stmts

def Within (bs g : Blocks ι τ) : Prop :=
  ∀ (i : Nat) (b : Block ι τ), bs[i]? = some b → ∃ b', g[i]? = some b' ∧ b.Within b'

theorem Block.Within.refl (b : Block ι τ) : b.Within b := .inl rfl

theorem Block.Within.trans {a b c : Block ι τ} (hab : a.Within b) (hbc : b.Within c) : a.Within c := by
  rcases hab with rfl | ⟨hnone, hpre⟩
  · exact hbc
  · rcases hbc with rfl | ⟨_, hpre'⟩
    · exact .inr ⟨hnone, hpre⟩
    · exact .inr ⟨hnone, hpre.trans hpre'⟩

theorem Within.refl (bs : Blocks ι τ) : Within bs bs := fun _ b hb => ⟨b, hb, .refl b⟩

theorem Within.trans {as bs cs : Blocks ι τ} (hab : Within as bs) (hbc : Within bs cs) : Within as cs := by
  intro i a ha
  obtain ⟨b, hb, hsub⟩ := hab i a ha
  obtain ⟨c, hc, hsub'⟩ := hbc i b hb
  exact ⟨c, hc, hsub.trans hsub'⟩

theorem Within.instr {bs g : Blocks ι τ} (hs : Within bs g) {p : Pos} {i : ι} (hi : InstrAt bs p i) :
    InstrAt g p i := by
  obtain ⟨b, hb, hget⟩ := hi
  obtain ⟨b', hb', hsub⟩ := hs _ b hb
  refine ⟨b', hb', ?_⟩
  rcases hsub with rfl | ⟨_, rest, hrest⟩
  · exact hget
  · rw [← hrest, List.getElem?_append_left (List.getElem?_eq_some_iff.mp hget).1]
    exact hget

theorem Within.term {bs g : Blocks ι τ} (hs : Within bs g) {p : Pos} {t : τ} (ht : TermAt bs p t) :
    TermAt g p t := by
  obtain ⟨stmts, hb, hlen⟩ := ht
  obtain ⟨b', hb', hsub⟩ := hs _ _ hb
  rcases hsub with rfl | ⟨hnone, _⟩
  · exact ⟨stmts, hb', hlen⟩
  · cases hnone

/-- One block is replaced by a later version. -/
theorem Within.modify {bs : Blocks ι τ} {i : Nat} {f : Block ι τ → Block ι τ}
    (hf : ∀ b, bs[i]? = some b → b.Within (f b)) : Within bs (bs.modify i f) := by
  intro j b hb
  rw [List.getElem?_modify, hb]
  by_cases hij : i = j
  · subst hij
    exact ⟨f b, by simp, hf b hb⟩
  · exact ⟨b, by simp [hij], .refl b⟩

theorem Within.append (bs new : Blocks ι τ) : Within bs (bs ++ new) := by
  intro i b hb
  refine ⟨b, ?_, .refl b⟩
  rw [List.getElem?_append_left (List.getElem?_eq_some_iff.mp hb).1]
  exact hb

end At

structure Builder (ι τ : Type) where
  blocks : Blocks ι τ
  cur : Nat
  /-- The current block has its terminator. -/
  done : Bool

namespace Builder

section Operations

variable {ι τ : Type}

def newBlock (st : Builder ι τ) : Builder ι τ :=
  { blocks := st.blocks ++ [⟨[], none⟩], cur := st.blocks.length, done := false }

/-- A block to be filled later. -/
def reserveBlock (st : Builder ι τ) : Builder ι τ :=
  { st with blocks := st.blocks ++ [⟨[], none⟩] }

def select (st : Builder ι τ) (b : Nat) : Builder ι τ :=
  { st with cur := b, done := false }

def emit (st : Builder ι τ) (i : ι) : Builder ι τ :=
  { st with blocks := st.blocks.modify st.cur fun b => { b with stmts := b.stmts ++ [i] } }

def setTerm (st : Builder ι τ) (b : Nat) (t : τ) : Builder ι τ :=
  { st with blocks := st.blocks.modify b fun b => { b with term := some t } }

/-- The terminator of the current block, if it has none. -/
def terminate (st : Builder ι τ) (t : τ) : Builder ι τ :=
  if st.done then st else { st.setTerm st.cur t with done := true }

def pos (st : Builder ι τ) : Pos :=
  ⟨st.cur, ((st.blocks[st.cur]?).map (·.stmts.length)).getD 0⟩

/-- Where building goes on, if it does. -/
def exit (st : Builder ι τ) : Option Pos :=
  if st.done then none else some st.pos

end Operations

variable {ι τ : Type} {st a b c : Builder ι τ}

/-- A block without terminator, with these statements. -/
def Pending (st : Builder ι τ) (i : Nat) (stmts : List ι) : Prop :=
  st.blocks[i]? = some ⟨stmts, none⟩

def Open (st : Builder ι τ) : Prop :=
  st.done = false ∧ ∃ stmts, st.Pending st.cur stmts

theorem Pending.lt {i : Nat} {stmts : List ι} (hp : st.Pending i stmts) : i < st.blocks.length :=
  (List.getElem?_eq_some_iff.mp hp).1

theorem pos_of_pending (st : Builder ι τ) {stmts : List ι} (hp : st.Pending st.cur stmts) :
    st.pos = ⟨st.cur, stmts.length⟩ := by
  rw [Builder.pos, hp]
  rfl

theorem Open.exit (ho : st.Open) : st.exit = some st.pos := by
  rw [Builder.exit, ho.1]
  rfl

theorem Open.cur_lt (ho : st.Open) : st.cur < st.blocks.length := by
  obtain ⟨_, stmts, hp⟩ := ho
  exact hp.lt

section Grows

/-- The current block gets more, and new blocks come after the others. -/
structure Grows (st st' : Builder ι τ) : Prop where
  size : st.blocks.length ≤ st'.blocks.length
  other : ∀ i < st.blocks.length, i ≠ st.cur → st'.blocks[i]? = st.blocks[i]?
  here : ∀ b, st.blocks[st.cur]? = some b →
    ∃ b', st'.blocks[st.cur]? = some b' ∧ b.stmts <+: b'.stmts
  cur : st'.cur = st.cur ∨ st.blocks.length ≤ st'.cur

/-- Only new blocks are written. -/
structure Keeps (st st' : Builder ι τ) : Prop where
  blocks : st.blocks <+: st'.blocks
  cur : st.blocks.length ≤ st'.cur

theorem Grows.refl (st : Builder ι τ) : Grows st st :=
  ⟨Nat.le_refl _, fun _ _ _ => rfl, fun b hb => ⟨b, hb, List.prefix_refl _⟩, .inl rfl⟩

theorem Grows.trans (hab : Grows a b) (hbc : Grows b c) : Grows a c := by
  have hne : ∀ i < a.blocks.length, i ≠ a.cur → i ≠ b.cur := by
    intro i hi hia hib
    rcases hab.cur with hcur | hcur
    · exact hia (hib.trans hcur)
    · omega
  refine ⟨Nat.le_trans hab.size hbc.size, fun i hi hia => ?_, fun blk hblk => ?_, ?_⟩
  · rw [hbc.other i (Nat.lt_of_lt_of_le hi hab.size) (hne i hi hia)]
    exact hab.other i hi hia
  · obtain ⟨blk', hblk', hpre⟩ := hab.here blk hblk
    by_cases heq : b.cur = a.cur
    · obtain ⟨blk'', hblk'', hpre'⟩ := hbc.here blk' (by rw [heq]; exact hblk')
      rw [heq] at hblk''
      exact ⟨blk'', hblk'', hpre.trans hpre'⟩
    · have hlt := (List.getElem?_eq_some_iff.mp hblk').1
      exact ⟨blk', by rw [hbc.other a.cur hlt (Ne.symm heq)]; exact hblk', hpre⟩
  · have hsize := hab.size
    rcases hbc.cur with hcur | hcur
    · rw [hcur]
      exact hab.cur
    · exact .inr (Nat.le_trans hsize hcur)

/-- Building on an open block fixes what was there. -/
theorem Grows.sub (hg : Grows a b) (ho : a.Open) : Within a.blocks b.blocks := by
  obtain ⟨_, stmts, hp⟩ := ho
  intro i blk hblk
  have hlt := (List.getElem?_eq_some_iff.mp hblk).1
  by_cases hi : i = a.cur
  · subst hi
    obtain ⟨blk', hblk', hpre⟩ := hg.here blk hblk
    refine ⟨blk', hblk', .inr ⟨?_, hpre⟩⟩
    rw [hp] at hblk
    cases hblk
    rfl
  · exact ⟨blk, by rw [hg.other i hlt hi]; exact hblk, .refl blk⟩

theorem Keeps.getElem? (hk : Keeps a b) {i : Nat} (hi : i < a.blocks.length) :
    b.blocks[i]? = a.blocks[i]? := by
  obtain ⟨new, hnew⟩ := hk.blocks
  rw [← hnew, List.getElem?_append_left hi]

theorem Keeps.pending (hk : Keeps a b) {i : Nat} {stmts : List ι} (hp : a.Pending i stmts) :
    b.Pending i stmts := (hk.getElem? hp.lt).trans hp

theorem Keeps.sub (hk : Keeps a b) : Within a.blocks b.blocks := by
  obtain ⟨new, hnew⟩ := hk.blocks
  rw [← hnew]
  exact .append _ _

theorem Keeps.grows (hk : Keeps a b) : Grows a b := by
  refine ⟨hk.blocks.length_le, fun i hi _ => hk.getElem? hi, fun blk hblk => ?_, .inr hk.cur⟩
  exact ⟨blk, (hk.getElem? (List.getElem?_eq_some_iff.mp hblk).1).trans hblk, List.prefix_refl _⟩

theorem Keeps.trans (hab : Keeps a b) (hbc : Grows b c) : Keeps a c := by
  have hsize := hab.blocks.length_le
  refine ⟨?_, ?_⟩
  · rw [List.prefix_iff_eq_take]
    refine List.ext_getElem? fun i => ?_
    by_cases hi : i < a.blocks.length
    · have hne : i ≠ b.cur := by
        have := hab.cur
        omega
      rw [List.getElem?_take_of_lt hi, hbc.other i (Nat.lt_of_lt_of_le hi hsize) hne, hab.getElem? hi]
    · rw [List.getElem?_eq_none (by omega), List.getElem?_eq_none]
      rw [List.length_take]
      omega
  · rcases hbc.cur with hcur | hcur
    · rw [hcur]
      exact hab.cur
    · exact Nat.le_trans hsize hcur

end Grows

section Steps

theorem newBlock_keeps (st : Builder ι τ) : Keeps st st.newBlock :=
  ⟨List.prefix_append _ _, Nat.le_refl _⟩

theorem newBlock_pending (st : Builder ι τ) : st.newBlock.Pending st.blocks.length [] := by
  rw [Pending, newBlock, List.getElem?_append_right (Nat.le_refl _), Nat.sub_self]
  rfl

theorem newBlock_open (st : Builder ι τ) : st.newBlock.Open := ⟨rfl, [], newBlock_pending st⟩

theorem newBlock_pos (st : Builder ι τ) : st.newBlock.pos = ⟨st.blocks.length, 0⟩ :=
  pos_of_pending _ (newBlock_pending st)

theorem reserveBlock_pending (st : Builder ι τ) :
    st.reserveBlock.Pending st.blocks.length [] := newBlock_pending st

theorem reserveBlock_getElem? {i : Nat} (hi : i < st.blocks.length) :
    st.reserveBlock.blocks[i]? = st.blocks[i]? := List.getElem?_append_left hi

theorem reserveBlock_size (st : Builder ι τ) :
    st.reserveBlock.blocks.length = st.blocks.length + 1 := by
  rw [reserveBlock, List.length_append, List.length_singleton]

theorem reserveBlock_grows (st : Builder ι τ) : Grows st st.reserveBlock := by
  have hsize := reserveBlock_size st
  refine ⟨by omega, fun i hi _ => reserveBlock_getElem? hi, fun b hb => ?_, .inl rfl⟩
  have hlt := (List.getElem?_eq_some_iff.mp hb).1
  exact ⟨b, (reserveBlock_getElem? hlt).trans hb, List.prefix_refl _⟩

theorem Pending.reserve {i : Nat} {stmts : List ι} (hp : st.Pending i stmts) :
    st.reserveBlock.Pending i stmts := (reserveBlock_getElem? hp.lt).trans hp

theorem Open.reserve (ho : st.Open) : st.reserveBlock.Open := by
  obtain ⟨hdone, stmts, hp⟩ := ho
  exact ⟨hdone, stmts, hp.reserve⟩

theorem Open.reserve_pos (ho : st.Open) : st.reserveBlock.pos = st.pos := by
  obtain ⟨_, stmts, hp⟩ := ho
  rw [pos_of_pending _ hp]
  exact pos_of_pending _ hp.reserve

theorem modify_getElem?_self {bs : Blocks ι τ} {i : Nat} {f : Block ι τ → Block ι τ}
    {b : Block ι τ} (hb : bs[i]? = some b) : (bs.modify i f)[i]? = some (f b) := by
  rw [List.getElem?_modify_eq, hb]
  rfl

theorem setTerm_size (st : Builder ι τ) (i : Nat) (t : τ) :
    (st.setTerm i t).blocks.length = st.blocks.length := List.length_modify _ _ _

theorem setTerm_grows (st : Builder ι τ) (t : τ) : Grows st (st.setTerm st.cur t) := by
  refine ⟨Nat.le_of_eq (setTerm_size st _ t).symm, fun i _ hi => ?_, fun b hb => ?_, .inl rfl⟩
  · exact List.getElem?_modify_ne _ _ (Ne.symm hi)
  · exact ⟨{ b with term := some t }, modify_getElem?_self hb, List.prefix_refl _⟩

/-- A block that was left open is closed later on. -/
theorem Grows.setTerm (hg : Grows a st) (t : τ) : Grows a (st.setTerm a.cur t) := by
  refine ⟨?_, fun i hi hne => ?_, fun b hb => ?_, hg.cur⟩
  · exact Nat.le_trans hg.size (Nat.le_of_eq (setTerm_size st a.cur t).symm)
  · exact (List.getElem?_modify_ne _ _ (Ne.symm hne)).trans (hg.other i hi hne)
  · obtain ⟨b', hb', hpre⟩ := hg.here b hb
    exact ⟨{ b' with term := some t }, modify_getElem?_self hb', hpre⟩

theorem Grows.select (hg : Grows a st) {i : Nat} (hi : a.blocks.length ≤ i) :
    Grows a (st.select i) :=
  ⟨hg.size, hg.other, hg.here, .inr hi⟩

theorem Keeps.setTerm (hk : Keeps a st) {i : Nat} (hi : a.blocks.length ≤ i) (t : τ) :
    Keeps a (st.setTerm i t) := by
  refine ⟨?_, hk.cur⟩
  rw [List.prefix_iff_getElem?]
  intro j hj
  have hget := hk.getElem? hj
  rw [List.getElem?_eq_getElem hj] at hget
  exact (List.getElem?_modify_ne _ _ (by omega)).trans hget

theorem Pending.within_setTerm {i : Nat} {stmts : List ι} (hp : st.Pending i stmts) (t : τ) :
    Within st.blocks (st.setTerm i t).blocks := by
  refine .modify fun b hb => .inr ⟨?_, List.prefix_refl _⟩
  rw [hp] at hb
  cases hb
  rfl

theorem Pending.setTerm_at {i : Nat} {stmts : List ι} (hp : st.Pending i stmts) (t : τ) :
    TermAt (st.setTerm i t).blocks ⟨i, stmts.length⟩ t :=
  ⟨stmts, modify_getElem?_self hp, rfl⟩

theorem Pending.setTerm_ne {i j : Nat} {stmts : List ι} (hp : st.Pending i stmts) (t : τ)
    (hne : j ≠ i) : (st.setTerm j t).Pending i stmts :=
  (List.getElem?_modify_ne _ _ hne).trans hp

theorem Pending.select {i : Nat} {stmts : List ι} (hp : st.Pending i stmts) :
    (st.select i).Open ∧ (st.select i).pos = ⟨i, stmts.length⟩ :=
  ⟨⟨rfl, stmts, hp⟩, pos_of_pending _ hp⟩

end Steps

/-- What a part of the building does; `P` says what is then found in the finished graph. -/
structure Builds (st st' : Builder ι τ) (P : Blocks ι τ → Prop) : Prop where
  grows : Grows st st'
  opened : st'.done = false → st'.Open
  lays : ∀ g, Within st'.blocks g → P g

section Builds

variable {P Q : Blocks ι τ → Prop}

theorem Builds.mono (hb : Builds a b P) (h : ∀ g, P g → Q g) : Builds a b Q :=
  ⟨hb.grows, hb.opened, fun g hg => h g (hb.lays g hg)⟩

theorem Builds.refl (ho : st.Open) : Builds st st fun _ => True :=
  ⟨.refl st, fun _ => ho, fun _ _ => trivial⟩

theorem Builds.trans (hab : Builds a b P) (hdone : b.done = false) (hbc : Builds b c Q) :
    Builds a c fun g => P g ∧ Q g := by
  refine ⟨hab.grows.trans hbc.grows, hbc.opened, fun g hg => ⟨?_, hbc.lays g hg⟩⟩
  exact hab.lays g ((hbc.grows.sub (hab.opened hdone)).trans hg)

theorem emit_builds (ho : st.Open) (i : ι) :
    Builds st (st.emit i) (fun g => InstrAt g st.pos i) ∧ (st.emit i).Open ∧
      (st.emit i).pos = ⟨st.cur, st.pos.offset + 1⟩ := by
  obtain ⟨hdone, stmts, hp⟩ := ho
  have hp' : (st.emit i).Pending st.cur (stmts ++ [i]) := modify_getElem?_self hp
  have hopen : (st.emit i).Open := ⟨hdone, _, hp'⟩
  refine ⟨⟨⟨by simp [emit], fun j _ hj => ?_, fun b hb => ?_, .inl rfl⟩, fun _ => hopen,
    fun g hg => hg.instr ?_⟩, hopen, ?_⟩
  · exact List.getElem?_modify_ne _ _ (Ne.symm hj)
  · exact ⟨_, modify_getElem?_self hb, List.prefix_append _ _⟩
  · rw [pos_of_pending _ hp]
    refine ⟨_, hp', ?_⟩
    simp
  · rw [pos_of_pending _ hp, pos_of_pending (st.emit i) hp', List.length_append, List.length_singleton]
    rfl

theorem terminate_done (st : Builder ι τ) (t : τ) : (st.terminate t).done = true := by
  rw [terminate]
  cases hd : st.done with
  | true => rw [if_pos rfl, hd]
  | false => rfl

theorem terminate_grows (st : Builder ι τ) (t : τ) : Grows st (st.terminate t) := by
  rw [terminate]
  cases st.done with
  | true => exact .refl st
  | false =>
    have hg := setTerm_grows st t
    exact ⟨hg.size, hg.other, hg.here, hg.cur⟩

theorem terminate_within (ho : st.done = false → st.Open) (t : τ) :
    Within st.blocks (st.terminate t).blocks := by
  rw [terminate]
  cases hd : st.done with
  | true => exact .refl _
  | false =>
    obtain ⟨_, stmts, hp⟩ := ho hd
    exact hp.within_setTerm t

/-- The code so far runs into the terminator, if it runs to its end. -/
theorem terminate_at (ho : st.done = false → st.Open) (t : τ) {g : Blocks ι τ}
    (hg : Within (st.terminate t).blocks g) {q : Pos} (hq : st.exit = some q) : TermAt g q t := by
  rw [Builder.exit] at hq
  cases hd : st.done with
  | true =>
    rw [hd] at hq
    cases hq
  | false =>
    obtain ⟨_, stmts, hp⟩ := ho hd
    rw [hd] at hq
    cases hq
    rw [terminate, hd] at hg
    rw [pos_of_pending _ hp]
    exact hg.term (hp.setTerm_at t)

theorem terminate_exit (st : Builder ι τ) (t : τ) : (st.terminate t).exit = none := by
  rw [exit, terminate_done]
  rfl

theorem terminate_opened (st : Builder ι τ) (t : τ) (hd : (st.terminate t).done = false) :
    (st.terminate t).Open := by
  rw [terminate_done] at hd
  cases hd

theorem terminate_builds (ho : st.Open) (t : τ) :
    Builds st (st.terminate t) fun g => TermAt g st.pos t :=
  ⟨terminate_grows st t, terminate_opened st t,
    fun _ hg => terminate_at (fun _ => ho) t hg ho.exit⟩

/-- Code that is closed at its end. -/
theorem Builds.terminate (hb : Builds a b P) (t : τ) :
    Builds a (b.terminate t) fun g => P g ∧ ∀ q, b.exit = some q → TermAt g q t :=
  ⟨hb.grows.trans (terminate_grows b t), terminate_opened b t, fun g hg =>
    ⟨hb.lays g ((terminate_within hb.opened t).trans hg), fun _ hq => terminate_at hb.opened t hg hq⟩⟩

/-- Code in a new block leaves the others alone. -/
theorem Builds.keeps (hb : Builds a.newBlock b P) : Keeps a b :=
  (newBlock_keeps a).trans hb.grows

/-- An open block is closed after new ones were built. -/
theorem Keeps.close (hk : Keeps a b) (ho : a.Open) (t : τ) :
    Within b.blocks (b.setTerm a.cur t).blocks ∧ TermAt (b.setTerm a.cur t).blocks a.pos t := by
  obtain ⟨_, stmts, hp⟩ := ho
  rw [pos_of_pending _ hp]
  exact ⟨(hk.pending hp).within_setTerm t, (hk.pending hp).setTerm_at t⟩

/-- The open block is closed with `t` when the blocks behind it are built, and building goes on in
one of these. -/
theorem fork_builds (ho : a.Open) (hk : a.blocks <+: b.blocks) {i : Nat} {stmts : List ι}
    (hp : b.Pending i stmts) (hi : a.blocks.length ≤ i) (t : τ)
    (hP : ∀ g, Within b.blocks g → P g) :
    Builds a ((b.setTerm a.cur t).select i) (fun g => P g ∧ TermAt g a.pos t) ∧
      ((b.setTerm a.cur t).select i).Open ∧
      ((b.setTerm a.cur t).select i).pos = ⟨i, stmts.length⟩ := by
  have hlt := ho.cur_lt
  obtain ⟨_, stmts₀, hp₀⟩ := ho
  have hkeeps : Keeps a (b.select i) := ⟨hk, hi⟩
  have hcur : (b.select i).Pending a.cur stmts₀ := hkeeps.pending hp₀
  have hsel := (hp.setTerm_ne t (j := a.cur) (by omega)).select
  refine ⟨⟨(hkeeps.grows.setTerm t).select hi, fun _ => hsel.1, fun g hg => ⟨?_, ?_⟩⟩, hsel⟩
  · exact hP g ((hcur.within_setTerm t).trans hg)
  · rw [pos_of_pending _ hp₀]
    exact hg.term (hcur.setTerm_at t)

end Builds

end Builder

end BetLang.Cfg
