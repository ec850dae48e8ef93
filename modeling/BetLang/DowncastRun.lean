import BetLang.Dominators

/-! Runs of a function as the guard analysis sees them: where control is, what a switch reads, and
the discriminants in memory. -/

namespace BetLang.Validate

open Ir

/-- The part of a machine state that matters here. -/
structure View where
  value : Operand → Nat
  disc : Place → Nat
  value_move : ∀ p, value (.move p) = value (.copy p)
  disc_same : ∀ p q, samePlace p q = true → disc p = disc q

def View.local (s : View) (l : Nat) : Nat := s.value (.copy (.local l))

/-- The locals and the places that a step writes, by an assignment or through a pointer. -/
structure Effect where
  locals : Nat → Prop
  places : Place → Prop

structure Config where
  block : Nat
  pc : Nat
  view : View

structure Event where
  src : Config
  effect : Effect
  dst : Config

mutual

/-- The locals that an operand mentions. -/
def operandLocals : Operand → List Nat
  | .const _ => []
  | .copy p | .move p => placeLocals p

def placeLocals : Place → List Nat
  | .mk root proj => root :: projsLocals proj

def projsLocals : List Proj → List Nat
  | [] => []
  | p :: ps => projLocals p ++ projsLocals ps

def projLocals : Proj → List Nat
  | .index op => operandLocals op
  | .field _ | .deref | .downcast _ => []

end

/-- The locals that the index operands of a place mention. -/
def indexLocals (p : Place) : List Nat :=
  projsLocals p.proj

/-- A step writes a place, or a local that its index operands mention. -/
def Effect.touches (e : Effect) (p : Place) : Prop :=
  e.places p ∨ ∃ l ∈ indexLocals p, e.locals l

structure Framed (e : Effect) (s s' : View) : Prop where
  local_eq : ∀ l, ¬e.locals l → s'.local l = s.local l
  disc_eq : ∀ p, ¬e.touches p → s'.disc p = s.disc p

def switchTarget (v : Nat) (cases : List (Nat × Nat)) (default : Nat) : Nat :=
  match cases.find? fun c => c.1 = v with
  | some c => c.2
  | none => default

/-- The edges of the control flow; a switch takes the one of its scrutinee's value. -/
def Edge (s : View) : Terminator → Nat → Prop
  | .goto bb, b => b = bb
  | .branch _ thenBb elseBb, b => b = thenBb ∨ b = elseBb
  | .switch scrutinee cases default, b => b = switchTarget (s.value scrutinee) cases default
  | .hollaCheck _ _ _ live ghosted, b => b = live ∨ b = ghosted
  | .ret _, _ | .panic _, _ | .unreachable, _ => False

/-- The statement or terminator at a position assigns a bare local. -/
def Assigns (f : Func) (block pc l : Nat) : Prop :=
  ∃ blk, f.blocks[block]? = some blk ∧ (blockAssigns blk)[pc]? = some (some l)

/-- The statement at a position reads the discriminant of a place into a local. -/
def ReadsDisc (f : Func) (block pc l : Nat) (p : Place) : Prop :=
  ∃ blk st, f.blocks[block]? = some blk ∧ blk.stmts[pc]? = some st ∧ discRead l st = some p

/-- One statement, or one terminator. Of what is computed only discriminant reads are told. -/
inductive Step (f : Func) (c : Config) (e : Effect) : Config → Prop where
  | stmt {blk : Block} {st : Stmt} {s : View} (hblk : f.blocks[c.block]? = some blk)
      (hst : blk.stmts[c.pc]? = some st) (hframe : Framed e c.view s)
      (hassign : ∀ l, Assigns f c.block c.pc l → e.locals l)
      (hread : ∀ l p, ReadsDisc f c.block c.pc l p → s.local l = c.view.disc p) :
      Step f c e ⟨c.block, c.pc + 1, s⟩
  | term {blk : Block} {b : Nat} {s : View} (hblk : f.blocks[c.block]? = some blk)
      (hpc : c.pc = blk.stmts.length) (hframe : Framed e c.view s)
      (hassign : ∀ l, Assigns f c.block c.pc l → e.locals l)
      (hedge : Edge c.view blk.term b) : Step f c e ⟨b, 0, s⟩

/-- The runs from the entry, with their events, the last one first. -/
inductive Run (f : Func) : List Event → Config → Prop where
  | start (s : View) : Run f [] ⟨f.entry, 0, s⟩
  | step {h : List Event} {c c' : Config} {e : Effect} (hrun : Run f h c)
      (hstep : Step f c e c') : Run f (⟨c, e, c'⟩ :: h) c'

variable {f : Func} {h : List Event} {c c' : Config} {e : Effect}

theorem Step.framed (hs : Step f c e c') : Framed e c.view c'.view := by
  cases hs with
  | stmt _ _ hframe => exact hframe
  | term _ _ hframe => exact hframe

theorem Step.block_lt (hs : Step f c e c') : c.block < f.blocks.length := by
  cases hs with
  | stmt hblk => exact (List.getElem?_eq_some_iff.mp hblk).1
  | term hblk => exact (List.getElem?_eq_some_iff.mp hblk).1

theorem edge_mem_successors {s : View} {t : Terminator} {b : Nat} (he : Edge s t b) :
    b ∈ successors t := by
  cases t with
  | goto bb => exact List.mem_singleton.mpr he
  | branch cond thenBb elseBb =>
    rcases he with rfl | rfl
    · exact List.mem_cons_self
    · exact List.mem_cons_of_mem _ List.mem_cons_self
  | switch scrutinee cases default =>
    simp only [Edge, switchTarget] at he
    simp only [successors, List.mem_append, List.mem_map, List.mem_singleton]
    cases hf : cases.find? fun c => c.1 = s.value scrutinee with
    | some case =>
      rw [hf] at he
      exact Or.inl ⟨case, List.mem_of_find?_eq_some hf, he.symm⟩
    | none =>
      rw [hf] at he
      exact Or.inr he
  | hollaCheck tag crib resolved live ghosted =>
    rcases he with rfl | rfl
    · exact List.mem_cons_self
    · exact List.mem_cons_of_mem _ List.mem_cons_self
  | ret vals => cases he
  | panic msg => cases he
  | unreachable => cases he

/-- A step stays in its block, one statement further, or crosses an edge. -/
theorem Step.moves (hs : Step f c e c') :
    (c'.block = c.block ∧ c'.pc = c.pc + 1) ∨
      (c'.pc = 0 ∧ c.block ∈ computePreds f c'.block) := by
  cases hs with
  | stmt => exact Or.inl ⟨rfl, rfl⟩
  | term hblk _ _ _ hedge =>
    exact Or.inr ⟨rfl, mem_computePreds.mpr ⟨_, hblk, edge_mem_successors hedge⟩⟩

/-- An event of a run was reached by a run of its own. -/
theorem Run.reached (hrun : Run f h c) {x : Event} (hx : x ∈ h) :
    ∃ h', Run f h' x.src ∧ h' ⊆ h ∧ Step f x.src x.effect x.dst := by
  induction hrun with
  | start s => cases hx
  | step hrun hstep ih =>
    rcases List.mem_cons.mp hx with rfl | hx
    · exact ⟨_, hrun, List.subset_cons_self _ _, hstep⟩
    · obtain ⟨h', hrun', hsub, hx⟩ := ih hx
      exact ⟨h', hrun', List.subset_cons_of_subset _ hsub, hx⟩

/-- The statements of a block before the current one have been executed. -/
theorem Run.executed (hrun : Run f h c) {j : Nat} (hj : j < c.pc) :
    ∃ x ∈ h, x.src.block = c.block ∧ x.src.pc = j := by
  induction hrun with
  | start s => cases hj
  | step hrun hstep ih =>
    rcases hstep.moves with ⟨hb, hpc⟩ | ⟨hpc, _⟩
    · rw [hpc] at hj
      rw [hb]
      rcases Nat.lt_succ_iff_lt_or_eq.mp hj with hj | rfl
      · obtain ⟨x, hx, hpos⟩ := ih hj
        exact ⟨x, List.mem_cons_of_mem _ hx, hpos⟩
      · exact ⟨_, List.mem_cons_self, rfl, rfl⟩
    · omega

/-- The places that nothing touches keep their discriminant. -/
theorem Run.disc_kept {post pre : List Event} {x : Event} {p : Place}
    (hrun : Run f (post ++ x :: pre) c)
    (hkept : ∀ y ∈ post ++ [x], ¬y.effect.touches p) :
    c.view.disc p = x.src.view.disc p := by
  induction post generalizing c with
  | nil =>
    cases hrun with
    | step hrun hstep => exact hstep.framed.disc_eq p (hkept _ List.mem_cons_self)
  | cons y post ih =>
    cases hrun with
    | step hrun hstep =>
      have hy := hstep.framed.disc_eq p (hkept _ List.mem_cons_self)
      rw [hy]
      exact ih hrun fun z hz => hkept z (List.mem_cons_of_mem _ hz)

end BetLang.Validate
