import BetLang.ControlRules
import BetLang.Sequencing

/-! What lowering builds for a part of a function does what the interpreter does with it. -/

namespace BetLang.Control

open Cfg Interp Mir BetLang.Control.Lower
open Builder

variable {Op σ : Type}

/-- In the finished graph the code from `p` to `e` does what the computation does. -/
def Code (sem : Sem Op σ) (mir : List (Blocks (Instr Op) (Term Op))) (f n : Nat) (loops : Loops)
    (p : Pos) (e : Option Pos) (x : Comp σ) (g : Blocks (Instr Op) (Term Op)) : Prop :=
  mir[f]? = some g → Simulates sem mir f n loops p e x

section Parts

variable {sem : Sem Op σ} {mir : List (Blocks (Instr Op) (Term Op))} {f n : Nat}
  {fn : Nat → Comp σ} {loops : Loops} {st st' : State Op}

/-- What a part builds whose end stays open. -/
structure Straight (sem : Sem Op σ) (mir : List (Blocks (Instr Op) (Term Op))) (f n : Nat)
    (loops : Loops) (st st' : State Op) (x : Comp σ) : Prop where
  builds : Builds st st' (Code sem mir f n loops st.pos (some st'.pos) x)
  opened : st'.Open

theorem Straight.refl (ho : st.Open) : Straight sem mir f n loops st st Interp.pure :=
  ⟨(Builds.refl ho).mono fun _ _ _ => .pure st.pos, ho⟩

theorem Straight.next {a b c : State Op} {x y : Comp σ} (hab : Straight sem mir f n loops a b x)
    (hbc : Straight sem mir f n loops b c y) :
    Straight sem mir f n loops a c (Interp.next x y) :=
  ⟨(hab.builds.trans hab.opened.1 hbc.builds).mono fun _ ⟨hx, hy⟩ hg => (hx hg).next (hy hg),
    hbc.opened⟩

theorem Straight.emit (ho : st.Open) {i : Instr Op}
    (hi : ∀ o, i ≠ .call o := by intro _ h; cases h) :
    Straight sem mir f n loops st (st.emit i) (instr sem i) := by
  obtain ⟨hb, hopen, hpos⟩ := emit_builds ho i
  refine ⟨hb.mono fun g hinstr hg => ?_, hopen⟩
  rw [hpos]
  exact .instr hg hinstr hi

theorem Straight.call (hfn : CallsSim sem mir n fn) (ho : st.Open) (o : Op) :
    Straight sem mir f n loops st (st.emit (.call o)) (callOp sem fn o) := by
  obtain ⟨hb, hopen, hpos⟩ := emit_builds ho (.call o)
  refine ⟨hb.mono fun g hinstr hg => ?_, hopen⟩
  rw [hpos]
  exact .call hg hinstr hfn

/-- A new block with code of its own, closed by a jump. -/
theorem Straight.goto {a b : State Op} {x : Comp σ}
    (h : Straight sem mir f n loops a.newBlock b x) {t : Nat} {g : Blocks (Instr Op) (Term Op)}
    (hg : mir[f]? = some g) (hw : Within b.blocks g) (ht : TermAt g b.pos (.goto t)) :
    Simulates sem mir f n loops ⟨a.blocks.length, 0⟩ (some ⟨t, 0⟩) x := by
  have hx := h.builds.lays g hw hg
  rw [newBlock_pos] at hx
  refine hx.goto hg fun q hq => ?_
  cases hq
  exact ht

/-- The same for code that may have left before its end. -/
theorem closed_goto {a b : State Op} {x : Comp σ}
    (h : Builds a.newBlock b (Code sem mir f n loops a.newBlock.pos b.exit x)) {t : Nat}
    {g : Blocks (Instr Op) (Term Op)} (hg : mir[f]? = some g)
    (hw : Within (b.terminate (.goto t)).blocks g) :
    Simulates sem mir f n loops ⟨a.blocks.length, 0⟩ (some ⟨t, 0⟩) x := by
  obtain ⟨hx, ht⟩ := (h.terminate (.goto t)).lays g hw
  have hx := hx hg
  rw [newBlock_pos] at hx
  exact hx.goto hg ht

section Loops

/-- The header of a loop is selected behind a jump to it. -/
theorem header_straight (ho : st.Open) :
    Straight sem mir f n loops st
        ((st.reserveBlock.setTerm st.cur (.goto st.blocks.length)).select st.blocks.length)
        Interp.pure ∧
      ((st.reserveBlock.setTerm st.cur (.goto st.blocks.length)).select st.blocks.length).pos =
        ⟨st.blocks.length, 0⟩ := by
  obtain ⟨hb, hopen, hpos⟩ := fork_builds (P := fun _ => True) ho (List.prefix_append _ _)
    (reserveBlock_pending st) (Nat.le_refl _) (.goto st.blocks.length) fun _ _ => trivial
  refine ⟨⟨hb.mono fun g ⟨_, ht⟩ hg => ?_, hopen⟩, hpos⟩
  rw [hpos]
  refine (Simulates.pure st.pos).goto hg fun q hq => ?_
  cases hq
  exact ht

/-- What `lowerLoop` builds, from what its header and its body build. -/
theorem lowerLoop_straight {header : State Op → Option (State Op)} {test : Test Op}
    {body : Nat → Nat → State Op → Option (State Op)} {hx bx tail : Comp σ} (ho : st.Open)
    (h : lowerLoop header test body st = some st')
    (hheader : ∀ {a b : State Op}, a.Open → header a = some b →
      Straight sem mir f n loops a b hx)
    (hbody : ∀ {hd ex : Nat} {a b : State Op}, a.Open → body hd ex a = some b →
      Builds a b fun g => mir[f]? = some g → ∃ next,
        Simulates sem mir f n ((next, ex) :: loops) a.pos (some ⟨next, 0⟩) bx ∧
        Simulates sem mir f n loops ⟨next, 0⟩ (some ⟨hd, 0⟩) tail) :
    Straight sem mir f n loops st st' (loop sem hx test bx tail n) := by
  obtain ⟨st₂, h₂, h⟩ := option_bind_some h
  obtain ⟨st₄, h₄, heq⟩ := option_bind_some h
  cases heq
  obtain ⟨hjump, hpos⟩ : Straight sem mir f n loops st _ Interp.pure ∧ _ := header_straight ho
  have hhd := hheader hjump.opened h₂
  -- The body's block and the exit behind the header.
  obtain ⟨hfork, hopen, hbodyPos⟩ := fork_builds (P := fun _ => True) hhd.opened
    ((List.prefix_append _ _).trans (List.prefix_append _ _))
    ((newBlock_pending st₂).reserve) (Nat.le_refl _)
    (.branch test st₂.blocks.length st₂.newBlock.blocks.length) fun _ _ => trivial
  have hex : (((st₂.newBlock.reserveBlock.setTerm st₂.cur
      (.branch test st₂.blocks.length st₂.newBlock.blocks.length)).select st₂.blocks.length)).Pending
      st₂.newBlock.blocks.length [] := by
    have hlt := hhd.opened.cur_lt
    exact (reserveBlock_pending st₂.newBlock).setTerm_ne _ (by
      rw [newBlock, List.length_append]
      omega)
  have hb := hbody hopen h₄
  have hne : st₂.newBlock.blocks.length ≠ st₂.blocks.length := by
    rw [newBlock, List.length_append, List.length_singleton]
    omega
  have hex' : st₄.Pending st₂.newBlock.blocks.length [] :=
    (hb.grows.other _ hex.lt hne).trans hex
  have hgrows := ((hjump.builds.grows.trans hhd.builds.grows).trans hfork.grows).trans hb.grows
  have hle : st.blocks.length ≤ st₂.newBlock.blocks.length := by
    have hsize := (hjump.builds.grows.trans hhd.builds.grows).size
    rw [newBlock, List.length_append]
    omega
  have hsel := hex'.select
  refine ⟨⟨hgrows.select hle, fun _ => hsel.1, fun g hw hg => ?_⟩, hsel.1⟩
  have hw₃ := (hb.grows.sub hopen).trans hw
  have hw₂ := (hfork.grows.sub hhd.opened).trans hw₃
  have hw₁ := (hhd.builds.grows.sub hjump.opened).trans hw₂
  obtain ⟨next, hround, htail⟩ := hb.lays g hw hg
  have hstart := hjump.builds.lays g hw₁ hg
  have hheader := hhd.builds.lays g hw₂ hg
  rw [hpos] at hstart hheader
  rw [hbodyPos] at hround
  rw [hsel.2]
  exact hstart.next (hheader.loop hg (hfork.lays g hw₃).2 hround htail (Nat.le_refl n))

theorem lowerCountLoop_straight {o : Op} {body : State Op → State Op} {bx : Comp σ}
    (ho : st.Open) (h : lowerCountLoop o body st = some st')
    (hbody : ∀ {l : Loops} {a : State Op}, a.Open → Straight sem mir f n l a (body a) bx) :
    Straight sem mir f n loops st st' (countLoop sem n o bx) := by
  have hstart : Straight sem mir f n loops st (st.emit (.start o)) (instr sem (.start o)) :=
    .emit ho
  refine hstart.next (lowerLoop_straight hstart.opened h ?_ ?_)
  · intro a b ha heq
    cases heq
    exact .emit ha
  · intro hd ex a b ha heq
    cases heq
    have hx : Straight sem mir f n ((hd, ex) :: loops) a ((body a).emit (.advance o))
        (next bx (instr sem (.advance o))) :=
      (hbody ha).next (.emit (hbody (l := []) ha).opened)
    refine (hx.builds.terminate (.goto hd)).mono fun g ⟨hcode, ht⟩ hg => ⟨hd, ?_, .pure _⟩
    refine (hcode hg).goto hg fun q hq => ht q ?_
    rw [hx.opened.exit, hq]

end Loops

section Exprs

/-- Two blocks of code that are chosen by a terminator and join again. -/
theorem diamond_builds {a b d : State Op} {x y : Comp σ} (ho : a.Open)
    (hx : Builds a.reserveBlock.newBlock b
      (Code sem mir f n loops a.reserveBlock.newBlock.pos b.exit x))
    (hy : Builds (b.terminate (.goto a.blocks.length)).newBlock d
      (Code sem mir f n loops (b.terminate (.goto a.blocks.length)).newBlock.pos d.exit y))
    (t : Term Op) :
    Builds a (((d.terminate (.goto a.blocks.length)).setTerm a.cur t).select a.blocks.length)
        (fun g => mir[f]? = some g →
          Simulates sem mir f n loops ⟨a.reserveBlock.blocks.length, 0⟩
            (some ⟨a.blocks.length, 0⟩) x ∧
          Simulates sem mir f n loops ⟨(b.terminate (.goto a.blocks.length)).blocks.length, 0⟩
            (some ⟨a.blocks.length, 0⟩) y ∧ TermAt g a.pos t) ∧
      (((d.terminate (.goto a.blocks.length)).setTerm a.cur t).select a.blocks.length).Open ∧
      (((d.terminate (.goto a.blocks.length)).setTerm a.cur t).select a.blocks.length).pos =
        ⟨a.blocks.length, 0⟩ := by
  have hfirst := hx.keeps.trans (terminate_grows b (.goto a.blocks.length))
  have hsecond := hy.keeps.trans (terminate_grows d (.goto a.blocks.length))
  have hkeeps := hfirst.trans hsecond.grows
  obtain ⟨hb, hopen, hpos⟩ := fork_builds (b := d.terminate (.goto a.blocks.length))
    (P := fun g => mir[f]? = some g →
      Simulates sem mir f n loops ⟨a.reserveBlock.blocks.length, 0⟩
        (some ⟨a.blocks.length, 0⟩) x ∧
      Simulates sem mir f n loops ⟨(b.terminate (.goto a.blocks.length)).blocks.length, 0⟩
        (some ⟨a.blocks.length, 0⟩) y) ho
    ((List.prefix_append _ _).trans hkeeps.blocks) (hkeeps.pending (reserveBlock_pending a))
    (Nat.le_refl _) t
    (fun g hg hmir =>
      ⟨closed_goto hx hmir (hsecond.sub.trans hg), closed_goto hy hmir hg⟩)
  exact ⟨hb.mono fun g ⟨hxy, ht⟩ hg => ⟨(hxy hg).1, (hxy hg).2, ht⟩, hopen, hpos⟩

/-- The end of open code, as its exit. -/
theorem Straight.exit {x : Comp σ} (h : Straight sem mir f n loops st st' x) :
    Builds st st' (Code sem mir f n loops st.pos st'.exit x) := by
  rw [h.opened.exit]
  exact h.builds

theorem printBool_straight {o : Op} (ho : st.Open)
    (h : lowerExpr st (.printBool o) = some st') :
    Straight sem mir f n loops st st'
      (choose sem (.cond o) (instr sem (.print o true)) (instr sem (.print o false))) := by
  cases h
  have htrue : Straight sem mir f n loops st.reserveBlock.newBlock
      (st.reserveBlock.newBlock.emit (.print o true)) (instr sem (.print o true)) :=
    .emit (newBlock_open _)
  have hfalse : Straight sem mir f n loops
      ((st.reserveBlock.newBlock.emit (.print o true)).terminate
        (.goto st.blocks.length)).newBlock _ (instr sem (.print o false)) :=
    .emit (newBlock_open _)
  obtain ⟨hb, hopen, hpos⟩ := diamond_builds ho htrue.exit hfalse.exit (.branch (.cond o)
    st.reserveBlock.blocks.length ((st.reserveBlock.newBlock.emit (.print o true)).terminate
      (.goto st.blocks.length)).blocks.length)
  refine ⟨hb.mono fun g hxy hg => ?_, hopen⟩
  obtain ⟨hx, hy, ht⟩ := hxy hg
  rw [hpos]
  exact .choose hg ht hx hy

/-- The right operand and the short answer of `&&` and `||`, and the block behind both. -/
theorem shortCircuit_straight {isAnd : Bool} {o : Op} {st₁ st₂ : State Op} {y : Comp σ}
    (ho : st₁.Open) (hr : Straight sem mir f n loops st₁.newBlock st₂ y) :
    let st₃ := st₂.emit (.keep o)
    let st₄ := st₃.newBlock.emit (.short o !isAnd)
    let st₅ := (st₄.newBlock.setTerm st₂.cur (.goto st₄.blocks.length)).setTerm st₃.blocks.length
      (.goto st₄.blocks.length)
    let t : Term Op := if isAnd then .branch (.cond o) st₁.blocks.length st₃.blocks.length
      else .branch (.cond o) st₃.blocks.length st₁.blocks.length
    Straight sem mir f n loops st₁ ((st₅.setTerm st₁.cur t).select st₄.blocks.length)
      (if isAnd then
        choose sem (.cond o) (next y (instr sem (.keep o))) (instr sem (.short o !isAnd))
      else choose sem (.cond o) (instr sem (.short o !isAnd)) (next y (instr sem (.keep o)))) := by
  intro st₃ st₄ st₅ t
  have hrhs : Straight sem mir f n loops st₁.newBlock st₃ (next y (instr sem (.keep o))) :=
    hr.next (.emit hr.opened)
  have hshort : Straight sem mir f n loops st₃.newBlock st₄ (instr sem (.short o !isAnd)) :=
    .emit (newBlock_open st₃)
  have hlt : st₂.cur < st₃.blocks.length := hrhs.opened.cur_lt
  have hlt' : st₃.blocks.length < st₄.blocks.length := hshort.opened.cur_lt
  have hle : st₁.blocks.length ≤ st₂.cur := hrhs.builds.keeps.cur
  have hback : Keeps st₃ st₄.newBlock := hshort.builds.keeps.trans (newBlock_keeps st₄).grows
  have hkeeps : Keeps st₁ st₅ := ((hrhs.builds.keeps.trans hback.grows).setTerm hle _).setTerm
    (by omega) _
  -- Both blocks are closed with jumps to the block behind them.
  obtain ⟨hw, ht⟩ := hback.close hrhs.opened (.goto st₄.blocks.length)
  obtain ⟨_, stmts, hp⟩ := hshort.opened
  change st₄.Pending st₃.blocks.length stmts at hp
  have hp' : (st₄.newBlock.setTerm st₂.cur (.goto st₄.blocks.length)).Pending st₃.blocks.length
      stmts := ((newBlock_keeps st₄).pending hp).setTerm_ne _ (by omega)
  have hmerge : st₅.Pending st₄.blocks.length [] :=
    ((newBlock_pending st₄).setTerm_ne _ (by omega)).setTerm_ne _ (by omega)
  have hw' : Within (st₄.newBlock.setTerm st₂.cur (.goto st₄.blocks.length)).blocks st₅.blocks :=
    hp'.within_setTerm _
  have hwithin : ∀ g, Within st₅.blocks g → Within st₄.newBlock.blocks g :=
    fun g hg => (hw.trans hw').trans hg
  obtain ⟨hb, hopen, hpos⟩ := fork_builds (P := fun g => mir[f]? = some g →
      Simulates sem mir f n loops ⟨st₁.blocks.length, 0⟩ (some ⟨st₄.blocks.length, 0⟩)
        (next y (instr sem (.keep o))) ∧
      Simulates sem mir f n loops ⟨st₃.blocks.length, 0⟩ (some ⟨st₄.blocks.length, 0⟩)
        (instr sem (.short o !isAnd))) ho hkeeps.blocks hmerge (by omega) t
    (fun g hg hmir => by
      refine ⟨hrhs.goto hmir (hback.sub.trans (hwithin g hg)) (hg.term (hw'.term ht)), ?_⟩
      refine hshort.goto hmir ((newBlock_keeps st₄).sub.trans (hwithin g hg)) (hg.term ?_)
      rw [pos_of_pending st₄ hp]
      exact hp'.setTerm_at _)
  refine ⟨hb.mono fun g ⟨hxy, hbranch⟩ hg => ?_, hopen⟩
  obtain ⟨hx, hy⟩ := hxy hg
  rw [hpos]
  cases isAnd with
  | true => exact .choose hg hbranch hx hy
  | false => exact .choose hg hbranch hy hx

/-- The push of `vibeCheck`, behind a test. -/
theorem keepIf_straight {o : Op} (ho : st.Open) :
    Straight sem mir f n loops st
      (((st.newBlock.emit (.push o)).newBlock.setTerm st.blocks.length
        (.goto (st.newBlock.emit (.push o)).blocks.length)).setTerm st.cur
        (.branch (.keep o) st.blocks.length (st.newBlock.emit (.push o)).blocks.length) |>.select
        (st.newBlock.emit (.push o)).blocks.length)
      (choose sem (.keep o) (instr sem (.push o)) Interp.pure) := by
  have hpush : Straight sem mir f n loops st.newBlock (st.newBlock.emit (.push o))
      (instr sem (.push o)) := .emit (newBlock_open st)
  generalize hk : st.newBlock.emit (.push o) = st₂ at hpush
  have hcur : st₂.cur = st.blocks.length := by rw [← hk]; rfl
  have hkeeps : Keeps st st₂ := hpush.builds.keeps
  have hlt := hpush.opened.cur_lt
  obtain ⟨hw, ht⟩ := (newBlock_keeps st₂).close hpush.opened (.goto st₂.blocks.length)
  rw [hcur] at hw ht
  obtain ⟨hb, hopen, hpos⟩ := fork_builds (a := st)
    (b := st₂.newBlock.setTerm st.blocks.length (.goto st₂.blocks.length))
    (P := fun g => mir[f]? = some g → Simulates sem mir f n loops ⟨st.blocks.length, 0⟩
      (some ⟨st₂.blocks.length, 0⟩) (instr sem (.push o))) ho
    ((hkeeps.trans (newBlock_keeps st₂).grows).setTerm (Nat.le_refl _) _).blocks
    ((newBlock_pending st₂).setTerm_ne _ (by omega)) (by omega)
    (.branch (.keep o) st.blocks.length st₂.blocks.length)
    (fun g hg hmir => hpush.goto hmir (((newBlock_keeps st₂).sub.trans hw).trans hg) (hg.term ht))
  refine ⟨hb.mono fun g ⟨hx, hbranch⟩ hg => ?_, hopen⟩
  rw [hpos]
  exact .choose hg hbranch (hx hg) (.pure _)

theorem lowerExpr_straight (hfn : CallsSim sem mir n fn) {l : Loops} (e : Expr Op) (ho : st.Open)
    (h : lowerExpr st e = some st') :
    Straight sem mir f n l st st' (evalExpr sem (callOp sem fn) n e) := by
  induction e generalizing st st' l with
  | nil =>
    cases h
    exact .refl ho
  | op o =>
    cases h
    exact .emit ho
  | call o =>
    cases h
    exact .call hfn ho o
  | seq first second ihf ihs =>
    obtain ⟨st₁, h₁, h⟩ := option_bind_some h
    exact (ihf ho h₁).next (ihs (ihf (l := l) ho h₁).opened h)
  | shortCircuit isAnd o lhs rhs ihl ihr =>
    obtain ⟨st₁, h₁, h⟩ := option_bind_some h
    obtain ⟨st₂, h₂, heq⟩ := option_bind_some h
    cases heq
    have hl := ihl (l := l) ho h₁
    exact hl.next (shortCircuit_straight hl.opened (ihr (newBlock_open st₁) h₂))
  | printBool o => exact printBool_straight ho h
  | map o =>
    refine lowerCountLoop_straight ho h fun {l' a} ha => ?_
    have helem : Straight sem mir f n l' a _ (instr sem (.element o)) := .emit ha
    have hcall := helem.next (.call hfn helem.opened o)
    exact hcall.next (.emit hcall.opened)
  | filter o =>
    refine lowerCountLoop_straight ho h fun {l' a} ha => ?_
    have helem : Straight sem mir f n l' a _ (instr sem (.element o)) := .emit ha
    have hcall := helem.next (.call hfn helem.opened o)
    exact hcall.next (keepIf_straight hcall.opened)

end Exprs

section Stmts

/-- A reserved block is still empty behind the code of the current one. -/
theorem reserved_pending {a b : State Op} (ho : a.Open) (hg : Grows a.reserveBlock b) :
    b.Pending a.blocks.length [] := by
  have hlt := ho.cur_lt
  have hp := reserveBlock_pending a
  exact (hg.other _ hp.lt (Nat.ne_of_gt hlt)).trans hp

theorem Straight.terminate {x y : Comp σ} (h : Straight sem mir f n loops st st' x) (t : Term Op)
    (hy : ∀ {g : Blocks (Instr Op) (Term Op)}, mir[f]? = some g → TermAt g st'.pos t →
      Simulates sem mir f n loops st'.pos none y) :
    Builds st (st'.terminate t)
      (Code sem mir f n loops st.pos (st'.terminate t).exit (Interp.next x y)) := by
  rw [terminate_exit]
  refine (h.builds.terminate t).mono fun g ⟨hx, ht⟩ hg => ?_
  exact (hx hg).next (hy hg (ht _ h.opened.exit))

/-- `skip` of a `squad` goes to the increment. -/
theorem squadBody_builds {o : Op} {hd ex : Nat} {a b : State Op} {x : Comp σ} (ho : a.Open)
    (hx : Builds (a.emit (.element o)).reserveBlock b
      (Code sem mir f n (((a.emit (.element o)).blocks.length, ex) :: loops)
        (a.emit (.element o)).reserveBlock.pos b.exit x)) :
    Builds a (((((b.terminate (.goto (a.emit (.element o)).blocks.length)).select
        (a.emit (.element o)).blocks.length).emit (.advance o))).terminate (.goto hd))
      fun g => mir[f]? = some g → ∃ next,
        Simulates sem mir f n ((next, ex) :: loops) a.pos (some ⟨next, 0⟩)
          (Interp.next (instr sem (.element o)) x) ∧
        Simulates sem mir f n loops ⟨next, 0⟩ (some ⟨hd, 0⟩) (instr sem (.advance o)) := by
  have helem : ∀ l, Straight sem mir f n l a (a.emit (.element o)) (instr sem (.element o)) :=
    fun l => .emit ho
  have hopen := (helem []).opened
  have hreserved := hopen.reserve_pos
  generalize a.emit (.element o) = a₁ at hx helem hopen hreserved
  have hclosed := hx.terminate (.goto a₁.blocks.length)
  have hp := reserved_pending hopen hclosed.grows
  obtain ⟨hsel, hpos⟩ := hp.select
  have hadv : Straight sem mir f n loops _ _ (instr sem (.advance o)) := .emit hsel
  have hend := hadv.builds.terminate (.goto hd)
  have hgrows := ((helem []).builds.grows.trans (reserveBlock_grows a₁)).trans hclosed.grows
  refine ⟨(hgrows.select (helem []).builds.grows.size).trans hend.grows, terminate_opened _ _,
    fun g hg hmir => ⟨a₁.blocks.length, ?_, ?_⟩⟩
  · have hw := (hend.grows.sub hsel).trans hg
    obtain ⟨hcode, hgoto⟩ := hclosed.lays g hw
    have hw₁ := (Within.append a₁.blocks [⟨[], none⟩]).trans
      ((hclosed.grows.sub hopen.reserve).trans hw)
    have hfirst := (helem ((a₁.blocks.length, ex) :: loops)).builds.lays g hw₁ hmir
    rw [← hreserved] at hfirst
    exact (hfirst.next (hcode hmir)).goto hmir hgoto
  · obtain ⟨hcode, hgoto⟩ := hend.lays g hg
    have hcode := hcode hmir
    rw [hpos] at hcode
    exact hcode.goto hmir fun q hq => hgoto q (by rw [hadv.opened.exit, hq])

/-- Open code and a part that may leave. -/
theorem Straight.before {a b c : State Op} {x y : Comp σ}
    (hab : Straight sem mir f n loops a b x)
    (hbc : Builds b c (Code sem mir f n loops b.pos c.exit y)) :
    Builds a c (Code sem mir f n loops a.pos c.exit (Interp.next x y)) :=
  (hab.builds.trans hab.opened.1 hbc).mono fun _ ⟨hx, hy⟩ hg => (hx hg).next (hy hg)

theorem Straight.bounce {x : Comp σ} {o : Op} (h : Straight sem mir f n loops st st' x) :
    Builds st (((st'.reserveBlock.newBlock.terminate .ret).setTerm st'.cur (.branch (.cond o)
        st'.reserveBlock.blocks.length st'.blocks.length)).select st'.blocks.length)
      (Code sem mir f n loops st.pos (((st'.reserveBlock.newBlock.terminate .ret).setTerm st'.cur
        (.branch (.cond o) st'.reserveBlock.blocks.length st'.blocks.length)).select
        st'.blocks.length).exit (Interp.next x (choose sem (.cond o) leave Interp.pure))) := by
  have hret := terminate_builds (newBlock_open st'.reserveBlock) (.ret : Term Op)
  have hkeeps := hret.keeps
  obtain ⟨hb, hopen, hpos⟩ := fork_builds (P := fun g =>
      TermAt g ⟨st'.reserveBlock.blocks.length, 0⟩ (.ret : Term Op)) h.opened
    ((List.prefix_append _ _).trans hkeeps.blocks) (hkeeps.pending (reserveBlock_pending st'))
    (Nat.le_refl _) (.branch (.cond o) st'.reserveBlock.blocks.length st'.blocks.length)
    (fun g hg => by
      have ht := hret.lays g hg
      rw [newBlock_pos] at ht
      exact ht)
  refine h.before (hb.mono fun g ⟨ht, hbranch⟩ hg => ?_)
  rw [hopen.exit, hpos]
  exact .choose hg hbranch (.leave hg ht) (.pure _)

theorem fr_builds {a b : State Op} {x : Comp σ} (ho : a.Open)
    (h : Builds a.reserveBlock b
      (Code sem mir f n loops a.reserveBlock.pos (some ⟨a.blocks.length, 0⟩) x)) :
    Builds a (b.select a.blocks.length)
      (Code sem mir f n loops a.pos (b.select a.blocks.length).exit x) := by
  obtain ⟨hopen, hpos⟩ := (reserved_pending ho h.grows).select
  refine ⟨((reserveBlock_grows a).trans h.grows).select (Nat.le_refl _), fun _ => hopen,
    fun g hw hg => ?_⟩
  have hcode := h.lays g hw hg
  rw [ho.reserve_pos] at hcode
  rw [hopen.exit, hpos]
  exact hcode

theorem Straight.chain {x y z : Comp σ} {o : Op} {a b c : State Op} {merge : Nat}
    (h : Straight sem mir f n loops st a x)
    (hy : Builds a.newBlock b (Code sem mir f n loops a.newBlock.pos b.exit y))
    (hz : Builds (b.terminate (.goto merge)).newBlock c
      (Code sem mir f n loops (b.terminate (.goto merge)).newBlock.pos (some ⟨merge, 0⟩) z)) :
    Builds st (c.setTerm a.cur
        (.branch (.cond o) a.blocks.length (b.terminate (.goto merge)).blocks.length))
      (Code sem mir f n loops st.pos (some ⟨merge, 0⟩)
        (Interp.next x (choose sem (.cond o) y z))) := by
  have hbody := (hy.terminate (.goto merge)).keeps
  have hrest := hz.keeps
  have hkeeps := hbody.trans hrest.grows
  obtain ⟨hw, ht⟩ := hkeeps.close h.opened
    (.branch (.cond o) a.blocks.length (b.terminate (.goto merge)).blocks.length)
  have hlt := h.opened.cur_lt
  refine ⟨h.builds.grows.trans (hkeeps.grows.setTerm _), fun hd => ?_, fun g hg hmir => ?_⟩
  · obtain ⟨hdone, stmts, hp⟩ := hz.opened hd
    have hcur := hkeeps.cur
    exact ⟨hdone, stmts, hp.setTerm_ne _ (by omega)⟩
  · have hwc := hw.trans hg
    have hcode := hz.lays g hwc hmir
    rw [newBlock_pos] at hcode
    have hx := h.builds.lays g (hkeeps.sub.trans hwc) hmir
    exact hx.next (.choose hmir (hg.term ht) (closed_goto hy hmir (hrest.sub.trans hwc)) hcode)

theorem Straight.vibe {x : Comp σ} {o : Op} {sum : List Variant} {cases : List (Nat × Nat)}
    {d : Nat} {arms : String → Comp σ} {a b : State Op} (h : Straight sem mir f n loops st a x)
    (hkeeps : Keeps a.reserveBlock b)
    (harms : ∀ g, Within b.blocks g → mir[f]? = some g → ∀ name,
      Simulates sem mir f n loops ⟨caseOf sum cases d name, 0⟩ (some ⟨a.blocks.length, 0⟩)
        (arms name)) :
    Builds st ((b.setTerm a.cur (.switch o sum cases d)).select a.blocks.length)
      (Code sem mir f n loops st.pos
        ((b.setTerm a.cur (.switch o sum cases d)).select a.blocks.length).exit
        (Interp.next x fun s => arms (sem.variant o s) s)) := by
  obtain ⟨hb, hopen, hpos⟩ := fork_builds h.opened
    ((List.prefix_append _ _).trans hkeeps.blocks) (hkeeps.pending (reserveBlock_pending a))
    (Nat.le_refl _) (.switch o sum cases d) harms
  refine h.before (hb.mono fun g ⟨harms, ht⟩ hg => ?_)
  rw [hopen.exit, hpos]
  exact .switch hg ht (harms hg)

theorem Straight.holla {x y z : Comp σ} {o : Op} {a b d : State Op}
    (h : Straight sem mir f n loops st a x)
    (hy : Builds a.reserveBlock.newBlock b
      (Code sem mir f n loops a.reserveBlock.newBlock.pos b.exit y))
    (hz : Builds (b.terminate (.goto a.blocks.length)).newBlock d
      (Code sem mir f n loops (b.terminate (.goto a.blocks.length)).newBlock.pos d.exit z)) :
    Builds st (((d.terminate (.goto a.blocks.length)).setTerm a.cur (.hollaCheck o
        a.reserveBlock.blocks.length
        (b.terminate (.goto a.blocks.length)).blocks.length)).select a.blocks.length)
      (Code sem mir f n loops st.pos (((d.terminate (.goto a.blocks.length)).setTerm a.cur
        (.hollaCheck o a.reserveBlock.blocks.length
          (b.terminate (.goto a.blocks.length)).blocks.length)).select a.blocks.length).exit
        (Interp.next x fun s =>
          match sem.resolve o s with
          | some s' => y s'
          | none => z s)) := by
  obtain ⟨hb, hopen, hpos⟩ := diamond_builds h.opened hy hz (.hollaCheck o
    a.reserveBlock.blocks.length (b.terminate (.goto a.blocks.length)).blocks.length)
  refine h.before (hb.mono fun g hyz hg => ?_)
  obtain ⟨hy, hz, ht⟩ := hyz hg
  rw [hopen.exit, hpos]
  exact .holla hg ht hy hz

theorem lowerBlock_done {sig : Sig} {b : Block Op} (hd : st.done = true)
    (h : lowerBlock sig loops st b = some st') : st' = st := by
  cases b with
  | nil => exact (Option.some.inj h).symm
  | cons s rest =>
    rw [lowerBlock, if_pos hd] at h
    exact (Option.some.inj h).symm

theorem guard_bind {α : Type} {c : Prop} [Decidable c] {x : Option α} {r : α}
    (h : (do guard c; x) = some r) : c ∧ x = some r := by
  by_cases hc : c
  · rw [guard, if_pos hc] at h
    exact ⟨hc, h⟩
  · rw [guard, if_neg hc] at h
    cases h

theorem variantIndex_inj {sum : List Variant} {a b : String} {v : Nat}
    (ha : variantIndex sum a = some v) (hb : variantIndex sum b = some v) : a = b := by
  obtain ⟨hlt, ha, _⟩ := List.findIdx?_eq_some_iff_getElem.mp ha
  obtain ⟨_, hb, _⟩ := List.findIdx?_eq_some_iff_getElem.mp hb
  exact (beq_iff_eq.mp ha).symm.trans (beq_iff_eq.mp hb)

section Cases

variable {sum : List Variant} {cases : List (Nat × Nat)} {v bb d : Nat} {variant name : String}

theorem caseOf_nil : caseOf sum [] d name = d := by
  rw [caseOf]
  cases variantIndex sum name <;> rfl

theorem caseOf_head (hv : variantIndex sum variant = some v) :
    caseOf sum ((v, bb) :: cases) d variant = bb := by
  simp [caseOf, hv]

theorem caseOf_tail (hv : variantIndex sum variant = some v) (hne : variant ≠ name) :
    caseOf sum ((v, bb) :: cases) d name = caseOf sum cases d name := by
  rw [caseOf, caseOf]
  cases hn : variantIndex sum name with
  | none => rfl
  | some w =>
    have hvw : (w == v) = false := by
      rw [beq_eq_false_iff_ne]
      rintro rfl
      exact hne (variantIndex_inj hv hn)
    dsimp only
    rw [List.lookup_cons, hvw]

end Cases

end Stmts

section Walk

variable {sig : Sig}

mutual

theorem lowerStmt_builds (hfn : CallsSim sem mir n fn) {l : Loops} {a b : State Op}
    (s : Stmt Op) (ho : a.Open) (h : lowerStmt sig l a s = some b) :
    Builds a b (Code sem mir f n l a.pos b.exit (execStmt sem (callOp sem fn) n s)) := by
  cases s with
  | eval e => exact (lowerExpr_straight hfn e ho h).exit
  | bet count vals =>
    obtain ⟨_, h⟩ := guard_bind h
    obtain ⟨st₁, h₁, heq⟩ := option_bind_some h
    cases heq
    exact (lowerExpr_straight hfn vals ho h₁).terminate .ret fun hg ht => .leave hg ht
  | yeet msg =>
    obtain ⟨st₁, h₁, heq⟩ := option_bind_some h
    cases heq
    exact (lowerExpr_straight hfn msg ho h₁).terminate .panic fun hg ht => .panic hg ht
  | bounce e o =>
    obtain ⟨st₁, h₁, h⟩ := option_bind_some h
    obtain ⟨_, heq⟩ := guard_bind h
    cases heq
    have he := lowerExpr_straight (f := f) (l := l) hfn e ho h₁
    exact he.bounce
  | dip =>
    cases l with
    | nil => cases h
    | cons loop l =>
      cases h
      exact (terminate_builds ho _).mono fun g ht hg => .dip hg ht
  | skip =>
    cases l with
    | nil => cases h
    | cons loop l =>
      cases h
      exact (terminate_builds ho _).mono fun g ht hg => .skip hg ht
  | fr chain =>
    obtain ⟨st₁, h₁, heq⟩ := option_bind_some h
    cases heq
    have hchain := emitIfChain_builds hfn chain ho.reserve h₁
    exact fr_builds ho hchain
  | vibin cond o body =>
    have hloop : lowerLoop (fun st => lowerExpr st cond) (.cond o) (fun header exit st => do
        return (← lowerBlock sig ((header, exit) :: l) st body).terminate (.goto header)) a =
        some b := h
    refine Straight.exit (lowerLoop_straight ho hloop (fun ha heq => ?_) fun {hd ex a b} ha heq => ?_)
    · exact lowerExpr_straight hfn cond ha heq
    · obtain ⟨st₁, h₁, heq⟩ := option_bind_some heq
      cases heq
      have hbody := (lowerBlock_builds hfn body ha h₁).terminate (.goto hd)
      exact hbody.mono fun g ⟨hx, ht⟩ hg => ⟨hd, (hx hg).goto hg ht, .pure _⟩
  | squad iter o body =>
    obtain ⟨st₁, h₁, h⟩ := option_bind_some h
    have hiter := lowerExpr_straight (f := f) (l := l) hfn iter ho h₁
    have hstart := hiter.next (.emit (i := .start o) hiter.opened)
    refine (hstart.next (lowerLoop_straight hstart.opened h (fun ha heq => ?_)
      fun {hd ex a b} ha heq => ?_)).exit
    · cases heq
      exact .emit ha
    · obtain ⟨st₂, h₂, heq⟩ := option_bind_some heq
      cases heq
      have helem : Straight sem mir f n l a (a.emit (.element o)) (instr sem (.element o)) :=
        .emit ha
      exact squadBody_builds ha (lowerBlock_builds hfn body helem.opened.reserve h₂)
  | vibe scrutinee o sum arms =>
    obtain ⟨st₁, h₁, h⟩ := option_bind_some h
    obtain ⟨⟨st₂, cases, d⟩, h₂, heq⟩ := option_bind_some h
    cases heq
    have hscrut := lowerExpr_straight (f := f) (l := l) hfn scrutinee ho h₁
    have hdisc := hscrut.next (.emit (i := .discriminant o) hscrut.opened)
    obtain ⟨hkeeps, harms⟩ := lowerArms_keeps hfn arms h₂
    exact hdisc.vibe hkeeps harms
  | holla operands o live ghosted =>
    obtain ⟨st₁, h₁, h⟩ := option_bind_some h
    obtain ⟨st₂, h₂, h⟩ := option_bind_some h
    obtain ⟨st₃, h₃, heq⟩ := option_bind_some h
    cases heq
    have hops := lowerExpr_straight (f := f) (l := l) hfn operands ho h₁
    have hlive := lowerBlock_builds hfn live (newBlock_open _) h₂
    have hghosted := lowerBlock_builds hfn ghosted (newBlock_open _) h₃
    exact hops.holla hlive hghosted

theorem emitIfChain_builds (hfn : CallsSim sem mir n fn) {l : Loops} {a b : State Op}
    {merge : Nat} (c : Chain Op) (ho : a.Open) (h : emitIfChain sig l merge a c = some b) :
    Builds a b (Code sem mir f n l a.pos (some ⟨merge, 0⟩)
      (execChain sem (callOp sem fn) n c)) := by
  cases c with
  | done =>
    cases h
    refine (terminate_builds ho _).mono fun g ht hg => ?_
    exact (Simulates.pure a.pos).goto hg fun q hq => Option.some.inj hq ▸ ht
  | naw body =>
    obtain ⟨st₁, h₁, heq⟩ := option_bind_some h
    cases heq
    exact ((lowerBlock_builds hfn body ho h₁).terminate _).mono fun g ⟨hx, ht⟩ hg =>
      (hx hg).goto hg ht
  | fr cond o body rest =>
    obtain ⟨st₁, h₁, h⟩ := option_bind_some h
    obtain ⟨st₂, h₂, h⟩ := option_bind_some h
    obtain ⟨st₃, h₃, heq⟩ := option_bind_some h
    cases heq
    have hcond := lowerExpr_straight (f := f) (l := l) hfn cond ho h₁
    have hbody := lowerBlock_builds hfn body (newBlock_open st₁) h₂
    have hrest := emitIfChain_builds hfn rest (newBlock_open _) h₃
    exact hcond.chain hbody hrest

theorem lowerArms_keeps (hfn : CallsSim sem mir n fn) {l : Loops} {a b : State Op} {o : Op}
    {sum : List Variant} {merge d : Nat} {cases : List (Nat × Nat)} (arms : Arms Op)
    (h : lowerArms sig l o sum merge a arms = some (b, cases, d)) :
    Keeps a b ∧ ∀ g, Within b.blocks g → mir[f]? = some g → ∀ name,
      Simulates sem mir f n l ⟨caseOf sum cases d name, 0⟩ (some ⟨merge, 0⟩)
        (execArms sem (callOp sem fn) n o sum name arms) := by
  cases arms with
  | done =>
    cases h
    have hend := terminate_builds (newBlock_open a) (.unreachable : Term Op)
    refine ⟨hend.keeps, fun g hw hg name => ?_⟩
    rw [caseOf_nil]
    have ht := hend.lays g hw
    rw [newBlock_pos] at ht
    exact .unreachable hg ht
  | naw body =>
    obtain ⟨st₁, h₁, heq⟩ := option_bind_some h
    cases heq
    have hbody := lowerBlock_builds hfn body (newBlock_open a) h₁
    refine ⟨(hbody.terminate _).keeps, fun g hw hg name => ?_⟩
    rw [caseOf_nil]
    exact closed_goto hbody hg hw
  | arm variant bindings body rest =>
    obtain ⟨v, hv, h⟩ := option_bind_some h
    obtain ⟨_, h⟩ := guard_bind h
    obtain ⟨st₁, h₁, h⟩ := option_bind_some h
    obtain ⟨⟨st₂, cs, d⟩, h₂, heq⟩ := option_bind_some h
    cases heq
    have hbind : Straight sem mir f n l a.newBlock _ (instr sem (.payload o v)) :=
      .emit (newBlock_open a)
    have hbody := lowerBlock_builds hfn body hbind.opened h₁
    have harm := hbind.before hbody
    obtain ⟨hkeeps, hrest⟩ := lowerArms_keeps hfn rest h₂
    refine ⟨(harm.terminate _).keeps.trans hkeeps.grows, fun g hw hg name => ?_⟩
    rw [execArms, hv]
    by_cases hname : variant = name
    · subst hname
      rw [if_pos rfl, caseOf_head hv]
      exact closed_goto harm hg (hkeeps.sub.trans hw)
    · rw [if_neg hname, caseOf_tail hv hname]
      exact hrest g hw hg name

theorem lowerBlock_builds (hfn : CallsSim sem mir n fn) {l : Loops} {a b : State Op}
    (blk : Block Op) (ho : a.Open) (h : lowerBlock sig l a blk = some b) :
    Builds a b (Code sem mir f n l a.pos b.exit (execBlock sem (callOp sem fn) n blk)) := by
  cases blk with
  | nil =>
    cases h
    exact (Straight.refl ho).exit
  | cons s rest =>
    rw [lowerBlock, if_neg (by rw [ho.1]; exact Bool.false_ne_true)] at h
    obtain ⟨st₁, h₁, h⟩ := option_bind_some h
    have hs := lowerStmt_builds hfn s ho h₁
    cases hd : st₁.done with
    | true =>
      cases lowerBlock_done hd h
      refine hs.mono fun g hcode hg => ?_
      have hnone : b.exit = none := by rw [Builder.exit, hd]; rfl
      rw [hnone] at hcode ⊢
      exact (hcode hg).next_none
    | false =>
      have hopen := hs.opened hd
      refine (hs.trans hd (lowerBlock_builds hfn rest hopen h)).mono fun g ⟨hx, hy⟩ hg => ?_
      have hx := hx hg
      rw [hopen.exit] at hx
      exact hx.next (hy hg)

end

end Walk

end Parts

end BetLang.Control
