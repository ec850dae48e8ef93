import BetLang.CallStack
import BetLang.Parser

/-! The calls of the parser nest no deeper than its checks and its unchecked calls allow. -/

namespace BetLang.Parser

open Lexer (Token)
open Surface
open CallStack (Descends)

section Frames

/-- The functions that pass the depth check. -/
def Fn.checked : Fn → Bool
  | .parseType | .expr | .unaryExpr => true
  | _ => false

/-- The functions that calls come back to without a check. -/
def Fn.unchecked : Fn → Bool
  | .block | .copExpr => true
  | _ => false

def Fn.knotted (f : Fn) : Bool := f.checked || f.unchecked

/-- How far a function is from those that call no unknotted one. -/
def Fn.rank : Fn → Nat
  | .program => 4
  | .topItem => 3
  | .externDecl | .fnDecl => 2
  | .paramList | .dripDecl | .moodsDecl | .varDecl => 1
  | .parseType => 1
  | .block => 3
  | .stmt => 2
  | .frStmt | .vibinStmt | .squadStmt | .vibeStmt | .hollaStmt | .exprOrAssign => 1
  | .callArgs | .primary => 1
  | .copInit | .postfixExpr => 2
  | .copExpr | .unaryExprInner => 3
  | .unaryExpr => 4
  | .mulExpr => 1
  | .addExpr => 2
  | .shiftExpr => 3
  | .bitandExpr => 4
  | .bitxorExpr => 5
  | .bitorExpr => 6
  | .cmpExpr => 7
  | .andExpr => 8
  | .orExpr => 9
  | .expr => 10
  | _ => 0

theorem rank_le (f : Fn) : f.rank ≤ 10 := by cases f <;> decide

abbrev Goes (callee caller : Fn) : Prop := Descends Fn.knotted Fn.rank callee caller

/-- Of a call: the calls go down, no more than one check too many is open, and the counter is the
number of checked functions around. -/
structure Sane (c : Call) : Prop where
  chain : c.stack.IsChain Goes
  shallow : c.stack.countP Fn.checked ≤ maxDepth + 1
  counter : c.depth = c.stack.tail.countP Fn.checked

/-- The calls of which none is checked too deep. -/
def Shallow (calls : List Call) : Prop := ∀ c ∈ calls, c.stack.countP Fn.checked ≤ maxDepth

/-- In the body of a function. -/
structure Inside (f : Fn) (s : State) : Prop where
  top : s.stack.head? = some f
  chain : s.stack.IsChain Goes
  counter : s.depth = s.stack.countP Fn.checked
  limit : s.depth ≤ maxDepth
  sane : ∀ c ∈ s.calls, Sane c
  shallow : Shallow s.calls

/-- The counter and the frames are as before, and a call too deep is the error. -/
structure After {α : Type} (s : State) (r : Except Error α × State) : Prop where
  stack : r.2.stack = s.stack
  depth : r.2.depth = s.depth
  sane : ∀ c ∈ r.2.calls, Sane c
  shallow : Shallow r.2.calls ∨ r.1 = .error .tooDeep

/-- What a part of a function's body keeps. -/
def Sound {α : Type} (f : Fn) (m : P α) : Prop := ∀ s, Inside f s → After s (m s)

end Frames

section Rules

variable {α β σ : Type} {f t : Fn}

/-- A step that touches neither frames nor counter. -/
def Quiet (m : P α) : Prop :=
  ∀ s, (m s).2.stack = s.stack ∧ (m s).2.depth = s.depth ∧ (m s).2.calls = s.calls

theorem Sound.quiet {m : P α} (h : Quiet m) : Sound f m := by
  intro s hs
  obtain ⟨hstack, hdepth, hcalls⟩ := h s
  exact ⟨hstack, hdepth, hcalls ▸ hs.sane, .inl (hcalls ▸ hs.shallow)⟩

theorem Sound.pure (a : α) : Sound f (pure a) := .quiet fun _ => ⟨rfl, rfl, rfl⟩

theorem Sound.fail (e : Error) : Sound f (fail e : P α) := .quiet fun _ => ⟨rfl, rfl, rfl⟩

theorem bind_ok {m : P α} {g : α → P β} {s s' : State} {a : α} (h : m s = (.ok a, s')) :
    (m >>= g) s = g a s' := by
  have hbind : (m >>= g) s = P.bind m g s := rfl
  rw [hbind, P.bind, h]

theorem bind_error {m : P α} {g : α → P β} {s s' : State} {e : Error} (h : m s = (.error e, s')) :
    (m >>= g) s = (.error e, s') := by
  have hbind : (m >>= g) s = P.bind m g s := rfl
  rw [hbind, P.bind, h]

theorem Sound.bind {m : P α} {g : α → P β} (hm : Sound f m) (hg : ∀ a, Sound f (g a)) :
    Sound f (m >>= g) := by
  intro s hs
  have hfirst := hm s hs
  rcases hms : m s with ⟨r, s'⟩
  rw [hms] at hfirst
  cases r with
  | error e =>
    rw [bind_error hms]
    refine ⟨hfirst.stack, hfirst.depth, hfirst.sane, hfirst.shallow.imp id ?_⟩
    intro he
    cases he
    rfl
  | ok a =>
    rw [bind_ok hms]
    have hshallow : Shallow s'.calls := hfirst.shallow.resolve_right (by simp)
    have hinside : Inside f s' := by
      refine ⟨?_, ?_, ?_, ?_, hfirst.sane, hshallow⟩
      · rw [hfirst.stack]
        exact hs.top
      · rw [hfirst.stack]
        exact hs.chain
      · rw [hfirst.stack, hfirst.depth]
        exact hs.counter
      · rw [hfirst.depth]
        exact hs.limit
    have hsecond := hg a s' hinside
    exact ⟨hsecond.stack.trans hfirst.stack, hsecond.depth.trans hfirst.depth, hsecond.sane,
      hsecond.shallow⟩

theorem Sound.ite {b : Bool} {m n : P α} (hm : Sound f m) (hn : Sound f n) :
    Sound f (if b = true then m else n) := by
  cases b
  · exact hn
  · exact hm

/-- The frame of a call goes below the last. -/
theorem chain_push {s : State} (hs : Inside t s) (hd : Goes f t) :
    (f :: s.stack).IsChain Goes := by
  obtain ⟨rest, hrest⟩ : ∃ rest, s.stack = t :: rest := by
    have htop := hs.top
    cases hstack : s.stack with
    | nil => simp [hstack] at htop
    | cons g rest =>
      rw [hstack] at htop
      exact ⟨rest, by rw [Option.some.inj htop]⟩
  have hchain := hs.chain
  rw [hrest] at hchain ⊢
  exact List.isChain_cons_cons.mpr ⟨hd, hchain⟩

/-- A call without a check. -/
theorem Sound.call {m : P α} (hd : Goes f t) (hf : f.checked = false) (h : Sound f m) :
    Sound t (call f m) := by
  intro s hs
  have hcount : (f :: s.stack).countP Fn.checked = s.stack.countP Fn.checked :=
    List.countP_cons_of_neg (by simp [hf])
  have hcount_le : (f :: s.stack).countP Fn.checked ≤ maxDepth := by
    rw [hcount, ← hs.counter]
    exact hs.limit
  have hsane : Sane ⟨f :: s.stack, s.depth⟩ :=
    ⟨chain_push hs hd, Nat.le_succ_of_le hcount_le, hs.counter⟩
  have hbody := h { s with stack := f :: s.stack, calls := ⟨f :: s.stack, s.depth⟩ :: s.calls }
    { top := rfl
      chain := chain_push hs hd
      counter := hs.counter.trans hcount.symm
      limit := hs.limit
      sane := List.forall_mem_cons.mpr ⟨hsane, hs.sane⟩
      shallow := List.forall_mem_cons.mpr ⟨hcount_le, hs.shallow⟩ }
  exact ⟨rfl, hbody.depth, hbody.sane, hbody.shallow⟩

theorem guarded_deep {m : P α} {s : State} (h : s.depth + 1 > maxDepth) :
    guarded m s = (.error .tooDeep, s) := by
  have henter : enterDepth s = (.error .tooDeep, s) := by rw [enterDepth, if_pos h]
  rw [guarded, bind_error henter]

theorem guarded_run {m : P α} {s : State} (h : ¬ s.depth + 1 > maxDepth) :
    guarded m s = ((m { s with depth := s.depth + 1 }).1,
      { (m { s with depth := s.depth + 1 }).2 with
        depth := (m { s with depth := s.depth + 1 }).2.depth - 1 }) := by
  have henter : enterDepth s = (.ok (), { s with depth := s.depth + 1 }) := by
    rw [enterDepth, if_neg h]
  rw [guarded, bind_ok henter, exitDepth]

/-- A call with a check: the error when there are too many open. -/
theorem Sound.guardedCall {m : P α} (hf : f.checked = true) (h : Sound f m) :
    Sound t (Parser.call f (guarded m)) := by
  intro s hs
  have hd : Goes f t := .inl (by simp [Fn.knotted, hf])
  have hcount : (f :: s.stack).countP Fn.checked = s.stack.countP Fn.checked + 1 :=
    List.countP_cons_of_pos hf
  have hlimit := hs.limit
  have hcounter := hs.counter
  have hsane : Sane ⟨f :: s.stack, s.depth⟩ :=
    ⟨chain_push hs hd, by simp only [hcount]; omega, hcounter⟩
  have hcalls : ∀ c ∈ (⟨f :: s.stack, s.depth⟩ : Call) :: s.calls, Sane c :=
    List.forall_mem_cons.mpr ⟨hsane, hs.sane⟩
  let entered : State :=
    { s with stack := f :: s.stack, calls := ⟨f :: s.stack, s.depth⟩ :: s.calls }
  by_cases hdeep : s.depth + 1 > maxDepth
  · have hrun : guarded m entered = (.error .tooDeep, entered) := guarded_deep hdeep
    simp only [Parser.call]
    rw [hrun]
    exact ⟨rfl, rfl, hcalls, .inr rfl⟩
  · have hrun := guarded_run (m := m) (s := entered) hdeep
    have hbody := h { entered with depth := s.depth + 1 }
      { top := rfl
        chain := chain_push hs hd
        counter := by simp only [entered, hcount]; omega
        limit := by simp only; omega
        sane := hcalls
        shallow := List.forall_mem_cons.mpr ⟨by simp only [hcount]; omega, hs.shallow⟩ }
    simp only [Parser.call]
    rw [hrun]
    refine ⟨rfl, ?_, hbody.sane, hbody.shallow⟩
    have hdepth := hbody.depth
    simp only [entered] at hdepth ⊢
    omega

end Rules

section Cursor

variable {α σ : Type} {f : Fn}

theorem peek_sound : Sound f peek := .quiet fun _ => ⟨rfl, rfl, rfl⟩

theorem peek2_sound : Sound f peek2 := .quiet fun _ => ⟨rfl, rfl, rfl⟩

theorem advance_sound : Sound f advance := .quiet fun _ => ⟨rfl, rfl, rfl⟩

theorem check_sound (t : Token) : Sound f (check t) := .quiet fun _ => ⟨rfl, rfl, rfl⟩

theorem getNoStruct_sound : Sound f getNoStruct := .quiet fun _ => ⟨rfl, rfl, rfl⟩

theorem setNoStruct_sound (b : Bool) : Sound f (setNoStruct b) := .quiet fun _ => ⟨rfl, rfl, rfl⟩

theorem eat_sound (t : Token) : Sound f (eat t) :=
  .bind (check_sound t) fun _ => .ite (.bind advance_sound fun _ => .pure true) (.pure false)

theorem expect_sound (t : Token) : Sound f (expect t) :=
  .bind (eat_sound t) fun _ => .ite (.pure ()) (.bind peek_sound fun _ => .fail _)

theorem ident_sound : Sound f ident := by
  refine .bind peek_sound fun found => ?_
  split
  · exact .bind advance_sound fun _ => .pure _
  · exact .fail _

theorem strLit_sound : Sound f strLit := by
  refine .bind peek_sound fun found => ?_
  split
  · exact .bind advance_sound fun _ => .pure _
  · exact .fail _

theorem intLit_sound : Sound f intLit := by
  refine .bind peek_sound fun found => ?_
  split
  · exact .bind advance_sound fun _ => .pure _
  · exact .fail _

theorem withNoStruct_sound {b : Bool} {m : P α} (h : Sound f m) : Sound f (withNoStruct b m) := by
  intro s hs
  have hbody := h { s with noStruct := b }
    ⟨hs.top, hs.chain, hs.counter, hs.limit, hs.sane, hs.shallow⟩
  exact ⟨hbody.stack, hbody.depth, hbody.sane, hbody.shallow⟩

/-- A loop keeps what one round of it keeps. -/
theorem loop_sound {body : σ → P (σ ⊕ α)} (h : ∀ x, Sound f (body x)) (n : Nat) (x : σ) :
    Sound f (loop n body x) := by
  induction n generalizing x with
  | zero => exact .fail _
  | succ n ih =>
    refine .bind (h x) fun r => ?_
    cases r with
    | inl x => exact ih x
    | inr a => exact .pure a

theorem whileEat_sound (n : Nat) (t : Token) {m : P α} (h : Sound f m) (out : List α) :
    Sound f (whileEat n t m out) :=
  loop_sound (fun _ => .bind (eat_sound t) fun _ => .ite (.bind h fun _ => .pure _) (.pure _)) n out

theorem commaList_sound (n : Nat) {m : P α} (h : Sound f m) : Sound f (commaList n m) :=
  .bind h fun _ => whileEat_sound n _ h _

theorem skipSemis_sound (n : Nat) : Sound f (skipSemis n) :=
  loop_sound (fun _ =>
    .bind (check_sound _) fun _ => .ite (.bind advance_sound fun _ => .pure _) (.pure _)) n ()

theorem closing_sound : Sound f closing :=
  .bind (check_sound _) fun _ => .ite (.pure _) (.bind peek_sound fun _ => .pure _)

theorem untilBrace_sound (n : Nat) {m : P α} (h : Sound f m) : Sound f (untilBrace n m) :=
  loop_sound (fun _ =>
    .bind (skipSemis_sound n) fun _ =>
      .bind closing_sound fun _ => .ite (.pure _) (.bind h fun _ => .pure _)) n []

theorem opt_sound (t : Token) {m : P α} (h : Sound f m) : Sound f (opt t m) :=
  .bind (eat_sound t) fun _ => .ite (.bind h fun _ => .pure _) (.pure _)

end Cursor

/-- The knotted functions keep the counter and the frames wherever they are called. -/
structure Knot.Sound (k : Knot) : Prop where
  parseType : ∀ f, Parser.Sound f k.parseType
  expr : ∀ f, Parser.Sound f k.expr
  unaryExpr : ∀ f, Parser.Sound f k.unaryExpr
  copExpr : ∀ f, Parser.Sound f k.copExpr
  block : ∀ f, Parser.Sound f k.block

section Functions

variable {k : Knot} {f : Fn}

theorem dotted_sound (name : String) : Sound f (dotted name) :=
  .bind (opt_sound _ ident_sound) fun _ => .pure _

theorem nextIsInt_sound : Sound f nextIsInt := by
  refine .bind peek2_sound fun found => ?_
  split <;> exact .pure _

theorem arraySize_sound : Sound f arraySize := .bind intLit_sound fun _ => .pure _

theorem dimensions_sound (ty : Ty String) : Sound f (dimensions k ty) :=
  loop_sound (fun _ =>
    .bind (check_sound _) fun _ =>
      .bind nextIsInt_sound fun _ =>
        .ite (.bind advance_sound fun _ =>
          .bind arraySize_sound fun _ => .bind (expect_sound _) fun _ => .pure _) (.pure _)) _ ty

variable (hk : k.Sound)

include hk

section Types

theorem typeParams_sound : Sound f (typeParams k) :=
  .bind (check_sound _) fun _ => .ite (.pure _) (commaList_sound _ (hk.parseType f))

theorem finnaType_sound : Sound f (finnaType k) :=
  .bind (expect_sound _) fun _ =>
    .bind (typeParams_sound hk) fun _ =>
      .bind (expect_sound _) fun _ =>
        .bind (expect_sound _) fun _ => .bind (hk.parseType f) fun _ => .pure _

theorem typeGenerics_sound : Sound f (typeGenerics k) :=
  .bind (check_sound _) fun _ =>
    .bind nextIsInt_sound fun _ =>
      .ite (.bind advance_sound fun _ =>
        .bind (commaList_sound _ (hk.parseType f)) fun _ =>
          .bind (expect_sound _) fun _ => .pure _) (.pure _)

theorem namedType_sound : Sound f (namedType k) := by
  refine .bind ident_sound fun name => ?_
  split
  · exact dimensions_sound _
  · exact .bind (dotted_sound name) fun _ =>
      .bind (typeGenerics_sound hk) fun _ => dimensions_sound _

theorem parseTypeInner_sound (hf : Fn.parseTypeInner.rank < f.rank) :
    Sound f (parseTypeInner k) := by
  have inner (g : Ty String → Ty String) :
      Sound .parseTypeInner (do pure (g (← k.parseType)) : P (Ty String)) :=
    .bind (hk.parseType _) fun _ => .pure _
  refine .call (.inr hf) rfl (.bind (check_sound _) fun _ => .ite ?_ ?_)
  · exact .bind advance_sound fun _ => .bind (expect_sound _) fun _ => inner _
  refine .bind (eat_sound _) fun _ => .ite (inner _) ?_
  refine .bind (eat_sound _) fun _ => .ite (inner _) ?_
  refine .bind (eat_sound _) fun _ => .ite (inner _) ?_
  exact .bind (eat_sound _) fun _ => .ite (finnaType_sound hk) (namedType_sound hk)

theorem parseType_sound : Sound f (parseType k) :=
  .guardedCall rfl (parseTypeInner_sound hk (by decide))

end Types

section Expressions

theorem exprList_sound (hf : Fn.exprList.rank < f.rank) : Sound f (exprList k) :=
  .call (.inr hf) rfl (commaList_sound _ (hk.expr _))

theorem exprHeader_sound (hf : Fn.exprHeader.rank < f.rank) : Sound f (exprHeader k) :=
  .call (.inr hf) rfl (withNoStruct_sound (hk.expr _))

theorem fullExpr_sound (hf : Fn.fullExpr.rank < f.rank) : Sound f (fullExpr k) :=
  .call (.inr hf) rfl (withNoStruct_sound (hk.expr _))

omit hk in
theorem looksGeneric_sound : Sound f looksGeneric := by
  refine .bind (.quiet fun _ => ⟨rfl, rfl, rfl⟩) fun found => ?_
  split
  · exact .pure _
  · exact .bind getNoStruct_sound fun _ => .pure _
  · exact .pure _

theorem maybeGenericArgs_sound (hf : Fn.maybeGenericArgs.rank < f.rank) :
    Sound f (maybeGenericArgs k) := by
  refine .call (.inr hf) rfl (.bind (check_sound _) fun _ => .ite ?_ (.pure _))
  refine .bind looksGeneric_sound fun _ => .ite ?_ (.pure _)
  exact .bind advance_sound fun _ =>
    .bind (commaList_sound _ (hk.parseType _)) fun _ => .bind (expect_sound _) fun _ => .pure _

theorem fieldInit_sound : Sound f (fieldInit k) :=
  .bind ident_sound fun _ =>
    .bind (expect_sound _) fun _ =>
      .bind (hk.expr f) fun _ =>
        .bind (skipSemis_sound _) fun _ =>
          .bind (eat_sound _) fun _ => .ite (.pure _) (.bind (skipSemis_sound _) fun _ => .pure _)

theorem structLitBody_sound (hf : Fn.structLitBody.rank < f.rank) (name : Path String)
    (generics : List (Ty String)) : Sound f (structLitBody k name generics) :=
  .call (.inr hf) rfl (.bind getNoStruct_sound fun _ =>
    .bind (setNoStruct_sound _) fun _ =>
      .bind (expect_sound _) fun _ =>
        .bind (untilBrace_sound _ (fieldInit_sound hk)) fun _ =>
          .bind (expect_sound _) fun _ => .bind (setNoStruct_sound _) fun _ => .pure _)

omit hk in
theorem trailingList_sound {α : Type} (close : Token) {m : P α} (h : Sound f m) :
    Sound f (trailingList k close m) := by
  refine .bind (check_sound _) fun _ => .ite (.pure _) (.bind h fun _ => ?_)
  refine loop_sound (fun _ => .bind (eat_sound _) fun _ => .ite ?_ (.pure _)) _ _
  exact .bind (check_sound _) fun _ => .ite (.pure _) (.bind h fun _ => .pure _)

theorem arrayLit_sound (hf : Fn.arrayLit.rank < f.rank) : Sound f (arrayLit k) :=
  .call (.inr hf) rfl (.bind getNoStruct_sound fun _ =>
    .bind (setNoStruct_sound _) fun _ =>
      .bind (expect_sound _) fun _ =>
        .bind (trailingList_sound _ (hk.expr _)) fun _ =>
          .bind (expect_sound _) fun _ => .bind (setNoStruct_sound _) fun _ => .pure _)

omit hk in
theorem label_sound : Sound f label := by
  refine .bind peek_sound fun found => .bind peek2_sound fun next => ?_
  split
  · exact .bind advance_sound fun _ => .bind advance_sound fun _ => .pure _
  · exact .bind advance_sound fun _ => .bind advance_sound fun _ => .pure _
  · exact .pure _

theorem arg_sound (hf : Fn.arg.rank < f.rank) : Sound f (arg k) :=
  .call (.inr hf) rfl (.bind label_sound fun _ => .bind (hk.expr _) fun _ => .pure _)

theorem callArgs_sound (hf : Fn.callArgs.rank < f.rank) : Sound f (callArgs k) :=
  .call (.inr hf) rfl (.bind getNoStruct_sound fun _ =>
    .bind (setNoStruct_sound _) fun _ =>
      .bind (expect_sound _) fun _ =>
        .bind (trailingList_sound _ (arg_sound hk (by decide))) fun _ =>
          .bind (expect_sound _) fun _ => .bind (setNoStruct_sound _) fun _ => .pure _)

theorem operand_sound : Sound .primary (operand k) := by
  refine .bind peek_sound fun found => ?_
  split
  · exact hk.copExpr _
  · exact .bind advance_sound fun _ =>
      .bind (fullExpr_sound hk (by decide)) fun _ => .bind (expect_sound _) fun _ => .pure _
  · exact arrayLit_sound hk (by decide)
  · refine .bind advance_sound fun _ => .bind (maybeGenericArgs_sound hk (by decide)) fun _ => ?_
    refine .bind getNoStruct_sound fun _ => .bind (check_sound _) fun _ => .ite ?_ (.pure _)
    exact .bind (structLitBody_sound hk (by decide) _ _) fun _ => .pure _
  · exact .fail _

theorem primary_sound (hf : Fn.primary.rank < f.rank) : Sound f (primary k) := by
  refine .call (.inr hf) rfl (.bind peek_sound fun found => ?_)
  split
  · exact .bind advance_sound fun _ => .pure _
  · exact operand_sound hk

theorem trustTail_sound (hf : Fn.primary.rank < f.rank) (e : PExpr) : Sound f (trustTail k e) :=
  .bind (expect_sound _) fun _ =>
    .bind (expect_sound _) fun _ =>
      .bind (expect_sound _) fun _ => .bind (primary_sound hk hf) fun _ => .pure _

theorem memberTail_sound (hf : Fn.callArgs.rank < f.rank) (e : PExpr) :
    Sound f (memberTail k e) := by
  have hzero : 0 < f.rank := Nat.lt_trans Nat.zero_lt_one hf
  refine .bind ident_sound fun _ => .bind (maybeGenericArgs_sound hk hzero) fun _ => ?_
  refine .bind (check_sound _) fun _ => .ite (.bind (callArgs_sound hk hf) fun _ => .pure _) ?_
  refine .bind getNoStruct_sound fun _ => .bind (check_sound _) fun _ => .ite ?_ (.pure _)
  split
  · exact .bind (structLitBody_sound hk hzero _ _) fun _ => .pure _
  · exact .pure _

theorem postfixStep_sound (hf : Fn.callArgs.rank < f.rank) (e : PExpr) :
    Sound f (postfixStep k e) := by
  refine .bind peek_sound fun found => ?_
  split
  · refine .bind advance_sound fun _ => .bind (eat_sound _) fun _ => .ite ?_ ?_
    · exact .bind (trustTail_sound hk hf e) fun _ => .pure _
    · exact .bind (memberTail_sound hk hf e) fun _ => .pure _
  · exact .bind (callArgs_sound hk hf) fun _ => .pure _
  · exact .bind advance_sound fun _ =>
      .bind (fullExpr_sound hk (Nat.lt_trans Nat.zero_lt_one hf)) fun _ =>
        .bind (expect_sound _) fun _ => .pure _
  · exact .pure _

theorem postfixExpr_sound (hf : Fn.postfixExpr.rank < f.rank) : Sound f (postfixExpr k) :=
  .call (.inr hf) rfl (.bind (primary_sound hk (by decide)) fun e =>
    loop_sound (postfixStep_sound hk (by decide)) _ e)

omit hk in
theorem copName_sound : Sound f copName := by
  refine .bind ident_sound fun _ => .bind peek_sound fun _ => .bind peek2_sound fun _ => ?_
  split
  · exact .bind advance_sound fun _ => .bind advance_sound fun _ => .pure _
  · exact .pure _

theorem copInit_sound (hf : Fn.copInit.rank < f.rank) : Sound f (copInit k) := by
  refine .call (.inr hf) rfl (.bind copName_sound fun _ => ?_)
  refine .bind (maybeGenericArgs_sound hk (by decide)) fun _ => ?_
  refine .bind (check_sound _) fun _ => .ite ?_ ?_
  · exact .bind (structLitBody_sound hk (by decide) _ _) fun _ => .pure _
  · exact .bind (check_sound _) fun _ =>
      .ite (.bind (callArgs_sound hk (by decide)) fun _ => .pure _) (.pure _)

theorem copExpr_sound : Sound f (copExpr k) :=
  .call (.inl rfl) rfl (.bind (expect_sound _) fun _ =>
    .bind (copInit_sound hk (by decide)) fun _ =>
      .bind (expect_sound _) fun _ =>
        .bind (postfixExpr_sound hk (by decide)) fun _ => .pure _)

theorem unaryExprInner_sound (hf : Fn.unaryExprInner.rank < f.rank) :
    Sound f (unaryExprInner k) := by
  refine .call (.inr hf) rfl (.bind peek_sound fun found => ?_)
  split
  · exact .bind advance_sound fun _ => .bind (hk.unaryExpr _) fun _ => .pure _
  · exact postfixExpr_sound hk (by decide)

theorem unaryExpr_sound : Sound f (unaryExpr k) :=
  .guardedCall rfl (unaryExprInner_sound hk (by decide))

theorem castExpr_sound (hf : Fn.castExpr.rank < f.rank) : Sound f (castExpr k) :=
  .call (.inr hf) rfl (.bind (hk.unaryExpr _) fun e =>
    loop_sound (fun _ => .bind (eat_sound _) fun _ =>
      .ite (.bind (hk.parseType _) fun _ => .pure _) (.pure _)) _ e)

omit hk in
/-- A level of the ladder above one that is sound in it. -/
theorem ladder_sound {g : Fn} {op : Option Token → Option BinOp} {below : P PExpr}
    (hg : g.checked = false) (hf : g.rank < f.rank) (h : Sound g below) :
    Sound f (ladder k g op below) := by
  refine .call (.inr hf) hg (.bind h fun lhs => loop_sound (fun _ => ?_) _ lhs)
  refine .bind peek_sound fun found => ?_
  split
  · exact .bind advance_sound fun _ => .bind h fun _ => .pure _
  · exact .pure _

theorem orExpr_sound (hf : Fn.orExpr.rank < f.rank) : Sound f (orExpr k) := by
  have hmul : Sound .addExpr (mulExpr k) :=
    ladder_sound rfl (by decide) (castExpr_sound hk (by decide))
  have hadd : Sound .shiftExpr (addExpr k) := ladder_sound rfl (by decide) hmul
  have hshift : Sound .bitandExpr (shiftExpr k) := ladder_sound rfl (by decide) hadd
  have hbitand : Sound .bitxorExpr (bitandExpr k) := ladder_sound rfl (by decide) hshift
  have hbitxor : Sound .bitorExpr (bitxorExpr k) := ladder_sound rfl (by decide) hbitand
  have hbitor : Sound .cmpExpr (bitorExpr k) := ladder_sound rfl (by decide) hbitxor
  have hcmp : Sound .andExpr (cmpExpr k) := ladder_sound rfl (by decide) hbitor
  have hand : Sound .orExpr (andExpr k) := ladder_sound rfl (by decide) hcmp
  exact ladder_sound rfl hf hand

theorem expr_sound : Sound f (expr k) := .guardedCall rfl (orExpr_sound hk (by decide))

end Expressions

section Statements

theorem optType_sound : Sound f (optType k) := opt_sound _ (hk.parseType f)

theorem cribDecl_sound (hf : Fn.cribDecl.rank < f.rank) (vis : Vis) : Sound f (cribDecl k vis) :=
  .call (.inr hf) rfl (.bind (expect_sound _) fun _ =>
    .bind ident_sound fun _ => .bind (optType_sound hk) fun _ => .pure _)

theorem constDecl_sound (hf : Fn.constDecl.rank < f.rank) (vis : Vis) :
    Sound f (constDecl k vis) :=
  .call (.inr hf) rfl (.bind (expect_sound _) fun _ =>
    .bind ident_sound fun _ =>
      .bind (optType_sound hk) fun _ =>
        .bind (expect_sound _) fun _ => .bind (hk.expr _) fun _ => .pure _)

theorem varDecl_sound (hf : Fn.varDecl.rank < f.rank) (vis : Vis) : Sound f (varDecl k vis) :=
  .call (.inr hf) rfl (.bind (expect_sound _) fun _ =>
    .bind ident_sound fun _ =>
      .bind (whileEat_sound _ _ ident_sound _) fun _ =>
        .bind (optType_sound hk) fun _ =>
          .bind (expect_sound _) fun _ =>
            .bind (exprList_sound hk (by decide)) fun _ => .pure _)

theorem nawBranches_sound (hf : 0 < f.rank) : Sound f (nawBranches k) := by
  refine loop_sound (fun _ => .bind (eat_sound _) fun _ => .ite ?_ (.pure _)) _ _
  refine .bind (eat_sound _) fun _ => .ite ?_ (.bind (hk.block f) fun _ => .pure _)
  exact .bind (exprHeader_sound hk hf) fun _ => .bind (hk.block f) fun _ => .pure _

theorem frStmt_sound (hf : Fn.frStmt.rank < f.rank) : Sound f (frStmt k) :=
  .call (.inr hf) rfl (.bind (expect_sound _) fun _ =>
    .bind (exprHeader_sound hk (by decide)) fun _ =>
      .bind (hk.block _) fun _ => .bind (nawBranches_sound hk (by decide)) fun _ => .pure _)

theorem vibinStmt_sound (hf : Fn.vibinStmt.rank < f.rank) : Sound f (vibinStmt k) :=
  .call (.inr hf) rfl (.bind (expect_sound _) fun _ =>
    .bind (exprHeader_sound hk (by decide)) fun _ => .bind (hk.block _) fun _ => .pure _)

theorem squadStmt_sound (hf : Fn.squadStmt.rank < f.rank) : Sound f (squadStmt k) :=
  .call (.inr hf) rfl (.bind (expect_sound _) fun _ =>
    .bind ident_sound fun _ =>
      .bind (expect_sound _) fun _ =>
        .bind (exprHeader_sound hk (by decide)) fun _ => .bind (hk.block _) fun _ => .pure _)

omit hk in
theorem bindings_sound : Sound f (bindings k) :=
  .bind (eat_sound _) fun _ =>
    .ite (.bind (commaList_sound _ ident_sound) fun _ =>
      .bind (expect_sound _) fun _ => .pure _) (.pure _)

theorem matchArm_sound (hf : Fn.matchArm.rank < f.rank) : Sound f (matchArm k) :=
  .call (.inr hf) rfl (.bind ident_sound fun name =>
    .bind (dotted_sound name) fun _ =>
      .bind bindings_sound fun _ => .bind (hk.block _) fun _ => .pure _)

theorem vibeArms_sound (hf : Fn.matchArm.rank < f.rank) : Sound f (vibeArms k) := by
  refine loop_sound (fun _ => .bind (skipSemis_sound _) fun _ => ?_) _ _
  refine .bind closing_sound fun _ => .ite (.pure _) (.bind (eat_sound _) fun _ => .ite ?_ ?_)
  · exact .bind (hk.block f) fun _ => .bind (skipSemis_sound _) fun _ => .pure _
  · exact .bind (matchArm_sound hk hf) fun _ => .pure _

theorem vibeStmt_sound (hf : Fn.vibeStmt.rank < f.rank) : Sound f (vibeStmt k) :=
  .call (.inr hf) rfl (.bind (expect_sound _) fun _ =>
    .bind (exprHeader_sound hk (by decide)) fun _ =>
      .bind (expect_sound _) fun _ =>
        .bind (vibeArms_sound hk (by decide)) fun _ => .bind (expect_sound _) fun _ => .pure _)

theorem hollaStmt_sound (hf : Fn.hollaStmt.rank < f.rank) : Sound f (hollaStmt k) :=
  .call (.inr hf) rfl (.bind (expect_sound _) fun _ =>
    .bind ident_sound fun _ =>
      .bind (expect_sound _) fun _ =>
        .bind (hk.expr _) fun _ =>
          .bind (expect_sound _) fun _ =>
            .bind (exprHeader_sound hk (by decide)) fun _ =>
              .bind (hk.block _) fun _ =>
                .bind (expect_sound _) fun _ => .bind (hk.block _) fun _ => .pure _)

theorem recovery_sound : Sound f (recovery k) :=
  .bind ident_sound fun _ => .bind (hk.block f) fun _ => .pure _

theorem sheeshStmt_sound (hf : Fn.sheeshStmt.rank < f.rank) : Sound f (sheeshStmt k) :=
  .call (.inr hf) rfl (.bind (expect_sound _) fun _ =>
    .bind (hk.block _) fun _ => .bind (opt_sound _ (recovery_sound hk)) fun _ => .pure _)

theorem exprOrAssign_sound (hf : Fn.exprOrAssign.rank < f.rank) : Sound f (exprOrAssign k) := by
  refine .call (.inr hf) rfl (.bind (hk.expr _) fun _ => ?_)
  refine .bind (check_sound _) fun _ => .bind peek_sound fun _ => .ite ?_ (.pure _)
  refine .bind (whileEat_sound _ _ (hk.expr _) _) fun _ => .bind peek_sound fun _ => ?_
  split
  · exact .bind advance_sound fun _ => .bind (exprList_sound hk (by decide)) fun _ => .pure _
  · exact .bind peek_sound fun _ => .fail _

omit hk in
theorem stmtEnds_sound : Sound f stmtEnds := by
  refine .bind peek_sound fun found => ?_
  split <;> exact .pure _

theorem evictStmt_sound : Sound f (evictStmt k) :=
  .bind advance_sound fun _ =>
    .bind (hk.expr f) fun _ =>
      .bind (eat_sound _) fun _ => .ite (.bind (hk.expr f) fun _ => .pure _) (.pure _)

theorem betStmt_sound (hf : Fn.exprList.rank < f.rank) : Sound f (betStmt k) :=
  .bind advance_sound fun _ =>
    .bind stmtEnds_sound fun _ =>
      .ite (.pure _) (.bind (exprList_sound hk hf) fun _ => .pure _)

theorem yeetStmt_sound : Sound f (yeetStmt k) :=
  .bind advance_sound fun _ =>
    .bind (expect_sound _) fun _ =>
      .bind (hk.expr f) fun _ => .bind (expect_sound _) fun _ => .pure _

theorem stmt_sound (hf : Fn.stmt.rank < f.rank) : Sound f (stmt k) := by
  refine .call (.inr hf) rfl (.bind peek_sound fun found => ?_)
  split
  · exact .bind (varDecl_sound hk (by decide) _) fun _ => .pure _
  · exact .bind (constDecl_sound hk (by decide) _) fun _ => .pure _
  · exact .bind (cribDecl_sound hk (by decide) _) fun _ => .pure _
  · exact frStmt_sound hk (by decide)
  · exact vibinStmt_sound hk (by decide)
  · exact squadStmt_sound hk (by decide)
  · exact vibeStmt_sound hk (by decide)
  · exact hollaStmt_sound hk (by decide)
  · exact sheeshStmt_sound hk (by decide)
  · exact evictStmt_sound hk
  · exact .bind advance_sound fun _ => .bind (hk.expr _) fun _ => .pure _
  · exact betStmt_sound hk (by decide)
  · exact .bind advance_sound fun _ => .bind (hk.expr _) fun _ => .pure _
  · exact yeetStmt_sound hk
  · exact .bind advance_sound fun _ => .pure _
  · exact .bind advance_sound fun _ => .pure _
  · exact exprOrAssign_sound hk (by decide)

theorem block_sound : Sound f (block k) :=
  .call (.inl rfl) rfl (.bind (expect_sound _) fun _ =>
    .bind (untilBrace_sound _ (stmt_sound hk (by decide))) fun _ =>
      .bind (expect_sound _) fun _ => .pure _)

end Statements

section Items

omit hk in
theorem pullItem_sound (hf : Fn.pull.rank < f.rank) : Sound f pullItem :=
  .call (.inr hf) rfl (.bind (expect_sound _) fun _ =>
    .bind strLit_sound fun _ => .bind (opt_sound _ ident_sound) fun _ => .pure _)

theorem param_sound (hf : Fn.param.rank < f.rank) : Sound f (param k) :=
  .call (.inr hf) rfl (.bind ident_sound fun _ =>
    .bind (expect_sound _) fun _ => .bind (hk.parseType _) fun _ => .pure _)

theorem paramList_sound (hf : Fn.paramList.rank < f.rank) : Sound f (paramList k) :=
  .call (.inr hf) rfl (.bind (expect_sound _) fun _ => .bind (check_sound _) fun _ =>
    .ite (.bind (expect_sound _) fun _ => .pure _)
      (.bind (commaList_sound _ (param_sound hk (by decide))) fun _ =>
        .bind (expect_sound _) fun _ => .pure _))

theorem receiver_sound (hf : Fn.receiver.rank < f.rank) : Sound f (receiver k) :=
  .call (.inr hf) rfl (.bind (expect_sound _) fun _ =>
    .bind ident_sound fun _ =>
      .bind (expect_sound _) fun _ =>
        .bind (hk.parseType _) fun _ => .bind (expect_sound _) fun _ => .pure _)

omit hk in
theorem genericParams_sound (hf : Fn.genericParams.rank < f.rank) : Sound f (genericParams k) :=
  .call (.inr hf) rfl (.bind (eat_sound _) fun _ =>
    .ite (.bind (commaList_sound _ ident_sound) fun _ =>
      .bind (expect_sound _) fun _ => .pure _) (.pure _))

theorem optRet_sound (hf : Fn.optRet.rank < f.rank) : Sound f (optRet k) := by
  refine .call (.inr hf) rfl (.bind (eat_sound _) fun _ => .ite ?_ (.pure _))
  refine .bind (eat_sound _) fun _ => .ite ?_ (.bind (hk.parseType _) fun _ => .pure _)
  exact .bind (commaList_sound _ (hk.parseType _)) fun _ => .bind (expect_sound _) fun _ => .pure _

theorem optRetSingle_sound (hf : Fn.optRetSingle.rank < f.rank) : Sound f (optRetSingle k) :=
  .call (.inr hf) rfl (.bind (eat_sound _) fun _ =>
    .ite (.bind (hk.parseType _) fun _ => .pure _) (.pure _))

theorem externDecl_sound (hf : Fn.externDecl.rank < f.rank) : Sound f (externDecl k) :=
  .call (.inr hf) rfl (.bind (expect_sound _) fun _ =>
    .bind strLit_sound fun _ =>
      .bind (expect_sound _) fun _ =>
        .bind ident_sound fun _ =>
          .bind (paramList_sound hk (by decide)) fun _ =>
            .bind (optRetSingle_sound hk (by decide)) fun _ => .pure _)

theorem fnDecl_sound (hf : Fn.fnDecl.rank < f.rank) (vis : Vis) : Sound f (fnDecl k vis) := by
  have hreceiver : Sound .fnDecl (optReceiver k) :=
    .bind (check_sound _) fun _ =>
      .ite (.bind (receiver_sound hk (by decide)) fun _ => .pure _) (.pure _)
  exact .call (.inr hf) rfl (.bind (expect_sound _) fun _ =>
    .bind hreceiver fun _ =>
      .bind ident_sound fun _ =>
        .bind (genericParams_sound (by decide)) fun _ =>
          .bind (paramList_sound hk (by decide)) fun _ =>
            .bind (optRet_sound hk (by decide)) fun _ => .bind (hk.block _) fun _ => .pure _)

omit hk in
theorem separated_sound {α : Type} {m : P α} (h : Sound f m) : Sound f (separated k m) :=
  .bind h fun _ => .bind (skipSemis_sound _) fun _ => .bind (eat_sound _) fun _ => .pure _

theorem fieldDecl_sound (hf : Fn.fieldDecl.rank < f.rank) : Sound f (fieldDecl k) := by
  have hvis : Sound .fieldDecl fieldVis :=
    .bind (eat_sound _) fun _ =>
      .ite (.pure _) (.bind (eat_sound _) fun _ => .ite (.pure _) (.pure _))
  exact .call (.inr hf) rfl (.bind hvis fun _ =>
    .bind ident_sound fun _ =>
      .bind (expect_sound _) fun _ => .bind (hk.parseType _) fun _ => .pure _)

theorem dripDecl_sound (hf : Fn.dripDecl.rank < f.rank) (vis : Vis) : Sound f (dripDecl k vis) :=
  .call (.inr hf) rfl (.bind (expect_sound _) fun _ =>
    .bind ident_sound fun _ =>
      .bind (genericParams_sound (by decide)) fun _ =>
        .bind (expect_sound _) fun _ =>
          .bind (untilBrace_sound _ (separated_sound (fieldDecl_sound hk (by decide)))) fun _ =>
            .bind (expect_sound _) fun _ => .pure _)

theorem variant_sound (hf : Fn.variant.rank < f.rank) : Sound f (variant k) := by
  have hpayload : Sound .variant (payload k) :=
    .bind (eat_sound _) fun _ =>
      .ite (.bind (commaList_sound _ (hk.parseType _)) fun _ =>
        .bind (expect_sound _) fun _ => .pure _) (.pure _)
  exact .call (.inr hf) rfl (.bind ident_sound fun _ => .bind hpayload fun _ => .pure _)

theorem moodsDecl_sound (hf : Fn.moodsDecl.rank < f.rank) (vis : Vis) :
    Sound f (moodsDecl k vis) :=
  .call (.inr hf) rfl (.bind (expect_sound _) fun _ =>
    .bind ident_sound fun _ =>
      .bind (genericParams_sound (by decide)) fun _ =>
        .bind (expect_sound _) fun _ =>
          .bind (untilBrace_sound _ (separated_sound (variant_sound hk (by decide)))) fun _ =>
            .bind (expect_sound _) fun _ => .pure _)

omit hk in
theorem itemVis_sound : Sound f itemVis :=
  .bind (eat_sound _) fun _ => .ite (.pure _) (.pure _)

theorem topItem_sound (hf : Fn.topItem.rank < f.rank) : Sound f (topItem k) := by
  have hexported (vis : Vis) : Sound .topItem (exported k vis) := by
    refine .bind peek_sound fun found => ?_
    split
    · exact .bind (fnDecl_sound hk (by decide) vis) fun _ => .pure _
    · exact .bind (dripDecl_sound hk (by decide) vis) fun _ => .pure _
    · exact .bind (moodsDecl_sound hk (by decide) vis) fun _ => .pure _
    · exact .bind (cribDecl_sound hk (by decide) vis) fun _ => .pure _
    · exact .bind (constDecl_sound hk (by decide) vis) fun _ => .pure _
    · exact .bind (varDecl_sound hk (by decide) vis) fun _ => .pure _
    · exact .fail _
  refine .call (.inr hf) rfl (.bind (check_sound _) fun _ => .ite ?_ ?_)
  · exact .bind (pullItem_sound (by decide)) fun _ => .pure _
  refine .bind (check_sound _) fun _ => .ite ?_ ?_
  · exact .bind (externDecl_sound hk (by decide)) fun _ => .pure _
  · exact .bind itemVis_sound hexported

end Items

end Functions

end BetLang.Parser
