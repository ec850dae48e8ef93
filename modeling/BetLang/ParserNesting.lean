import BetLang.ParserDepth
import Mathlib.Data.Set.Basic

/-! How deep the calls of the parser nest on a token stream. -/

namespace BetLang.Parser

open Lexer (Token)
open Surface

section Bound

theorem knot_sound (n : Nat) : (knot n).Sound := by
  induction n with
  | zero =>
    exact ⟨fun _ => .fail _, fun _ => .fail _, fun _ => .fail _, fun _ => .fail _, fun _ => .fail _⟩
  | succ n ih =>
    exact ⟨fun _ => parseType_sound ih, fun _ => expr_sound ih, fun _ => unaryExpr_sound ih,
      fun _ => copExpr_sound ih, fun _ => block_sound ih⟩

/-- The state in which the body of `program` starts. -/
def started (toks : List Token) : State :=
  { initial toks with stack := [.program], calls := [⟨[.program], 0⟩] }

def items (fuel : Nat) : P (Program String String) := do
  let items ← loop (knot fuel).fuel (fun out => do
    skipSemis (knot fuel).fuel
    if (← peek).isNone then pure (.inr out)
    else do pure (.inl (out ++ [← topItem (knot fuel)]))) []
  pure ⟨items⟩

theorem parse_eq (fuel : Nat) (toks : List Token) : parse fuel toks =
    ((items fuel (started toks)).1, { (items fuel (started toks)).2 with stack := [] }) := rfl

theorem items_sound (fuel : Nat) : Sound .program (items fuel) := by
  have hk := knot_sound fuel
  refine .bind (loop_sound (fun out => .bind (skipSemis_sound _) fun _ => ?_) _ _) fun _ => .pure _
  exact .bind peek_sound fun _ =>
    .ite (.pure _) (.bind (topItem_sound hk (by decide)) fun _ => .pure _)

theorem started_inside (toks : List Token) : Inside .program (started toks) where
  top := rfl
  chain := List.isChain_singleton _
  counter := rfl
  limit := Nat.zero_le _
  sane := by
    intro c hc
    rw [List.mem_singleton.mp hc]
    exact ⟨List.isChain_singleton _, Nat.zero_le _, rfl⟩
  shallow := by
    intro c hc
    rw [List.mem_singleton.mp hc]
    exact Nat.zero_le _

/-- Whatever the tokens, the counter is right at every call, goes back to zero, and a check too
deep is the error of the parse. -/
theorem parse_after (fuel : Nat) (toks : List Token) : (parse fuel toks).2.depth = 0 ∧
    (∀ c ∈ (parse fuel toks).2.calls, Sane c) ∧
    (Shallow (parse fuel toks).2.calls ∨ (parse fuel toks).1 = .error .tooDeep) := by
  have hafter := items_sound fuel (started toks) (started_inside toks)
  rw [parse_eq]
  exact ⟨hafter.depth, hafter.sane, hafter.shallow⟩

/-- The checked and the unchecked calls that are open bound the nesting. -/
theorem Sane.length_le {c : Call} (h : Sane c) :
    c.stack.length ≤ 11 * (maxDepth + 2 + c.stack.countP Fn.unchecked) := by
  have hlen := CallStack.length_le rank_le h.chain
  have hknotted : c.stack.countP Fn.knotted ≤
      c.stack.countP Fn.checked + c.stack.countP Fn.unchecked := by
    induction c.stack with
    | nil => simp
    | cons f stack ih =>
      by_cases hc : f.checked = true <;> by_cases hu : f.unchecked = true <;>
        simp [Fn.knotted, hc, hu] <;> omega
  have hshallow := h.shallow
  omega

end Bound

section Nested

variable {α β : Type} {f : Fn} {s : State} {t : Token}

theorem check_hit (h : s.toks[s.pos]? = some t) : check t s = (.ok true, s) := by
  simp [check, h]

theorem check_miss (h : s.toks[s.pos]? ≠ some t) : check t s = (.ok false, s) := by
  simp [check, h]

theorem peek_hit (h : s.toks[s.pos]? = some t) : peek s = (.ok (some t), s) := by
  simp [peek, h]

theorem eat_hit (h : s.toks[s.pos]? = some t) :
    eat t s = (.ok true, { s with pos := s.pos + 1 }) := by
  rw [eat, bind_ok (check_hit h)]
  rfl

theorem eat_miss (h : s.toks[s.pos]? ≠ some t) : eat t s = (.ok false, s) := by
  rw [eat, bind_ok (check_miss h)]
  rfl

theorem expect_hit (h : s.toks[s.pos]? = some t) :
    expect t s = (.ok (), { s with pos := s.pos + 1 }) := by
  rw [expect, bind_ok (eat_hit h)]
  rfl

theorem expect_miss (h : s.toks[s.pos]? ≠ some t) : ∃ e, expect t s = (.error e, s) := by
  refine ⟨.expected t s.toks[s.pos]?, ?_⟩
  rw [expect, bind_ok (eat_miss h)]
  rfl

theorem skipSemis_miss (n : Nat) (h : s.toks[s.pos]? ≠ some .semi) :
    skipSemis (n + 1) s = (.ok (), s) := by
  have hround : (do if ← check .semi then do advance; pure (.inl ()) else pure (.inr ()) :
      P (Unit ⊕ Unit)) s = (.ok (.inr ()), s) := by
    rw [bind_ok (check_miss h)]
    rfl
  rw [skipSemis, loop, bind_ok hround]
  rfl

/-- Before a token that is no brace. -/
theorem closing_miss {u : Token} (h : s.toks[s.pos]? = some u) (hu : u ≠ .rBrace) :
    closing s = (.ok false, s) := by
  have hmiss : s.toks[s.pos]? ≠ some .rBrace := by simpa [h] using hu
  rw [closing, bind_ok (check_miss hmiss)]
  simp only [Bool.false_eq_true, if_false]
  rw [bind_ok (peek_hit h)]
  rfl

theorem next_ne {u : Token} (h : s.toks[s.pos]? = some u) (hu : u ≠ t) :
    s.toks[s.pos]? ≠ some t := by
  rw [h]
  exact fun heq => hu (Option.some.inj heq)

theorem itemVis_miss (h : s.toks[s.pos]? ≠ some .flex) : itemVis s = (.ok .hush, s) := by
  rw [itemVis, bind_ok (eat_miss h)]
  rfl

theorem optReceiver_miss {k : Knot} (h : s.toks[s.pos]? ≠ some .lParen) :
    optReceiver k s = (.ok none, s) := by
  rw [optReceiver, bind_ok (check_miss h)]
  rfl

theorem ident_hit {name : String} (h : s.toks[s.pos]? = some (.ident name)) :
    ident s = (.ok name, { s with pos := s.pos + 1 }) := by
  rw [ident, bind_ok (peek_hit h)]
  rfl

theorem call_ok {m : P α} {a : α} (s' : State)
    (h : m { s with stack := f :: s.stack, calls := ⟨f :: s.stack, s.depth⟩ :: s.calls } =
      (.ok a, s')) : call f m s = (.ok a, { s' with stack := s.stack }) := by
  simp [call, h]

theorem genericParams_miss {k : Knot} (h : s.toks[s.pos]? ≠ some .lBracket) :
    ∃ calls, genericParams k s = (.ok [], { s with calls := calls }) := by
  let entered : State :=
    { s with stack := .genericParams :: s.stack,
             calls := ⟨.genericParams :: s.stack, s.depth⟩ :: s.calls }
  have hmiss : eat .lBracket entered = (.ok false, entered) := eat_miss h
  exact ⟨_, call_ok entered ((bind_ok hmiss).trans rfl)⟩

theorem optRet_miss {k : Knot} (h : s.toks[s.pos]? ≠ some .arrow) :
    ∃ calls, optRet k s = (.ok .none, { s with calls := calls }) := by
  let entered : State :=
    { s with stack := .optRet :: s.stack, calls := ⟨.optRet :: s.stack, s.depth⟩ :: s.calls }
  have hmiss : eat .arrow entered = (.ok false, entered) := eat_miss h
  exact ⟨_, call_ok entered ((bind_ok hmiss).trans rfl)⟩

theorem paramList_empty {k : Knot} (hopen : s.toks[s.pos]? = some .lParen)
    (hclose : s.toks[s.pos + 1]? = some .rParen) :
    ∃ calls, paramList k s = (.ok [], { s with pos := s.pos + 2, calls := calls }) := by
  let entered : State :=
    { s with stack := .paramList :: s.stack, calls := ⟨.paramList :: s.stack, s.depth⟩ :: s.calls }
  let opened : State := { entered with pos := s.pos + 1 }
  have hfirst : expect .lParen entered = (.ok (), opened) := expect_hit hopen
  have hempty : check .rParen opened = (.ok true, opened) := check_hit hclose
  have hlast : expect .rParen opened = (.ok (), { opened with pos := s.pos + 2 }) :=
    expect_hit hclose
  refine ⟨_, call_ok { opened with pos := s.pos + 2 } ((bind_ok hfirst).trans ?_)⟩
  exact (bind_ok hempty).trans ((bind_ok hlast).trans rfl)

theorem call_error {m : P α} {e : Error} {s' : State}
    (h : m { s with stack := f :: s.stack, calls := ⟨f :: s.stack, s.depth⟩ :: s.calls } =
      (.error e, s')) : call f m s = (.error e, { s' with stack := s.stack }) := by
  simp [call, h]

/-- The body of each block is a `sheesh` with the next. -/
def nestedBlocks (n : Nat) : List Token := (List.replicate n [Token.lBrace, Token.sheesh]).flatten

/-- Ends in an error below a call with so many functions running. -/
def FailsBelow (m : P α) (s : State) (n : Nat) : Prop :=
  ∃ e s', m s = (.error e, s') ∧ ∃ c ∈ s'.calls, n ≤ c.stack.length

theorem FailsBelow.mono {m : P α} {n n' : Nat} (h : FailsBelow m s n) (hle : n' ≤ n) :
    FailsBelow m s n' := by
  obtain ⟨e, s', hrun, c, hc, hlen⟩ := h
  exact ⟨e, s', hrun, c, hc, Nat.le_trans hle hlen⟩

theorem FailsBelow.bind_left {m : P α} {g : α → P β} {n : Nat} (h : FailsBelow m s n) :
    FailsBelow (m >>= g) s n := by
  obtain ⟨e, s', hrun, hcall⟩ := h
  exact ⟨e, s', bind_error hrun, hcall⟩

theorem FailsBelow.bind_right {m : P α} {g : α → P β} {n : Nat} {a : α} {s' : State}
    (hm : m s = (.ok a, s')) (h : FailsBelow (g a) s' n) : FailsBelow (m >>= g) s n := by
  obtain ⟨e, s'', hrun, hcall⟩ := h
  exact ⟨e, s'', by rw [bind_ok hm, hrun], hcall⟩

theorem FailsBelow.call {m : P α} {n : Nat}
    (h : FailsBelow m
      { s with stack := f :: s.stack, calls := ⟨f :: s.stack, s.depth⟩ :: s.calls } n) :
    FailsBelow (call f m) s n := by
  obtain ⟨e, s', hrun, hcall⟩ := h
  exact ⟨e, _, call_error hrun, hcall⟩

theorem drop_head {toks : List Token} {pos : Nat} {u : Token} {rest : List Token}
    (h : toks.drop pos = u :: rest) : toks[pos]? = some u ∧ toks.drop (pos + 1) = rest := by
  refine ⟨?_, ?_⟩
  · have hhead : (toks.drop pos)[0]? = some u := by simp [h]
    rwa [List.getElem?_drop, Nat.add_zero] at hhead
  · rw [← List.drop_drop, h]
    rfl

/-- Blocks in blocks are calls in calls. -/
theorem block_nests (n : Nat) : ∀ (m : Nat) (s : State), n ≤ m →
    s.toks.drop s.pos = nestedBlocks n →
    FailsBelow (block (knot m)) s (s.stack.length + n) := by
  induction n with
  | zero =>
    intro m s _ htoks
    have hlen : s.toks.length ≤ s.pos := List.drop_eq_nil_iff.mp htoks
    let entered : State :=
      { s with stack := .block :: s.stack, calls := ⟨.block :: s.stack, s.depth⟩ :: s.calls }
    have hend : entered.toks[entered.pos]? ≠ some .lBrace := by
      simp [entered, List.getElem?_eq_none hlen]
    obtain ⟨e, hrun⟩ := expect_miss hend
    refine .call (.bind_left ⟨e, entered, hrun, ⟨.block :: s.stack, s.depth⟩, ?_, ?_⟩)
    · exact List.mem_cons_self
    · simp
  | succ n ih =>
    intro m s hm htoks
    obtain ⟨m, rfl⟩ : ∃ m', m = m' + 1 := ⟨m - 1, by omega⟩
    have htoks : s.toks.drop s.pos = .lBrace :: .sheesh :: nestedBlocks n := htoks
    have hbrace := drop_head htoks
    have hsheesh := drop_head hbrace.2
    refine .call (.bind_right (expect_hit hbrace.1) (.bind_left ?_))
    -- the first statement of the block
    refine .bind_left (.bind_right (skipSemis_miss m ?_) ?_)
    · simp [hsheesh.1]
    refine .bind_right (closing_miss hsheesh.1 (by decide)) (.bind_left (.call ?_))
    refine .bind_right (peek_hit hsheesh.1) ?_
    refine .call (.bind_right (expect_hit hsheesh.1) (.bind_left ?_))
    refine FailsBelow.mono (ih m _ (Nat.le_of_succ_le_succ hm) hsheesh.2) ?_
    simp only [List.length_cons]
    omega

/-- A function whose body is the nest. -/
def nestedFunction (n : Nat) : List Token :=
  .finna :: .ident "f" :: .lParen :: .rParen :: nestedBlocks (n + 1)

theorem function_nests (n : Nat) :
    ∃ stack, Running (nestedFunction n) stack ∧ n ≤ stack.length := by
  suffices h : FailsBelow (program (knot (n + 2))) (initial (nestedFunction n)) n by
    obtain ⟨e, s', hrun, c, hc, hlen⟩ := h
    refine ⟨c.stack, ⟨n + 2, c, ?_, rfl⟩, hlen⟩
    rw [parse, hrun]
    exact hc
  refine .call (.bind_left (.bind_left ?_))
  refine .bind_right (skipSemis_miss (n + 1) (next_ne rfl (by decide))) ?_
  refine .bind_right (peek_hit rfl) (.bind_left (.call ?_))
  refine .bind_right (check_miss (next_ne rfl (by decide))) ?_
  refine .bind_right (check_miss (next_ne rfl (by decide))) ?_
  refine .bind_right (itemVis_miss (next_ne rfl (by decide))) ?_
  -- the declaration up to its body
  refine .bind_right (peek_hit rfl) (.bind_left (.call ?_))
  refine .bind_right (expect_hit rfl) ?_
  refine .bind_right (optReceiver_miss (next_ne rfl (by decide))) ?_
  refine .bind_right (ident_hit rfl) ?_
  obtain ⟨calls, hgenerics⟩ := genericParams_miss (k := knot (n + 2)) (s := ⟨nestedFunction n, 2,
    false, 0, [.fnDecl, .topItem, .program], _⟩) (next_ne rfl (by decide))
  refine .bind_right hgenerics ?_
  obtain ⟨calls, hparams⟩ := paramList_empty (k := knot (n + 2)) (s := ⟨nestedFunction n, 2,
    false, 0, [.fnDecl, .topItem, .program], calls⟩) rfl rfl
  refine .bind_right hparams ?_
  obtain ⟨calls, hret⟩ := optRet_miss (k := knot (n + 2)) (s := ⟨nestedFunction n, 4,
    false, 0, [.fnDecl, .topItem, .program], calls⟩) (next_ne rfl (by decide))
  refine .bind_right hret (.bind_left ?_)
  have hbody := block_nests (n + 1) (n + 1) ⟨nestedFunction n, 4, false, 0,
    [.fnDecl, .topItem, .program], calls⟩ (Nat.le_refl _) rfl
  exact hbody.mono (by simp; omega)

end Nested

section Recursion

/-- The counter goes back wherever a call ends: at the next call it is the number of checked
functions around, and at the end it is zero. A check too deep is reported. -/
def Guarded : Prop := ∀ fuel toks, (parse fuel toks).2.depth = 0 ∧
  (∀ c ∈ (parse fuel toks).2.calls, c.depth = c.stack.tail.countP Fn.checked) ∧
  ((∃ c ∈ (parse fuel toks).2.calls, maxDepth < c.stack.countP Fn.checked) →
    (parse fuel toks).1 = .error .tooDeep)

theorem parser_guarded : Guarded := by
  intro fuel toks
  obtain ⟨hdepth, hsane, hshallow⟩ := parse_after fuel toks
  refine ⟨hdepth, fun c hc => (hsane c hc).counter, ?_⟩
  rintro ⟨c, hc, hdeep⟩
  rcases hshallow with hshallow | herror
  · exact absurd (hshallow c hc) (Nat.not_le.mpr hdeep)
  · exact herror

/-- On these streams calls nest no deeper than a multiple of the limit. -/
def NestsBounded (streams : Set (List Token)) : Prop :=
  ∃ c, ∀ toks ∈ streams, ∀ stack, Running toks stack → stack.length ≤ c * maxDepth

/-- On these streams so many calls of `block` and `copExpr` are open at most. -/
def OpensBounded (streams : Set (List Token)) : Prop :=
  ∃ b, ∀ toks ∈ streams, ∀ stack, Running toks stack → stack.countP Fn.unchecked ≤ b

theorem running_length_le {toks : List Token} {stack : List Fn} (h : Running toks stack) :
    stack.length ≤ 11 * (maxDepth + 2 + stack.countP Fn.unchecked) := by
  obtain ⟨fuel, c, hc, rfl⟩ := h
  exact ((parse_after fuel toks).2.1 c hc).length_le

/-- The check guards its counter, and the nesting is bounded just where the unchecked calls are. -/
theorem nesting_bounded_iff (streams : Set (List Token)) :
    Guarded ∧ (NestsBounded streams ↔ OpensBounded streams) := by
  refine ⟨parser_guarded, ?_, ?_⟩
  · rintro ⟨c, hc⟩
    exact ⟨c * maxDepth, fun toks htoks stack hstack =>
      Nat.le_trans List.countP_le_length (hc toks htoks stack hstack)⟩
  · rintro ⟨b, hb⟩
    refine ⟨11 * (maxDepth + 2 + b), fun toks htoks stack hstack => ?_⟩
    calc stack.length ≤ 11 * (maxDepth + 2 + stack.countP Fn.unchecked) :=
          running_length_le hstack
      _ ≤ 11 * (maxDepth + 2 + b) :=
          Nat.mul_le_mul_left 11 (Nat.add_le_add_left (hb toks htoks stack hstack) _)
      _ ≤ 11 * (maxDepth + 2 + b) * maxDepth := Nat.le_mul_of_pos_right _ (by decide)

/-- No multiple of the limit bounds the nesting on every stream. -/
theorem nesting_unbounded : ¬ NestsBounded Set.univ := by
  rintro ⟨c, hc⟩
  obtain ⟨stack, hrun, hlen⟩ := function_nests (c * maxDepth + 1)
  have := hc _ (Set.mem_univ _) stack hrun
  omega

end Recursion

end BetLang.Parser
