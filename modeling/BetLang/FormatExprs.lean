import BetLang.FormatLevels

/-! The parser reads the canonical form of an expression. -/

namespace BetLang.Fmt

open Filter (atTop)
open Lexer (Token)
open BetLang.Parser
open Surface

variable {b : Bool} {d : Nat} {F : List Token → Prop}

section TypeArgs

theorem reads_peekAfter (o : Option Token) :
    Reads peekAfterMatchingBracket b d [] (fun rest => behindGroup 0 rest = o) o := by
  rintro s rest htoks hrest rfl -
  refine ⟨s.calls, ?_⟩
  rw [peekAfterMatchingBracket, htoks]
  exact congrArg (fun o => (Except.ok o, s)) hrest

theorem reads_looksGeneric :
    Reads looksGeneric b d [] (fun rest => behindGroup 0 rest = some .lParen ∨
      (b = false ∧ behindGroup 0 rest = some .lBrace)) true := by
  refine .pointwise fun rest hrest => (reads_peekAfter (behindGroup 0 rest)).look ?_ (by rintro _ rfl; rfl)
  rcases hrest with h | ⟨rfl, h⟩
  · rw [h]
    exact .pure true
  · rw [h]
    exact reads_getNoStruct.last

theorem reads_looksGeneric_ne :
    Reads looksGeneric b d [] (fun rest => behindGroup 0 rest ≠ some .lParen ∧
      (b = false → behindGroup 0 rest ≠ some .lBrace)) false := by
  refine .pointwise fun rest hrest => (reads_peekAfter (behindGroup 0 rest)).look ?_ (by rintro _ rfl; rfl)
  split
  · exact absurd ‹_› hrest.1
  · cases b with
    | false => exact absurd ‹_› (hrest.2 rfl)
    | true => exact reads_getNoStruct.last
  · exact .pure false

/-- What may stand behind a name without type arguments. -/
def NoArgs (b : Bool) (rest : List Token) : Prop :=
  rest.head? = some .lBracket → behindGroup 0 rest ≠ some .lParen ∧
    (b = false → behindGroup 0 rest ≠ some .lBrace)

theorem reads_noArgs (k : Knot) : Reads (maybeGenericArgs k) b d [] (NoArgs b) [] := by
  refine ReadsTo.call _ (.pointwise fun rest hrest => ?_)
  refine (reads_atBracket rest.head?).look ?_ (by rintro _ rfl; rfl)
  by_cases h : rest.head? = some .lBracket
  · rw [h]
    exact reads_looksGeneric_ne.look (.pure []) (by rintro _ rfl; exact hrest h)
  · have hbracket : (rest.head? == some Token.lBracket) = false := beq_eq_false_iff_ne.mpr h
    rw [hbracket]
    exact .pure []

/-- What may stand behind type arguments. -/
def Called (b : Bool) (rest : List Token) : Prop :=
  rest.head? = some .lParen ∨ (b = false ∧ rest.head? = some .lBrace)

theorem reads_genericArgs {k : Knot} {gs : List (Ty String)} (hne : gs ≠ []) (hn : gs.length ≤ k.fuel)
    (h : List.Forall₂ (fun t toks => Reads k.parseType b d toks TyEnd t) gs (tyTokss gs)) :
    Reads (maybeGenericArgs k) b d (typeArgToks gs) (Called b) gs := by
  have htoks : typeArgToks gs = brackets (commaToks (tyTokss gs)) := by
    cases gs with
    | nil => exact absurd rfl hne
    | cons g gs => rfl
  rw [htoks]
  refine ReadsTo.call _ ((reads_atBracket (some .lBracket)).look ?_ fun _ _ => rfl)
  refine reads_looksGeneric.look ((reads_typeArgs hne hn h).mono fun _ _ => trivial) fun rest hrest => ?_
  rw [behindGroup_brackets (balanced_comma (balanced_tys gs))]
  exact hrest

/-- Type arguments, or none. -/
theorem reads_maybeGenericArgs {gs : List (Ty String)} (hok : TysOk d gs) :
    ∀ᶠ n in atTop, Reads (maybeGenericArgs (knot n)) b d (typeArgToks gs)
      (fun rest => if gs.isEmpty then NoArgs b rest else Called b rest) gs := by
  filter_upwards [goodTys gs b d hok, Filter.eventually_ge_atTop gs.length] with n htys hlen
  cases gs with
  | nil => exact reads_noArgs (knot n)
  | cons g gs => exact reads_genericArgs (by simp) (by rwa [knot_fuel]) htys

end TypeArgs

section Members

/-- A whole expression, up to what closes or separates it. -/
def GoodTop (e : PExpr) (d : Nat) : Prop :=
  ∀ᶠ n in atTop, Reads (knot n).expr false d (exprToks false e) (Follow 1 false) e

theorem Good.goodTop {e : PExpr} (h : Good e) (hok : TopOk (fun d b => ExprOk d b e) e d false) :
    GoodTop e d := knot_expr ((h false).top hok)

/-- The tokens that close and separate expressions. -/
def closes : Token → Bool
  | .comma | .semi | .colon | .inKw | .rParen | .rBracket | .rBrace => true
  | .eq | .plusEq | .minusEq | .starEq | .slashEq | .percentEq => true
  | .ampEq | .pipeEq | .caretEq | .shlEq | .shrEq => true
  | _ => false

theorem closes_no_operator {t : Token} (ht : closes t = true) (op : BinOp) : t ≠ binopTok op := by
  rintro rfl
  cases op <;> cases ht

theorem follow_cons {t : Token} (ht : closes t = true) (rest : List Token) (p : Nat) (b : Bool) :
    Follow p b (t :: rest) := by
  have hgroup : t ≠ .dot ∧ t ≠ .lParen ∧ t ≠ .lBracket ∧ t ≠ .lBrace ∧ t ≠ .asKw := by
    refine ⟨?_, ?_, ?_, ?_, ?_⟩ <;> (rintro rfl; cases ht)
  obtain ⟨hdot, hparen, hbracket, hbrace, has⟩ := hgroup
  refine ⟨⟨by simpa using hdot, by simpa using hparen, by simpa using hbracket, fun _ => by simpa using hbrace⟩,
    fun op h => absurd (Option.some.inj h) (closes_no_operator ht op), fun _ => by simpa using has⟩

theorem follow_head {t : Token} {rest : List Token} (h : rest.head? = some t) (ht : closes t = true) (p : Nat)
    (b : Bool) : Follow p b rest := by
  cases rest with
  | nil => cases h
  | cons t' rest =>
    cases Option.some.inj h
    exact follow_cons ht rest p b

def GoodElems (es : List PExpr) : Prop :=
  ∀ d, ElemsOk d es → ∀ᶠ n in atTop,
    List.Forall₂ (fun e toks => Reads (knot n).expr false d toks (Follow 1 false) e) es (exprTokss es)

theorem goodElems_nil : GoodElems [] := fun _ _ => Filter.Eventually.of_forall fun _ => .nil

theorem goodElems_cons {e : PExpr} {es : List PExpr} (he : Good e) (hes : GoodElems es) :
    GoodElems (e :: es) := by
  rintro d ⟨hok, hoks⟩
  filter_upwards [he.goodTop hok, hes d hoks] with n h hs
  exact .cons h hs

end Members

section Labels

/-- The second token is no colon, unless one follows. -/
def Second (ts : List Token) : Prop :=
  ∀ rest : List Token, rest.head? ≠ some .colon → (ts ++ rest)[1]? ≠ some .colon

theorem second_singleton (t : Token) : Second [t] := by
  intro rest hrest
  simpa [List.head?_eq_getElem?] using hrest

theorem second_pair {t u : Token} {ts : List Token} (hu : u ≠ .colon) : Second (t :: u :: ts) := by
  intro rest _
  simpa using hu

theorem Second.append {ts us : List Token} (h : Second ts) (hus : ∃ t us', us = t :: us' ∧ t ≠ .colon) :
    Second (ts ++ us) := by
  obtain ⟨t, us', rfl, ht⟩ := hus
  intro rest _
  rw [List.append_assoc]
  exact h _ (by simpa using ht)

theorem starts_ne {t u : Token} (ht : starts t = true) (hu : starts u = false) : t ≠ u := by
  rintro rfl
  rw [ht] at hu
  cases hu

theorem second_cons {t : Token} {ts : List Token} (h : ∃ u us, ts = u :: us ∧ u ≠ .colon) :
    Second (t :: ts) := by
  obtain ⟨u, us, rfl, hu⟩ := h
  exact second_pair hu

theorem expr_not_colon (e : PExpr) (b : Bool) : ∃ u us, exprToks b e = u :: us ∧ u ≠ .colon := by
  obtain ⟨t, ts, htoks, ht⟩ := exprToks_head e b
  exact ⟨t, ts, htoks, starts_ne ht rfl⟩

theorem second_operand {e : PExpr} (h : ∀ b, Second (exprToks b e)) (paren b : Bool) :
    Second (operandToks (fun ns => exprToks ns e) paren b) := by
  cases paren with
  | true => exact second_cons (append_head (expr_not_colon e false))
  | false => exact h b

theorem second_typeArgs (t : Token) (gs : List (Ty String)) : Second (t :: typeArgToks gs) := by
  cases gs with
  | nil => exact second_singleton t
  | cons g gs => exact second_pair (by simp)

theorem second_struct : ∀ lit : StructLit String String, Second (structToks lit)
  | .mk ⟨_, some _⟩ _ _ => second_pair (by simp)
  | .mk ⟨_, none⟩ [] _ => second_pair (by simp)
  | .mk ⟨_, none⟩ (_ :: _) _ => second_pair (by simp)

theorem binopTok_ne_colon (op : BinOp) : binopTok op ≠ .colon := by cases op <;> simp [binopTok]

theorem second_expr : ∀ (e : PExpr) (b : Bool), Second (exprToks b e)
  | .int _, _ | .float _, _ | .str _, _ | .byte _, _ | .bool true, _ | .bool false, _ | .ghosted, _ =>
    second_singleton _
  | .name _ generics, _ => second_typeArgs _ generics
  | .unary _ x, b => by
    refine second_cons ?_
    obtain ⟨t, ts, htoks, ht⟩ :=
      operandToks_head (exprToks_head x) (exprPrec x < precUnary) b
    exact ⟨t, ts, htoks, starts_ne ht rfl⟩
  | .binary op l _, b =>
    (second_operand (second_expr l) _ b).append ⟨_, _, rfl, binopTok_ne_colon op⟩
  | .cast x _, b => (second_operand (second_expr x) _ b).append ⟨_, _, rfl, by simp⟩
  | .field base _ _, b => (second_operand (second_expr base) _ b).append ⟨_, _, rfl, by simp⟩
  | .method receiver _ _ _, b => (second_operand (second_expr receiver) _ b).append ⟨_, _, rfl, by simp⟩
  | .call callee _, b => (second_operand (second_expr callee) _ b).append ⟨_, _, rfl, by simp⟩
  | .index base _, b => (second_operand (second_expr base) _ b).append ⟨_, _, rfl, by simp⟩
  | .trust tag _, b => (second_operand (second_expr tag) _ b).append ⟨_, _, rfl, by simp⟩
  | .struct lit, true => by
    obtain ⟨s, ts, hts⟩ := structToks_head lit
    exact second_cons (append_head ⟨_, _, hts, by simp⟩)
  | .struct lit, false => second_struct lit
  | .array [], _ => second_pair (by simp)
  | .array (e :: _), _ =>
    second_cons (append_head (append_head (expr_not_colon e false)))
  | .cop (.struct lit) _, _ => by
    obtain ⟨s, ts, hts⟩ := structToks_head lit
    exact second_cons (append_head ⟨_, _, hts, by simp⟩)
  | .cop (.variant name _) _, _ => by
    obtain ⟨ts, hts⟩ := pathToks_head name
    exact second_cons (append_head (append_head ⟨_, _, hts, by simp⟩))

theorem reads_label_none :
    Reads label b d [] (fun rest => rest.head? ≠ some .inKw ∧ rest[1]? ≠ some .colon) none := by
  refine .pointwise fun rest hrest => (reads_peek rest.head?).look ((reads_peek2 rest[1]?).look ?_ ?_) ?_
  · split
    · exact absurd ‹_› hrest.2
    · exact absurd ‹_› hrest.1
    · exact .pure none
  · rintro _ rfl
    rfl
  · rintro _ rfl
    rfl

theorem reads_label (l : String) : Reads label b d (labelToks (some l)) F (some l) := by
  by_cases hl : l = "in"
  · subst hl
    refine .toks (l := [.inKw, .colon]) (by simp [labelToks]) ?_
    refine (reads_peek (some .inKw)).look ((reads_peek2 (some .colon)).look ?_ fun _ _ => rfl) fun _ _ => rfl
    exact (reads_advance .inKw).take (G := fun _ => True) (reads_advance .colon).last fun _ _ => trivial
  · refine .toks (l := [.ident l, .colon]) (by simp [labelToks, hl]) ?_
    refine (reads_peek (some (.ident l))).look ((reads_peek2 (some .colon)).look ?_ fun _ _ => rfl)
      fun _ _ => rfl
    exact (reads_advance (.ident l)).take (G := fun _ => True) (reads_advance .colon).last fun _ _ => trivial

end Labels

section Lists

/-- What closes or separates arguments. -/
def ArgEnd (rest : List Token) : Prop := rest.head? = some .comma ∨ rest.head? = some .rParen

theorem ArgEnd.follow {rest : List Token} (h : ArgEnd rest) (p : Nat) (b : Bool) : Follow p b rest := by
  rcases h with h | h
  · exact follow_head h rfl p b
  · exact follow_head h rfl p b

def GoodArgs (as : List (Arg String String)) : Prop :=
  ∀ d, ArgsOk d as → ∀ᶠ n in atTop,
    List.Forall₂ (fun a toks => Reads (arg (knot n)) false d toks ArgEnd a) as (argTokss as)

theorem goodArgs_nil : GoodArgs [] := fun _ _ => Filter.Eventually.of_forall fun _ => .nil

theorem goodArgs_cons {label : Option String} {value : PExpr} {as : List (Arg String String)}
    (hvalue : Good value) (has : GoodArgs as) : GoodArgs (.mk label value :: as) := by
  rintro d ⟨hok, hoks⟩
  filter_upwards [hvalue.goodTop hok, has d hoks] with n h hs
  refine .cons (ReadsTo.call _ ?_) hs
  have hlast := (h.mono fun rest hrest => ArgEnd.follow hrest 1 false).last (f := Arg.mk label)
  cases label with
  | none =>
    refine reads_label_none.look hlast fun rest hrest => ?_
    obtain ⟨t, ts, htoks, ht⟩ := exprToks_head value false
    refine ⟨?_, second_expr value false rest ?_⟩
    · have hne : t ≠ .inKw := starts_ne ht rfl
      simpa [labelToks, htoks] using hne
    · rcases hrest with hrest | hrest <;> simp [hrest]
  | some l => exact (reads_label (F := fun _ => True) l).bind hlast fun _ _ => trivial

theorem argToks_head : ∀ (as : List (Arg String String)), ∀ ts ∈ argTokss as,
    ∃ t ts', ts = t :: ts' ∧ t ≠ .rParen
  | [] => fun _ h => by cases h
  | .mk none value :: as => List.forall_mem_cons.mpr ⟨by
      obtain ⟨t, ts, htoks, ht⟩ := exprToks_head value false
      exact ⟨t, ts, htoks, starts_ne ht rfl⟩, argToks_head as⟩
  | .mk (some l) value :: as => List.forall_mem_cons.mpr ⟨by
      refine ⟨_, _, rfl, ?_⟩
      split <;> simp, argToks_head as⟩

theorem GoodArgs.call {as : List (Arg String String)} (h : GoodArgs as) (hok : ArgsOk d as) :
    ∀ᶠ n in atTop, Reads (callArgs (knot n)) b d (parens (commaToks (argTokss as))) (fun _ => True) as := by
  filter_upwards [h d hok, Filter.eventually_ge_atTop as.length] with n hn hlen
  have hlist := reads_trailingList (k := knot n) hn (by rwa [knot_fuel]) (argToks_head as) (by simp)
    (fun _ => .inl rfl) (fun _ hrest => .inr hrest)
  refine ReadsTo.call _ ((reads_getNoStruct (F := fun _ => True)).look ?_ fun _ _ => trivial)
  refine (reads_setNoStruct (F := fun _ => True) false).look ?_ fun _ _ => trivial
  refine (reads_expect (F := fun _ => True) .lParen).take ?_ fun _ _ => trivial
  refine hlist.bind ((reads_expect (F := fun _ => True) .rParen).take ?_ fun _ _ => trivial) fun _ _ => rfl
  exact (reads_setNoStruct b).last

/-- A field, with the comma behind it if there is one. -/
def GoodFields (fs : List (FieldInit String String)) : Prop :=
  ∀ d, FieldsOk d fs → ∀ᶠ n in atTop,
    List.Forall₂ (fun f toks =>
      Reads (fieldInit (knot n)) false d toks (fun rest => rest.head? = some .rBrace) f ∧
        Reads (fieldInit (knot n)) false d (toks ++ [.comma]) (fun _ => True) f) fs (fieldTokss fs)

theorem goodFields_nil : GoodFields [] := fun _ _ => Filter.Eventually.of_forall fun _ => .nil

theorem goodFields_cons {name : String} {value : PExpr} {fs : List (FieldInit String String)}
    (hvalue : Good value) (hfs : GoodFields fs) : GoodFields (.mk name value :: fs) := by
  rintro d ⟨hok, hoks⟩
  filter_upwards [hvalue.goodTop hok, hfs d hoks, Filter.eventually_gt_atTop 0] with n h hs hn
  have hpos : 0 < (knot n).fuel := by rwa [knot_fuel]
  refine .cons ⟨?_, ?_⟩ hs
  · refine (reads_ident (F := fun _ => True) name).take ?_ fun _ _ => trivial
    refine (reads_expect (F := fun _ => True) .colon).take ?_ fun _ _ => trivial
    refine .toks (l := exprToks false value ++ []) (by simp) (h.bind ?_ fun rest hrest => ?_)
    · refine (reads_skipSemis_ne hpos).look ((reads_eat_ne .comma).look ?_ ?_) ?_
      · exact (reads_skipSemis_ne hpos).look (.pure _) fun rest hrest => by simp [hrest]
      · intro rest hrest
        simp [hrest]
      · intro rest hrest
        simp [hrest]
    · exact follow_head hrest rfl 1 false
  · refine (reads_ident (F := fun _ => True) name).take ?_ fun _ _ => trivial
    refine (reads_expect (F := fun _ => True) .colon).take ?_ fun _ _ => trivial
    refine h.bind ?_ fun rest _ => follow_cons rfl _ 1 false
    refine (reads_skipSemis_ne hpos).look ?_ fun _ _ => by simp
    exact (reads_eat (F := fun _ => True) .comma).take (.pure _) fun _ _ => trivial

theorem fieldToks_head (fs : List (FieldInit String String)) : ∀ ts ∈ fieldTokss fs,
    ∃ t ts', ts = t :: ts' ∧ t ≠ .rBrace ∧ t ≠ .semi := by
  induction fs with
  | nil =>
    intro ts h
    cases h
  | cons f fs ih =>
    cases f
    exact List.forall_mem_cons.mpr ⟨⟨_, _, rfl, by simp⟩, ih⟩

theorem GoodFields.body {fs : List (FieldInit String String)} (h : GoodFields fs) (hok : FieldsOk d fs)
    (name : Path String) (gs : List (Ty String)) :
    ∀ᶠ n in atTop, Reads (structLitBody (knot n) name gs) b d (braces (commaToks (fieldTokss fs)))
      (fun _ => True) (.mk name gs fs) := by
  filter_upwards [h d hok, Filter.eventually_gt_atTop fs.length] with n hn hlen
  have hlist := reads_untilBrace_comma (o := []) (n := (knot n).fuel) hn (fieldToks_head fs)
    (by rwa [knot_fuel]) (show 0 < (knot n).fuel by rw [knot_fuel]; omega)
  refine ReadsTo.call _ ((reads_getNoStruct (F := fun _ => True)).look ?_ fun _ _ => trivial)
  refine (reads_setNoStruct (F := fun _ => True) false).look ?_ fun _ _ => trivial
  refine (reads_expect (F := fun _ => True) .lBrace).take ?_ fun _ _ => trivial
  refine hlist.bind ((reads_expect (F := fun _ => True) .rBrace).take ?_ fun _ _ => trivial) fun _ _ => rfl
  exact (reads_setNoStruct b).last

end Lists

section Primaries

variable {e : PExpr}

/-- An expression that is read as a primary. -/
theorem GoodAt.ofSpine (hprec : exprPrec e = precPostfix)
    (h : ∀ d, ExprOk d b e → ∃ s, ∀ᶠ n in atTop,
      Spine s (Parser.primary (knot n)) (postfixStep (knot n)) b d (exprToks b e) (Behind (exprTail e) b) e)
    (hprimary : ∀ d, ExprOk d b e → isPrimary b e = true →
      ∀ᶠ n in atTop, Reads (Parser.primary (knot n)) b d (exprToks b e) (Behind (exprTail e) b) e) :
    GoodAt b e where
  spine d hok _ := by
    obtain ⟨s, hs⟩ := h d hok
    refine ⟨s, ?_⟩
    filter_upwards [hs] with n hn
    have hafter : After (exprPrec e) b e = Behind (exprTail e) b := by
      funext rest
      rw [After, if_pos hprec]
    have hbody : body (knot n) (exprPrec e) = postfixStep (knot n) := by
      funext e'
      rw [body, if_pos hprec]
    rw [below, if_pos hprec, hafter, hbody]
    exact hn
  unary d _ hunary := by
    rw [hprec] at hunary
    cases hunary
  primary d hok _ := hprimary d hok

theorem GoodAt.ofPrimary (hprec : exprPrec e = precPostfix)
    (h : ∀ d, ExprOk d b e →
      ∀ᶠ n in atTop, Reads (Parser.primary (knot n)) b d (exprToks b e) (Behind (exprTail e) b) e) :
    GoodAt b e := by
  refine .ofSpine hprec (fun d hok => ⟨0, ?_⟩) fun d hok _ => h d hok
  filter_upwards [h d hok] with n hn
  exact hn.spine

theorem good_literal {t : Token} (hprec : exprPrec e = precPostfix) (htoks : ∀ b, exprToks b e = [t])
    (hlit : literal (some t) = some e) : Good e := by
  refine fun b => .ofPrimary hprec fun d _ => Filter.Eventually.of_forall fun n => ?_
  rw [htoks b]
  refine ReadsTo.call _ ((reads_peek (some t)).look ?_ fun _ _ => rfl)
  rw [hlit]
  exact (reads_advance t).last

/-- A name, with what is behind it. -/
theorem reads_name {k : Knot} {s : String} {gs : List (Ty String)}
    (h : Reads (maybeGenericArgs k) b d (typeArgToks gs)
      (fun rest => if gs.isEmpty then NoArgs b rest else Called b rest) gs) :
    Reads (Parser.primary k) b d (.ident s :: typeArgToks gs) (Behind (nameTail gs) b) (.name s gs) := by
  refine ReadsTo.call _ ((reads_peek (some (.ident s))).look ?_ fun _ _ => rfl)
  refine (reads_peek (some (.ident s))).look ?_ fun _ _ => rfl
  refine (reads_advance (F := fun _ => True) (.ident s)).take ?_ fun _ _ => trivial
  refine .toks (l := typeArgToks gs ++ []) (by simp) (h.bind (.pointwise fun rest hrest => ?_) fun rest hrest => ?_)
  · refine (reads_getNoStruct (F := fun _ => True)).look ?_ fun _ _ => trivial
    refine (reads_check .lBrace rest.head?).look ?_ (by rintro _ rfl; rfl)
    have hno : (!b && rest.head? == some Token.lBrace) = false := by
      cases b with
      | true => rfl
      | false =>
        have hne : rest.head? ≠ some .lBrace := by
          cases gs with
          | nil => exact hrest.1 rfl
          | cons g gs =>
            have hparen : rest.head? = some .lParen := hrest
            simp [hparen]
        simpa using hne
    rw [hno]
    exact .pure _
  · cases gs with
    | nil => exact hrest.2
    | cons g gs => exact .inl hrest

theorem good_name {s : String} {gs : List (Ty String)} : Good (.name s gs) := by
  refine fun b => .ofPrimary rfl fun d hok => ?_
  filter_upwards [reads_maybeGenericArgs (b := b) hok] with n hn
  exact reads_name hn

theorem follow_rBracket {rest : List Token} (h : rest.head? = some .rBracket) (p : Nat) (b : Bool) :
    Follow p b rest := follow_head h rfl p b

theorem exprToks_heads : ∀ (es : List PExpr), ∀ ts ∈ exprTokss es, ∃ t ts', ts = t :: ts' ∧ t ≠ .rBracket
  | [] => fun _ h => by cases h
  | e :: es => List.forall_mem_cons.mpr ⟨by
      obtain ⟨t, ts, htoks, ht⟩ := exprToks_head e false
      exact ⟨t, ts, htoks, starts_ne ht rfl⟩, exprToks_heads es⟩

theorem good_array {es : List PExpr} (h : GoodElems es) : Good (.array es) := by
  refine fun b => .ofPrimary rfl fun d hok => ?_
  filter_upwards [h d hok, Filter.eventually_ge_atTop es.length] with n hn hlen
  have hlist := reads_trailingList (k := knot n) hn (by rwa [knot_fuel]) (exprToks_heads es) (by simp)
    (fun _ => follow_cons rfl _ 1 false)
    (fun _ hrest => follow_rBracket hrest 1 false)
  refine ReadsTo.call _ ((reads_peek (some .lBracket)).look ?_ fun _ _ => rfl)
  refine (reads_peek (some .lBracket)).look (ReadsTo.call _ ?_) fun _ _ => rfl
  refine (reads_getNoStruct (F := fun _ => True)).look ?_ fun _ _ => trivial
  refine (reads_setNoStruct (F := fun _ => True) false).look ?_ fun _ _ => trivial
  refine (reads_expect (F := fun _ => True) .lBracket).take ?_ fun _ _ => trivial
  refine hlist.bind ((reads_expect (F := fun _ => True) .rBracket).take ?_ fun _ _ => trivial) fun _ _ => rfl
  exact (reads_setNoStruct b).last

/-- A struct literal behind the name, where literals are on. -/
theorem reads_struct {k : Knot} {s : String} {gs : List (Ty String)} {fs : List (FieldInit String String)}
    (hargs : Reads (maybeGenericArgs k) false d (typeArgToks gs)
      (fun rest => if gs.isEmpty then NoArgs false rest else Called false rest) gs)
    (hbody : Reads (structLitBody k ⟨s, none⟩ gs) false d (braces (commaToks (fieldTokss fs)))
      (fun _ => True) (.mk ⟨s, none⟩ gs fs)) :
    Reads (Parser.primary k) false d (structToks (.mk ⟨s, none⟩ gs fs)) (fun _ => True)
      (.struct (.mk ⟨s, none⟩ gs fs)) := by
  refine ReadsTo.call _ ((reads_peek (some (.ident s))).look ?_ fun _ _ => rfl)
  refine (reads_peek (some (.ident s))).look ?_ fun _ _ => rfl
  refine (reads_advance (F := fun _ => True) (.ident s)).take ?_ fun _ _ => trivial
  refine hargs.bind ?_ fun rest _ => ?_
  · refine (reads_getNoStruct (F := fun _ => True)).look ?_ fun _ _ => trivial
    exact (reads_check .lBrace (some .lBrace)).look hbody.last fun _ _ => rfl
  · cases gs with
    | nil => simp [NoArgs, braces]
    | cons g gs => exact .inr ⟨rfl, rfl⟩

end Primaries

section Postfixes

variable {e e' : PExpr}

theorem reads_member {k : Knot} {s : String} {ts : List Token}
    (h : Reads (memberTail k e) b d (.ident s :: ts) F e') :
    Reads (postfixStep k e) b d (.dot :: .ident s :: ts) F (.inl e') := by
  refine (reads_peek (some .dot)).look ?_ fun _ _ => rfl
  refine (reads_advance (F := fun _ => True) .dot).take ?_ fun _ _ => trivial
  exact (reads_eat_ne .trust).look h.last fun _ _ => by simp

/-- A literal of a struct of another module. -/
theorem reads_memberStruct {k : Knot} {ns s : String} {gs : List (Ty String)}
    {fs : List (FieldInit String String)}
    (hargs : Reads (maybeGenericArgs k) false d (typeArgToks gs)
      (fun rest => if gs.isEmpty then NoArgs false rest else Called false rest) gs)
    (hbody : Reads (structLitBody k ⟨ns, some s⟩ gs) false d (braces (commaToks (fieldTokss fs)))
      (fun _ => True) (.mk ⟨ns, some s⟩ gs fs)) :
    Reads (memberTail k (.name ns [])) false d
      (.ident s :: (typeArgToks gs ++ braces (commaToks (fieldTokss fs)))) (fun _ => True)
      (.struct (.mk ⟨ns, some s⟩ gs fs)) := by
  refine (reads_ident (F := fun _ => True) s).take (hargs.bind ?_ fun rest _ => ?_) fun _ _ => trivial
  · refine (reads_check_ne .lParen).look ?_ fun _ _ => by simp [braces]
    refine (reads_getNoStruct (F := fun _ => True)).look ?_ fun _ _ => trivial
    exact (reads_check .lBrace (some .lBrace)).look hbody.last fun _ _ => rfl
  · cases gs with
    | nil => simp [NoArgs, braces]
    | cons g gs => exact .inr ⟨rfl, rfl⟩

theorem behind_dot {tail : Tail} {rest : List Token} (hgeneric : tail ≠ .generic) (hclosed : tail ≠ .unclosed) :
    Behind tail b (.dot :: rest) := by
  cases tail with
  | bare => exact ⟨fun _ => by simp, by simp⟩
  | generic => exact absurd rfl hgeneric
  | member => exact ⟨by simp, fun _ => by simp, by simp⟩
  | indexed => exact ⟨by simp, fun _ => by simp⟩
  | unclosed => exact absurd rfl hclosed
  | closed => trivial

theorem good_struct {lit : StructLit String String}
    (h : ∀ name gs fs, lit = .mk name gs fs → GoodFields fs) : Good (.struct lit) := by
  obtain ⟨⟨head, member⟩, gs, fs⟩ := lit
  have hfields := h _ _ _ rfl
  have hplain : GoodAt false (.struct (.mk ⟨head, member⟩ gs fs)) := by
    cases member with
    | none =>
      refine .ofPrimary rfl fun d hok => ?_
      filter_upwards [reads_maybeGenericArgs (b := false) hok.1, hfields.body (b := false) hok.2 ⟨head, none⟩ gs]
        with n hargs hbody
      exact reads_struct hargs hbody
    | some m =>
      refine .ofSpine rfl (fun d hok => ⟨1, ?_⟩) fun d _ hprimary => by cases hprimary
      filter_upwards [reads_maybeGenericArgs (b := false) (show TysOk d [] from trivial),
        reads_maybeGenericArgs (b := false) hok.1, hfields.body (b := false) hok.2 ⟨head, some m⟩ gs]
        with n hname hargs hbody
      have hspine := (reads_name (s := head) hname).spine (f := postfixStep (knot n))
      have hstep := hspine.step (reads_member (reads_memberStruct hargs hbody)) fun rest _ =>
        behind_dot (by simp [nameTail]) (by simp [nameTail])
      have htoks : exprToks false (.struct (.mk ⟨head, some m⟩ gs fs)) =
          .ident head :: typeArgToks [] ++
            .dot :: .ident m :: (typeArgToks gs ++ braces (commaToks (fieldTokss fs))) := by
        simp [exprToks, structToks, pathToks, typeArgToks]
      rw [htoks]
      exact hstep
  intro b
  cases b with
  | false => exact hplain
  | true =>
    refine .ofPrimary rfl fun d hok => ?_
    obtain ⟨hd, hok⟩ := hok
    have htop : TopOk (fun d b => ExprOk d b (.struct (.mk ⟨head, member⟩ gs fs)))
        (.struct (.mk ⟨head, member⟩ gs fs)) d false := ⟨by omega, by simp [exprTail], by omega, hok⟩
    exact primary_parens hplain htop

theorem good_field {base : PExpr} {s : String} {gs : List (Ty String)} (hbase : Good base) :
    Good (.field base s gs) := by
  refine fun b => .ofSpine rfl (fun d hok => ?_) fun d _ hprimary => by cases hprimary
  obtain ⟨⟨hok, hgeneric, hclosed⟩, rfl⟩ := hok
  obtain ⟨n, hspine⟩ := hbase.base hok
  refine ⟨n + 1, ?_⟩
  filter_upwards [hspine] with n hn
  refine hn.step (reads_member ?_) fun _ _ => behind_dot hgeneric hclosed
  refine (reads_ident (F := fun _ => True) s).take (.pointwise fun rest hrest => ?_) fun _ _ => trivial
  obtain ⟨hparen, hbrace, hargs⟩ := hrest
  refine (reads_noArgs (knot n)).look ?_ (by rintro _ rfl; exact hargs)
  refine (reads_check_ne .lParen).look ?_ (by rintro _ rfl; exact hparen)
  refine (reads_getNoStruct (F := fun _ => True)).look ?_ fun _ _ => trivial
  refine (reads_check .lBrace rest.head?).look ?_ (by rintro _ rfl; rfl)
  have hno : (!b && rest.head? == some Token.lBrace) = false := by
    cases b with
    | true => rfl
    | false => simpa using hbrace rfl
  rw [hno]
  exact .pure _

theorem good_method {receiver : PExpr} {s : String} {gs : List (Ty String)} {as : List (Arg String String)}
    (hreceiver : Good receiver) (has : GoodArgs as) : Good (.method receiver s gs as) := by
  refine fun b => .ofSpine rfl (fun d hok => ?_) fun d _ hprimary => by cases hprimary
  obtain ⟨⟨hok, hgeneric, hclosed⟩, hgs, hoks⟩ := hok
  obtain ⟨n, hspine⟩ := hreceiver.base hok
  refine ⟨n + 1, ?_⟩
  filter_upwards [hspine, reads_maybeGenericArgs (b := b) hgs, has.call (b := b) hoks] with n hn hargs hcall
  refine hn.step (reads_member ?_) fun _ _ => behind_dot hgeneric hclosed
  refine (reads_ident (F := fun _ => True) s).take (hargs.bind ?_ fun rest _ => ?_) fun _ _ => trivial
  · exact (reads_check .lParen (some .lParen)).look hcall.last fun _ _ => rfl
  · cases gs with
    | nil => simp [NoArgs, parens]
    | cons g gs => exact .inl rfl

theorem good_call {callee : PExpr} {as : List (Arg String String)} (hcallee : Good callee)
    (has : GoodArgs as) : Good (.call callee as) := by
  refine fun b => .ofSpine rfl (fun d hok => ?_) fun d _ hprimary => by cases hprimary
  obtain ⟨hok, hclosed, hmember, hindexed, hoks⟩ := hok
  obtain ⟨n, hspine⟩ := hcallee.base hok
  refine ⟨n + 1, ?_⟩
  filter_upwards [hspine, has.call (b := b) hoks] with n hn hcall
  refine hn.step ?_ fun rest _ => ?_
  · exact (reads_peek (some .lParen)).look hcall.last fun _ _ => rfl
  · cases htail : baseTail callee with
    | bare => exact ⟨fun _ => by simp [parens], by simp [parens]⟩
    | generic => exact rfl
    | member => exact absurd htail hmember
    | indexed => exact absurd htail hindexed
    | unclosed => exact absurd htail hclosed
    | closed => trivial

theorem good_index {base index : PExpr} (hbase : Good base) (hindex : Good index) :
    Good (.index base index) := by
  refine fun b => .ofSpine rfl (fun d hok => ?_) fun d _ hprimary => by cases hprimary
  obtain ⟨⟨hok, hgeneric, hclosed⟩, hoki⟩ := hok
  obtain ⟨n, hspine⟩ := hbase.base hok
  refine ⟨n + 1, ?_⟩
  filter_upwards [hspine, hindex.goodTop hoki] with n hn hi
  have hfull : Reads (fullExpr (knot n)) b d (exprToks false index) (Follow 1 false) index :=
    (ReadsTo.withNoStruct hi).call _
  refine hn.step (H := Behind (exprTail (.index base index)) b) ?_ fun rest hrest => ?_
  · refine (reads_peek (some .lBracket)).look ?_ fun _ _ => rfl
    refine (reads_advance (F := fun _ => True) .lBracket).take ?_ fun _ _ => trivial
    exact hfull.bind (reads_expect .rBracket).last fun _ _ => follow_rBracket rfl 1 false
  · have hbehind := behindGroup_brackets (balanced_expr index false) rest
    have hhead : (brackets (exprToks false index) ++ rest).head? = some .lBracket := rfl
    have htail : baseTail base = .bare ∨ baseTail base = .member → exprTail (.index base index) = .indexed := by
      intro h
      by_cases hprec : exprPrec base < precPostfix
      · simp [baseTail, hprec] at h
      · rw [baseTail, if_neg hprec] at h
        rw [exprTail, if_neg hprec, if_pos h]
    cases hbase' : baseTail base with
    | bare =>
      rw [htail (.inl hbase')] at hrest
      exact ⟨fun _ => by simp [hhead], fun _ => by rwa [hbehind]⟩
    | generic => exact absurd hbase' hgeneric
    | member =>
      rw [htail (.inr hbase')] at hrest
      exact ⟨by simp [hhead], fun _ => by simp [hhead], fun _ => by rwa [hbehind]⟩
    | indexed => exact ⟨by simp [hhead], fun _ => by simp [hhead]⟩
    | unclosed => exact absurd hbase' hclosed
    | closed => trivial

/-- An operand that is read as a primary. -/
theorem Good.primaryOperand (h : Good e) (hok : OperandOk (fun d b => ExprOk d b e) e precPostfix d b)
    (hprimary : isPrimary b e = true) : ∀ᶠ n in atTop,
      Reads (Parser.primary (knot n)) b d
        (operandToks (fun ns => exprToks ns e) (exprPrec e < precPostfix) b) (Behind (baseTail e) b) e := by
  by_cases hparen : exprPrec e < precPostfix
  · obtain ⟨-, hd, hok⟩ := (by simpa only [OperandOk, if_pos hparen, if_true] using hok :
      exprTail e ≠ .generic ∧ 1 ≤ d ∧ ExprOk (d - 1) false e)
    have hpos := (exprPrec_bounds e).1
    have htop : TopOk (fun d b => ExprOk d b e) e d false := by
      refine ⟨hd, ?_⟩
      rw [OperandOk, if_neg (by omega), if_neg fun hboth => by omega]
      exact hok
    rw [decide_eq_true hparen, baseTail, if_pos hparen]
    exact primary_parens (h false) htop
  · have hprec : exprPrec e = precPostfix := by
      have := (exprPrec_bounds e).2
      omega
    rw [OperandOk, if_neg hparen, if_neg fun hlt => absurd hlt.2 (Nat.lt_irrefl _)] at hok
    rw [decide_eq_false hparen, baseTail, if_neg hparen]
    exact (h b).primary d hok hprec hprimary

theorem good_trust {tag crib : PExpr} (htag : Good tag) (hcrib : Good crib) : Good (.trust tag crib) := by
  refine fun b => .ofSpine rfl (fun d hok => ?_) fun d _ hprimary => by cases hprimary
  obtain ⟨⟨hok, hgeneric, hclosed⟩, hokc, hprimary⟩ := hok
  obtain ⟨n, hspine⟩ := htag.base hok
  refine ⟨n + 1, ?_⟩
  filter_upwards [hspine, hcrib.primaryOperand hokc hprimary] with n hn hc
  refine hn.step ?_ fun _ _ => behind_dot hgeneric hclosed
  refine (reads_peek (some .dot)).look ?_ fun _ _ => rfl
  refine (reads_advance (F := fun _ => True) .dot).take ?_ fun _ _ => trivial
  refine (reads_eat (F := fun _ => True) .trust).take ?_ fun _ _ => trivial
  refine ReadsTo.last (f := Sum.inl) ?_
  refine (reads_expect (F := fun _ => True) .lParen).take ?_ fun _ _ => trivial
  refine (reads_expect (F := fun _ => True) .rParen).take ?_ fun _ _ => trivial
  refine (reads_expect (F := fun _ => True) .inKw).take ?_ fun _ _ => trivial
  exact hc.last

end Postfixes

section Cops

theorem Stop.follow {rest : List Token} (h : Stop b rest) : Follow precPostfix b rest := by
  refine ⟨h, fun op _ => ?_, fun hle => absurd hle (by decide)⟩
  have := (binopPrec_bounds op).2
  simp only [precPostfix]
  omega

theorem Good.postfixExpr {e : PExpr} (h : Good e)
    (hok : OperandOk (fun d b => ExprOk d b e) e precPostfix d b) (htail : baseTail e ≠ .generic) :
    ∀ᶠ n in atTop, Reads (Parser.postfixExpr (knot n)) b d
      (operandToks (fun ns => exprToks ns e) (exprPrec e < precPostfix) b) (Stop b) e := by
  obtain ⟨s, hspine⟩ := h.base hok
  filter_upwards [hspine, Filter.eventually_gt_atTop s] with n hn hs
  have hstop := (body_done (b := b) (d := d) (knot n) (p := precPostfix) (by decide) (Nat.le_refl _)
    (by decide) e).mono fun rest (hrest : Stop b rest) => hrest.follow
  refine ReadsTo.call _ ?_
  rw [knot_fuel]
  exact hn.done hs hstop fun rest hrest => hrest.behind htail

theorem reads_copName (p : Path String) :
    Reads copName b d (pathToks p) (fun rest => rest.head? ≠ some .dot) p := by
  obtain ⟨head, member⟩ := p
  cases member with
  | none =>
    refine (reads_ident (F := fun _ => True) head).take (.pointwise fun rest hrest => ?_) fun _ _ => trivial
    refine (reads_peek rest.head?).look ((reads_peek2 rest[1]?).look ?_ ?_) ?_
    · split
      · exact absurd ‹_› hrest
      · exact .pure _
    · rintro _ rfl
      rfl
    · rintro _ rfl
      rfl
  | some m =>
    refine (reads_ident (F := fun _ => True) head).take ?_ fun _ _ => trivial
    refine (reads_peek (some .dot)).look ((reads_peek2 (some (.ident m))).look ?_ fun _ _ => rfl) fun _ _ => rfl
    refine (reads_advance (F := fun _ => True) .dot).take ?_ fun _ _ => trivial
    exact (reads_advance (.ident m)).last

/-- The value of `cop`, before the word `in`. -/
def GoodInit (init : CopInit String String) : Prop :=
  ∀ b d, CopOk d b init → ∀ᶠ n in atTop,
    Reads (Parser.copInit (knot n)) b d (copToks init) (fun rest => rest.head? = some .inKw) init

theorem goodInit_struct {lit : StructLit String String}
    (h : ∀ name gs fs, lit = .mk name gs fs → GoodFields fs) : GoodInit (.struct lit) := by
  obtain ⟨name, gs, fs⟩ := lit
  rintro b d ⟨hgs, hok⟩
  filter_upwards [reads_maybeGenericArgs (b := b) hok.1, (h _ _ _ rfl).body (b := b) hok.2 name gs]
    with n hargs hbody
  refine ReadsTo.call _ ?_
  rw [copToks, structToks, List.append_assoc]
  refine (reads_copName name).bind (hargs.bind ?_ fun rest _ => ?_) fun rest _ => ?_
  · exact (reads_check .lBrace (some .lBrace)).look (hbody.last.mono fun _ _ => trivial) fun _ _ => rfl
  · cases gs with
    | nil => simp [NoArgs, braces]
    | cons g gs =>
      refine .inr ⟨?_, rfl⟩
      cases b with
      | false => rfl
      | true => cases hgs rfl
  · cases gs <;> simp [typeArgToks, braces, brackets]

theorem goodInit_variant {name : Path String} {as : List (Arg String String)} (h : GoodArgs as) :
    GoodInit (.variant name as) := by
  intro b d hoks
  filter_upwards [h.call (b := b) hoks] with n hcall
  refine ReadsTo.call _ ?_
  cases as with
  | nil =>
    refine (reads_copName name).bind ?_ fun rest hrest => by simp [hrest]
    refine (reads_noArgs (knot n)).look ?_ fun rest hrest => by simp [NoArgs, hrest]
    refine (reads_check_ne .lBrace).look ?_ fun rest hrest => by simp [hrest]
    refine (reads_check_ne .lParen).look (.pure _) fun rest hrest => by simp [hrest]
  | cons a as =>
    refine (reads_copName name).bind ?_ fun rest hrest => by simp [parens]
    refine (reads_noArgs (knot n)).look ?_ fun rest hrest => by simp [NoArgs, parens]
    refine (reads_check_ne .lBrace).look ?_ fun rest hrest => by simp [parens]
    exact (reads_check .lParen (some .lParen)).look (hcall.last.mono fun _ _ => trivial) fun _ _ => rfl

theorem good_cop {init : CopInit String String} {crib : PExpr} (hinit : GoodInit init)
    (hcrib : Good crib) : Good (.cop init crib) := by
  refine fun b => .ofPrimary rfl fun d hok => ?_
  obtain ⟨hoki, hokc, htail⟩ := hok
  have hcop : ∀ᶠ n in atTop,
      Reads (Parser.copExpr (knot n)) b d (exprToks b (.cop init crib)) (Stop b) (.cop init crib) := by
    filter_upwards [hinit b d hoki, hcrib.postfixExpr hokc htail] with n hi hc
    refine ReadsTo.call _ ?_
    refine (reads_expect (F := fun _ => True) .cop).take ?_ fun _ _ => trivial
    refine hi.bind ?_ fun _ _ => rfl
    exact (reads_expect (F := fun _ => True) .inKw).take hc.last fun _ _ => trivial
  filter_upwards [through_knot hcop] with n hn
  obtain ⟨n, rfl⟩ := Nat.exists_eq_succ_of_ne_zero hn.2
  refine ReadsTo.call _ ((reads_peek (some .cop)).look ?_ fun _ _ => rfl)
  exact (reads_peek (some .cop)).look hn.1 fun _ _ => rfl

end Cops

section Operators

theorem good_unary {op : UnOp} {x : PExpr} (hx : Good x) : Good (.unary op x) := by
  intro b
  refine ⟨fun d _ hunary => absurd rfl hunary, fun d hok _ => ?_, fun d _ hprec => by cases hprec⟩
  obtain ⟨hd, hok⟩ := hok
  have hop : unOp (some (unopTok op)) = some op := by cases op <;> rfl
  filter_upwards [hx.operand (by decide) (Nat.le_refl _) hok] with n hn
  have hread : Reads (unaryExprInner (knot n)) b (d - 1) (exprToks b (.unary op x)) (Follow precUnary b)
      (.unary op x) := by
    refine ReadsTo.call _ ((reads_peek (some (unopTok op))).look ?_ fun _ _ => rfl)
    rw [hop]
    exact (reads_advance (F := fun _ => True) (unopTok op)).take (ReadsTo.last hn) fun _ _ => trivial
  have hguarded := hread.guarded.call .unaryExpr
  rwa [Nat.sub_add_cancel hd] at hguarded

/-- The left operand of a level, before the loop goes on. -/
theorem Good.left {x : PExpr} (h : Good x) {p : Nat} (hp : 1 ≤ p) (hp' : p ≤ precCast)
    (hok : OperandOk (fun d b => ExprOk d b x) x p d b) : ∃ s, ∀ᶠ n in atTop,
      Spine s (below (knot n) p) (body (knot n) p) b d
        (operandToks (fun ns => exprToks ns x) (exprPrec x < p) b) (Follow (p + 1) b) x := by
  have hpost : p ≠ precPostfix := by simp only [precPostfix, precCast] at *; omega
  by_cases hprec : exprPrec x = p
  · subst hprec
    have hunary : exprPrec x ≠ precUnary := by simp only [precUnary, precCast] at *; omega
    rw [OperandOk, if_neg (Nat.lt_irrefl _), if_neg fun hboth => hpost hboth.1] at hok
    obtain ⟨s, hs⟩ := (h b).spine d hok hunary
    have hafter : After (exprPrec x) b x = Follow (exprPrec x + 1) b := by
      funext rest
      rw [After, if_neg hpost]
    rw [decide_eq_false (Nat.lt_irrefl _)]
    refine ⟨s, ?_⟩
    filter_upwards [hs] with n hn
    rwa [hafter] at hn
  · have hlevel : p + 1 ≠ precPostfix := by simp only [precPostfix, precCast] at *; omega
    have hokBelow : OperandOk (fun d b => ExprOk d b x) x (p + 1) d b := by
      rw [OperandOk, if_neg hpost] at hok
      rw [OperandOk, if_neg hlevel]
      by_cases hlt : exprPrec x < p
      · rw [if_pos hlt] at hok
        rwa [if_pos (by omega)]
      · rw [if_neg hlt] at hok
        rw [if_neg (by omega)]
        have hlt' : p < precPostfix ↔ p + 1 < precPostfix := by
          simp only [precPostfix, precCast] at *
          omega
        simpa only [hlt'] using hok
    have hparen : decide (exprPrec x < p) = decide (exprPrec x < p + 1) := by
      apply decide_eq_decide.mpr
      omega
    have hread := h.operand (p := p + 1) (by omega) (by simp only [precUnary, precCast] at *; omega) hokBelow
    refine ⟨0, ?_⟩
    filter_upwards [hread] with n hn
    rw [below, if_neg hpost, hparen]
    exact hn.spine

theorem binopTok_inj {op op' : BinOp} (h : binopTok op = binopTok op') : op = op' := by
  cases op <;> cases op' <;> first | rfl | cases h

theorem binopTok_ne (op : BinOp) :
    binopTok op ∉ [.dot, .lParen, .lBracket, .lBrace, .asKw] := by
  cases op <;> simp [binopTok]

/-- The operator itself stops its operands. -/
theorem follow_binop (op : BinOp) (rest : List Token) :
    Follow (binopPrec op + 1) b (binopTok op :: rest) := by
  have hne := binopTok_ne op
  simp only [List.mem_cons, List.not_mem_nil, or_false, not_or] at hne
  obtain ⟨hdot, hparen, hbracket, hbrace, has⟩ := hne
  refine ⟨⟨by simpa using hdot, by simpa using hparen, by simpa using hbracket,
    fun _ => by simpa using hbrace⟩, fun op' h => ?_, fun _ => by simpa using has⟩
  cases binopTok_inj (Option.some.inj h)
  exact Nat.lt_succ_self _

theorem good_binary {op : BinOp} {l r : PExpr} (hl : Good l) (hr : Good r) : Good (.binary op l r) := by
  intro b
  obtain ⟨hpos, hle⟩ := binopPrec_bounds op
  have hpost : binopPrec op ≠ precPostfix := by simp only [precPostfix]; omega
  have hcast : binopPrec op ≠ precCast := by simp only [precCast]; omega
  refine ⟨fun d hok _ => ?_, fun d _ hprec => ?_, fun d _ hprec => absurd hprec hpost⟩
  · obtain ⟨hokl, hokr⟩ := hok
    obtain ⟨s, hspine⟩ := hl.left hpos (by simp only [precCast]; omega) hokl
    refine ⟨s + 1, ?_⟩
    filter_upwards [hspine, hr.operand (by omega) (by simp only [precUnary]; omega) hokr] with n hn hright
    have hafter : After (exprPrec (.binary op l r)) b (.binary op l r) = Follow (binopPrec op + 1) b := by
      funext rest
      exact if_neg hpost
    rw [hafter]
    refine hn.step ?_ fun rest _ => follow_binop op _
    rw [body, if_neg hpost, if_neg hcast]
    refine (reads_peek (some (binopTok op))).look ?_ fun _ _ => rfl
    rw [levelOp_self]
    refine (reads_advance (F := fun _ => True) (binopTok op)).take ?_ fun _ _ => trivial
    have hparen : decide (exprPrec r ≤ binopPrec op) = decide (exprPrec r < binopPrec op + 1) :=
      decide_eq_decide.mpr Nat.lt_succ_iff.symm
    rw [hparen]
    exact hright.last
  · simp only [exprPrec, precUnary] at hprec
    omega

theorem good_cast {x : PExpr} {ty : Ty String} (hx : Good x) : Good (.cast x ty) := by
  intro b
  refine ⟨fun d hok _ => ?_, fun d _ hprec => (nomatch hprec), fun d _ hprec => (nomatch hprec)⟩
  obtain ⟨hok, hty⟩ := hok
  obtain ⟨s, hspine⟩ := hx.left (by decide) (Nat.le_refl _) hok
  have has (rest : List Token) : Follow (precCast + 1) b (.asKw :: rest) := by
    refine ⟨by simp [Stop], fun op h => ?_, fun h => absurd h (by decide)⟩
    cases op <;> cases h
  refine ⟨s + 1, ?_⟩
  filter_upwards [hspine, (goodTy ty).plain (b := b) hty] with n hn htype
  have hafter : After (exprPrec (.cast x ty)) b (.cast x ty) = Follow (precCast + 1) b := by
    funext rest
    exact if_neg (show precCast ≠ precPostfix by decide)
  rw [hafter]
  refine hn.step ?_ fun rest _ => has _
  rw [body, if_neg (by decide), if_pos rfl]
  refine (reads_eat (F := fun _ => True) .asKw).take ?_ fun _ _ => trivial
  have hlast := htype.mono fun rest (hrest : Follow (precCast + 1) b rest) =>
    (⟨hrest.1.1, hrest.1.2.2.1⟩ : TyEnd rest)
  exact hlast.last

end Operators

section Trees

mutual

theorem good_expr : ∀ e : PExpr, Good e
  | .int _ => good_literal rfl (fun _ => rfl) rfl
  | .float _ => good_literal rfl (fun _ => rfl) rfl
  | .str _ => good_literal rfl (fun _ => rfl) rfl
  | .byte _ => good_literal rfl (fun _ => rfl) rfl
  | .bool true => good_literal rfl (fun _ => rfl) rfl
  | .bool false => good_literal rfl (fun _ => rfl) rfl
  | .ghosted => good_literal rfl (fun _ => rfl) rfl
  | .name _ _ => good_name
  | .unary _ x => good_unary (good_expr x)
  | .binary _ l r => good_binary (good_expr l) (good_expr r)
  | .cast x _ => good_cast (good_expr x)
  | .field base _ _ => good_field (good_expr base)
  | .method receiver _ _ args => good_method (good_expr receiver) (good_args args)
  | .call callee args => good_call (good_expr callee) (good_args args)
  | .index base index => good_index (good_expr base) (good_expr index)
  | .trust tag crib => good_trust (good_expr tag) (good_expr crib)
  | .struct (.mk _ _ fields) => good_struct fun _ _ _ h => by
      cases h
      exact good_fields fields
  | .array elems => good_array (good_elems elems)
  | .cop (.struct (.mk _ _ fields)) crib =>
    good_cop (goodInit_struct fun _ _ _ h => by
      cases h
      exact good_fields fields) (good_expr crib)
  | .cop (.variant _ args) crib => good_cop (goodInit_variant (good_args args)) (good_expr crib)

theorem good_elems : ∀ es : List PExpr, GoodElems es
  | [] => goodElems_nil
  | e :: es => goodElems_cons (good_expr e) (good_elems es)

theorem good_args : ∀ as : List (Arg String String), GoodArgs as
  | [] => goodArgs_nil
  | .mk _ value :: as => goodArgs_cons (good_expr value) (good_args as)

theorem good_fields : ∀ fs : List (FieldInit String String), GoodFields fs
  | [] => goodFields_nil
  | .mk _ value :: fs => goodFields_cons (good_expr value) (good_fields fs)

end

end Trees

end BetLang.Fmt
