import BetLang.FormatExprs

/-! The parser reads the canonical form of a statement. -/

namespace BetLang.Fmt

open Filter (atTop)
open Lexer (Token)
open BetLang.Parser
open Surface

variable {d : Nat}

section Shapes

/-- An expression where struct literals are on, or before a block, where they are off. -/
abbrev WholeOk (d : Nat) (e : PExpr) : Prop := TopOk (fun d b => ExprOk d b e) e d false

abbrev HeaderOk (d : Nat) (e : PExpr) : Prop := TopOk (fun d b => ExprOk d b e) e d true

def OptTyOk (d : Nat) : Option (Ty String) → Prop
  | none => True
  | some t => TyOk d t

def VarOk (d : Nat) (v : VarDecl String String) : Prop :=
  OptTyOk d v.ty ∧ v.values ≠ [] ∧ ElemsOk d v.values

def ConstOk (d : Nat) (c : ConstDecl String String) : Prop := OptTyOk d c.ty ∧ WholeOk d c.value

mutual

/-- The statements that their canonical form stands for. -/
def StmtOk (d : Nat) : PStmt → Prop
  | .var v => v.vis = .hush ∧ VarOk d v
  | .const c => c.vis = .hush ∧ ConstOk d c
  | .crib c => c.vis = .hush ∧ OptTyOk d c.ty
  | .fr cond body elifs els => HeaderOk d cond ∧ BlockOk d body ∧ ElifsOk d elifs ∧ ElseOk d els
  | .vibin cond body => HeaderOk d cond ∧ BlockOk d body
  | .squad _ iter body => HeaderOk d iter ∧ BlockOk d body
  | .vibe scrutinee arms default => HeaderOk d scrutinee ∧ ArmsOk d arms ∧ ElseOk d default
  | .holla _ tag crib live ghosted =>
    WholeOk d tag ∧ HeaderOk d crib ∧ BlockOk d live ∧ BlockOk d ghosted
  | .sheesh body recover => BlockOk d body ∧ RecoverOk d recover
  | .evict crib none => WholeOk d crib
  | .evict crib (some tag) => WholeOk d tag ∧ WholeOk d crib
  | .slide e => WholeOk d e
  | .bet vals => ElemsOk d vals
  | .bounce e => WholeOk d e
  | .yeet e => WholeOk d e
  | .dip => True
  | .skip => True
  | .assign targets _ values => targets ≠ [] ∧ ElemsOk d targets ∧ values ≠ [] ∧ ElemsOk d values
  | .expr e => WholeOk d e

def StmtsOk (d : Nat) : List PStmt → Prop
  | [] => True
  | s :: ss => StmtOk d s ∧ StmtsOk d ss

def BlockOk (d : Nat) : PBlock → Prop
  | .mk ss => StmtsOk d ss

def ElifsOk (d : Nat) : List (Elif String String) → Prop
  | [] => True
  | .mk cond body :: rest => HeaderOk d cond ∧ BlockOk d body ∧ ElifsOk d rest

def ElseOk (d : Nat) : Option PBlock → Prop
  | none => True
  | some body => BlockOk d body

def ArmsOk (d : Nat) : List (MatchArm String String) → Prop
  | [] => True
  | .mk _ _ body :: rest => BlockOk d body ∧ ArmsOk d rest

def RecoverOk (d : Nat) : Option (Recover String String) → Prop
  | none => True
  | some (.mk _ body) => BlockOk d body

end

end Shapes

section Heads

/-- What stands behind a statement. -/
abbrev StmtEnd (rest : List Token) : Prop := rest.head? = some .semi

theorem StmtEnd.follow {rest : List Token} (h : StmtEnd rest) : Follow 1 false rest :=
  follow_head h rfl 1 false

theorem reads_header {e : PExpr} (hok : HeaderOk d e) : ∀ᶠ n in atTop,
    Reads (exprHeader (knot n)) false d (exprToks true e) (fun rest => rest.head? = some .lBrace) e := by
  filter_upwards [knot_expr ((good_expr e true).top hok)] with n hn
  refine ReadsTo.call _ (ReadsTo.withNoStruct (ReadsTo.mono hn fun rest hrest => ?_))
  cases rest with
  | nil => cases hrest
  | cons t rest =>
    cases Option.some.inj hrest
    refine ⟨by simp [Stop], fun op hop => ?_, fun _ => by simp⟩
    cases op <;> cases hop

theorem reads_whole {e : PExpr} (hok : WholeOk d e) : ∀ᶠ n in atTop,
    Reads (knot n).expr false d (exprToks false e) (Follow 1 false) e := (good_expr e).goodTop hok

theorem reads_values {es : List PExpr} (hne : es ≠ []) (hok : ElemsOk d es) : ∀ᶠ n in atTop,
    Reads (Parser.exprList (knot n)) false d (exprListToks es) StmtEnd es := by
  filter_upwards [good_elems es d hok, Filter.eventually_ge_atTop es.length] with n hn hlen
  refine ReadsTo.call _ (ReadsTo.commaList hn hne (by rwa [knot_fuel]) (fun _ => ?_) fun rest hrest => ?_)
  · exact follow_cons rfl _ 1 false
  · exact ⟨hrest.follow, by simp [hrest]⟩

theorem reads_optType {t : Option (Ty String)} (hok : OptTyOk d t) : ∀ᶠ n in atTop,
    Reads (Parser.optType (knot n)) false d (optTypeToks t)
      (fun rest => rest.head? = some .eq ∨ rest.head? = some .semi) t := by
  cases t with
  | none =>
    refine Filter.Eventually.of_forall fun n => (reads_opt_none .colon _).mono fun rest hrest => ?_
    rcases hrest with h | h <;> simp [h]
  | some t =>
    filter_upwards [(goodTy t).plain (b := false) hok] with n hn
    refine (hn.opt .colon).mono fun rest hrest => ?_
    rcases hrest with h | h <;> simp [TyEnd, h]

end Heads

section Declarations

/-- Names, each behind a comma. -/
theorem reads_names {n : Nat} {ss : List String} (hn : ss.length < n) (o : List String) :
    Reads (whileEat n .comma ident o) false d (ss.flatMap fun s => [.comma, .ident s])
      (fun rest => rest.head? ≠ some .comma) (o ++ ss) := by
  have hmembers : List.Forall₂ (fun s toks => Reads ident false d toks (fun _ => True) s) ss
      (ss.map fun s => [Token.ident s]) :=
    List.forall₂_map_right_iff.mpr (List.forall₂_same.mpr fun s _ => reads_ident s)
  have h := ReadsTo.whileEat (o := o) hmembers hn (fun _ => trivial) fun _ hrest => ⟨trivial, hrest⟩
  rwa [List.flatMap_map] at h

theorem names_cons (s : String) (ss : List String) :
    names (s :: ss) = .ident s :: ss.flatMap fun s => [.comma, .ident s] := by
  simp [names, commaToks, List.flatMap_map]

theorem reads_cribDecl {c : CribDecl String} (hok : OptTyOk d c.ty) : ∀ᶠ n in atTop,
    Reads (Parser.cribDecl (knot n) c.vis) false d (cribDeclToks c) StmtEnd c := by
  filter_upwards [reads_optType hok] with n hn
  refine ReadsTo.call _ ?_
  refine (reads_expect (F := fun _ => True) .crib).take ?_ fun _ _ => trivial
  refine (reads_ident (F := fun _ => True) c.name).take ?_ fun _ _ => trivial
  exact (hn.mono fun _ => .inr).last

theorem reads_constDecl {c : ConstDecl String String} (hok : ConstOk d c) : ∀ᶠ n in atTop,
    Reads (Parser.constDecl (knot n) c.vis) false d (constDeclToks c) StmtEnd c := by
  filter_upwards [reads_optType hok.1, reads_whole hok.2] with n htype hvalue
  refine ReadsTo.call _ ?_
  refine (reads_expect (F := fun _ => True) .facts).take ?_ fun _ _ => trivial
  refine (reads_ident (F := fun _ => True) c.name).take ?_ fun _ _ => trivial
  refine htype.bind ?_ fun _ _ => .inl rfl
  refine (reads_expect (F := fun _ => True) .eq).take ?_ fun _ _ => trivial
  exact (ReadsTo.mono hvalue fun _ (hrest : StmtEnd _) => hrest.follow).last

theorem reads_varDecl {v : VarDecl String String} (hok : VarOk d v) : ∀ᶠ n in atTop,
    Reads (Parser.varDecl (knot n) v.vis) false d (varDeclToks v) StmtEnd v := by
  obtain ⟨hty, hne, hvalues⟩ := hok
  filter_upwards [reads_optType hty, reads_values hne hvalues,
    Filter.eventually_gt_atTop v.targets.length] with n htype hn hlen
  refine ReadsTo.call _ ?_
  rw [varDeclToks, names_cons, List.append_assoc]
  refine (reads_expect (F := fun _ => True) .lowkey).take ?_ fun _ _ => trivial
  refine (reads_ident (F := fun _ => True) v.target).take ?_ fun _ _ => trivial
  refine (reads_names (by rwa [knot_fuel]) []).bind ?_ fun _ _ => ?_
  · refine htype.bind ?_ fun _ _ => .inl rfl
    exact (reads_expect (F := fun _ => True) .eq).take hn.last fun _ _ => trivial
  · cases v.ty <;> simp [optTypeToks]

end Declarations

section Blocks

theorem knot_block {bl : PBlock} {ts : List Token} {F : List Token → Prop}
    (h : ∀ᶠ n in atTop, Reads (block (knot n)) false d ts F bl) :
    ∀ᶠ n in atTop, Reads (knot n).block false d ts F bl := by
  filter_upwards [through_knot h] with n hn
  obtain ⟨n, rfl⟩ := Nat.exists_eq_succ_of_ne_zero hn.2
  exact hn.1

def GoodStmt (d : Nat) (s : PStmt) : Prop :=
  StmtOk d s → ∀ᶠ n in atTop, Reads (Parser.stmt (knot n)) false d (stmtToks s) StmtEnd s

def GoodStmts (d : Nat) (ss : List PStmt) : Prop :=
  StmtsOk d ss → ∀ᶠ n in atTop,
    List.Forall₂ (fun s toks => Reads (Parser.stmt (knot n)) false d toks StmtEnd s) ss (ss.map stmtToks)

def GoodBlock (d : Nat) (bl : PBlock) : Prop :=
  BlockOk d bl → ∀ᶠ n in atTop,
    Reads (knot n).block false d (braces (blockToks bl)) (fun _ => True) bl

theorem goodStmts_nil : GoodStmts d [] := fun _ => Filter.Eventually.of_forall fun _ => .nil

theorem goodStmts_cons {s : PStmt} {ss : List PStmt} (hs : GoodStmt d s) (hss : GoodStmts d ss) :
    GoodStmts d (s :: ss) := by
  rintro ⟨hok, hoks⟩
  filter_upwards [hs hok, hss hoks] with n h hrest
  exact .cons h hrest

theorem exprList_head {es : List PExpr} (hne : es ≠ []) :
    ∃ t ts, exprListToks es = t :: ts ∧ starts t = true := by
  obtain ⟨e, es, rfl⟩ := List.exists_cons_of_ne_nil hne
  exact append_head (exprToks_head e false)

theorem stmtToks_head {s : PStmt} (hok : StmtOk d s) :
    ∃ t ts, stmtToks s = t :: ts ∧ t ≠ .rBrace ∧ t ≠ .semi := by
  cases s with
  | var v =>
    obtain ⟨hvis, -⟩ := hok
    exact ⟨.lowkey, _, by rw [stmtToks, hvis]; rfl, by simp⟩
  | const c =>
    obtain ⟨hvis, -⟩ := hok
    exact ⟨.facts, _, by rw [stmtToks, hvis]; rfl, by simp⟩
  | crib c =>
    obtain ⟨hvis, -⟩ := hok
    exact ⟨.crib, _, by rw [stmtToks, hvis]; rfl, by simp⟩
  | evict crib tag => cases tag <;> exact ⟨.evict, _, rfl, by simp⟩
  | assign targets op values =>
    obtain ⟨hne, -⟩ := hok
    obtain ⟨t, ts, htoks, ht⟩ := append_head (r := assignTok op :: exprListToks values)
      (exprList_head hne)
    exact ⟨t, ts, htoks, starts_ne ht rfl, starts_ne ht rfl⟩
  | expr e =>
    obtain ⟨t, ts, htoks, ht⟩ := exprToks_head e false
    exact ⟨t, ts, htoks, starts_ne ht rfl, starts_ne ht rfl⟩
  | _ => exact ⟨_, _, rfl, by simp⟩

theorem stmtsToks_eq (ss : List PStmt) : stmtsToks ss = (ss.map stmtToks).flatMap (· ++ [.semi]) := by
  induction ss with
  | nil => rfl
  | cons s ss ih => simp [stmtsToks, ih]

theorem goodBlock_mk {ss : List PStmt} (h : GoodStmts d ss) : GoodBlock d (.mk ss) := by
  intro hoks
  refine knot_block ?_
  filter_upwards [h hoks, Filter.eventually_gt_atTop ss.length, Filter.eventually_gt_atTop 1]
    with n hn hlen hone
  have hfuel : 1 < (knot n).fuel := by rwa [knot_fuel]
  have hheads : ∀ s ∈ ss, StmtOk d s := by
    clear h hn hlen
    induction ss with
    | nil => simp
    | cons s ss ih => exact List.forall_mem_cons.mpr ⟨hoks.1, ih hoks.2⟩
  have hround : List.Forall₂ (fun s toks => ∀ o w, Pending w →
      Reads (do
        skipSemis (knot n).fuel
        if ← closing then pure (.inr o)
        else do pure (.inl (o ++ [← Parser.stmt (knot n)]))) false d (w ++ toks) StmtEnd
          (.inl (o ++ [s]) : List PStmt ⊕ List PStmt)) ss (ss.map stmtToks) := by
    refine List.forall₂_map_right_iff.mpr (List.forall₂_same.mpr fun s hs o w hw => ?_)
    obtain ⟨t, ts, htoks, hbrace, hsemi⟩ := stmtToks_head (hheads s hs)
    have hread := List.forall₂_same.mp (List.forall₂_map_right_iff.mp hn) s hs
    rw [htoks] at hread ⊢
    refine (reads_skipPending hw hfuel).bind ?_ fun _ _ => by simpa using hsemi
    exact (reads_closing_ne hbrace).look hread.last fun _ _ => rfl
  have hlist := reads_members (e := []) (o := []) (w := []) (n := (knot n).fuel)
    (F := fun rest => rest.head? = some .rBrace) (c := ss) hround (fun w hw => ?_)
    (by rwa [knot_fuel]) (.inl rfl)
  · refine ReadsTo.call _ ?_
    refine (reads_expect (F := fun _ => True) .lBrace).take ?_ fun _ _ => trivial
    rw [blockToks, stmtsToks_eq]
    refine .toks (l := [] ++ ((ss.map stmtToks).flatMap (· ++ [.semi]) ++ []) ++ [.rBrace]) (by simp) ?_
    exact hlist.bind (reads_expect .rBrace).last fun _ _ => rfl
  · refine (reads_skipPending hw hfuel).bind ?_ fun rest hrest => by simp [hrest]
    exact reads_closing.look (.pure _) fun _ hrest => hrest

end Blocks

section Branches

def GoodElse (d : Nat) (els : Option PBlock) : Prop := ∀ body, els = some body → GoodBlock d body

theorem goodElse_none : GoodElse d none := nofun

theorem goodElse_some {body : PBlock} (h : GoodBlock d body) : GoodElse d (some body) := by
  rintro _ ⟨⟩
  exact h

def GoodElifs (d : Nat) (es : List (Elif String String)) : Prop :=
  ∀ els, GoodElse d els → ElifsOk d es → ElseOk d els → ∀ᶠ n in atTop, ∀ o m, es.length < m →
    Reads (loop m (fun out => do
      if ← eat .naw then
        if ← eat .fr then do
          let cond ← exprHeader (knot n)
          let body ← (knot n).block
          pure (.inl (out ++ [.mk cond body]))
        else do pure (.inr (out, some (← (knot n).block)))
      else pure (.inr (out, none))) o) false d (elifToks es ++ elseToks els) StmtEnd (o ++ es, els)

theorem goodElifs_nil : GoodElifs d [] := by
  intro els hels _ hok
  cases els with
  | none =>
    refine Filter.Eventually.of_forall fun n o m hm => ?_
    obtain ⟨m, rfl⟩ := Nat.exists_eq_succ_of_ne_zero (by omega : m ≠ 0)
    rw [List.append_nil]
    refine .done ((reads_eat_ne .naw).look (.pure _) fun rest (hrest : StmtEnd rest) => ?_)
    simp [elifToks, elseToks, hrest]
  | some body =>
    filter_upwards [hels body rfl hok] with n hn o m hm
    obtain ⟨m, rfl⟩ := Nat.exists_eq_succ_of_ne_zero (by omega : m ≠ 0)
    rw [List.append_nil]
    refine .done ((reads_eat (F := fun _ => True) .naw).take ?_ fun _ _ => trivial)
    exact (reads_eat_ne .fr).look (hn.last.mono fun _ _ => trivial) fun _ _ => by simp [braces]

theorem goodElifs_cons {cond : PExpr} {body : PBlock} {es : List (Elif String String)}
    (hbody : GoodBlock d body) (hes : GoodElifs d es) : GoodElifs d (.mk cond body :: es) := by
  rintro els hels ⟨hcond, hok, hoks⟩ hokElse
  filter_upwards [reads_header hcond, hbody hok, hes els hels hoks hokElse] with n hc hb hrest o m hm
  obtain ⟨m, rfl⟩ := Nat.exists_eq_succ_of_ne_zero (by omega : m ≠ 0)
  have hlast := hrest (o ++ [.mk cond body]) m (by simp at hm; omega)
  rw [List.append_assoc, List.singleton_append] at hlast
  refine .toks (l := (.naw :: .fr :: (exprToks true cond ++ braces (blockToks body))) ++
    (elifToks es ++ elseToks els)) (by simp [elifToks]) ?_
  refine ReadsTo.next (G := fun _ => True) ?_ hlast fun _ _ => trivial
  refine (reads_eat (F := fun _ => True) .naw).take ?_ fun _ _ => trivial
  refine (reads_eat (F := fun _ => True) .fr).take ?_ fun _ _ => trivial
  exact hc.bind hb.last fun _ _ => rfl

def bindingToks (bs : List String) : List Token := if bs.isEmpty then [] else parens (names bs)

theorem reads_nameList {n : Nat} {s : String} {ss : List String} (hn : ss.length < n) :
    Reads (commaList n ident) false d (names (s :: ss)) (fun rest => rest.head? ≠ some .comma) (s :: ss) := by
  rw [names_cons]
  exact (reads_ident (F := fun _ => True) s).take (reads_names hn [s]) fun _ _ => trivial

theorem reads_bindings {n : Nat} {bs : List String} (hn : bs.length ≤ n) :
    Reads (bindings (knot n)) false d (bindingToks bs) (fun rest => rest.head? = some .lBrace) bs := by
  cases bs with
  | nil => exact (reads_eat_ne .lParen).look (.pure _) fun rest hrest => by simp [bindingToks, hrest]
  | cons s ss =>
    refine (reads_eat (F := fun _ => True) .lParen).take ?_ fun _ _ => trivial
    have hlen : ss.length < (knot n).fuel := by rw [knot_fuel]; simp at hn; omega
    have hnames := reads_nameList (d := d) (s := s) hlen
    exact hnames.bind (reads_expect .rParen).last fun _ _ => by simp

def armTok : MatchArm String String → List Token
  | .mk variant bs body => pathToks variant ++ (bindingToks bs ++ braces (blockToks body))

theorem armToks_eq : ∀ as : List (MatchArm String String),
    armToks as = (as.map armTok).flatMap (· ++ [.semi])
  | [] => rfl
  | .mk variant bs body :: as => by simp [armToks, armTok, bindingToks, armToks_eq as]

def GoodArms (d : Nat) (as : List (MatchArm String String)) : Prop :=
  ArmsOk d as → ∀ᶠ n in atTop,
    List.Forall₂ (fun a toks => Reads (matchArm (knot n)) false d toks (fun _ => True) a) as (as.map armTok)

theorem goodArms_nil : GoodArms d [] := fun _ => Filter.Eventually.of_forall fun _ => .nil

theorem goodArms_cons {variant : Path String} {bs : List String} {body : PBlock}
    {as : List (MatchArm String String)} (hbody : GoodBlock d body) (has : GoodArms d as) :
    GoodArms d (.mk variant bs body :: as) := by
  rintro ⟨hok, hoks⟩
  filter_upwards [hbody hok, has hoks, Filter.eventually_ge_atTop bs.length] with n hn hrest hlen
  refine .cons (ReadsTo.call _ ?_) hrest
  have htail : Reads (do
      let names ← bindings (knot n)
      let body ← (knot n).block
      pure (MatchArm.mk variant names body)) false d (bindingToks bs ++ braces (blockToks body))
        (fun _ => True) (.mk variant bs body) := (reads_bindings hlen).bind hn.last fun _ _ => rfl
  have hdot : ∀ rest : List Token,
      (bindingToks bs ++ braces (blockToks body) ++ rest).head? ≠ some .dot := by
    intro rest
    cases bs <;> simp [bindingToks, braces, parens]
  have hpath := (reads_ident (b := false) (d := d) (F := fun _ => True) variant.head).take
    (f := fun s => dotted s >>= fun variant => do
      let names ← bindings (knot n)
      let body ← (knot n).block
      pure (MatchArm.mk variant names body))
    (ReadsTo.bind (reads_dotted variant) htail fun rest _ => hdot rest) fun _ _ => trivial
  refine .toks ?_ hpath
  obtain ⟨head, member⟩ := variant
  cases member <;> rfl

def GoodRecover (d : Nat) (r : Option (Recover String String)) : Prop :=
  RecoverOk d r → ∀ᶠ n in atTop,
    Reads (opt .naw (recovery (knot n))) false d (recoverToks r) StmtEnd r

theorem goodRecover_none : GoodRecover d none := by
  refine fun _ => Filter.Eventually.of_forall fun n => ?_
  exact (reads_opt_none .naw _).mono fun rest (hrest : StmtEnd rest) => by simp [hrest]

theorem goodRecover_some {s : String} {body : PBlock} (h : GoodBlock d body) :
    GoodRecover d (some (.mk s body)) := by
  intro hok
  filter_upwards [h hok] with n hn
  refine ReadsTo.opt .naw ?_
  refine (reads_ident (F := fun _ => True) s).take ?_ fun _ _ => trivial
  exact hn.last.mono fun _ _ => trivial

end Branches

section Statements

variable {body live ghosted : PBlock} {els : Option PBlock} {cond e tag crib : PExpr}

/-- A statement that begins with an expression. -/
theorem reads_exprStmt {n : Nat} {s : PStmt} {ts : List Token}
    (h : Reads (exprOrAssign (knot n)) false d ts StmtEnd s)
    (hhead : ∃ t ts', ts = t :: ts' ∧ starts t = true) :
    Reads (Parser.stmt (knot n)) false d ts StmtEnd s := by
  obtain ⟨t, ts', rfl, ht⟩ := hhead
  refine ReadsTo.call _ ((reads_peek (some t)).look ?_ fun _ _ => rfl)
  cases t <;> first | exact h | cases ht

theorem goodStmt_fr {elifs : List (Elif String String)} (hbody : GoodBlock d body)
    (helifs : GoodElifs d elifs) (hels : GoodElse d els) : GoodStmt d (.fr cond body elifs els) := by
  rintro ⟨hcond, hok, hoks, hokElse⟩
  filter_upwards [reads_header hcond, hbody hok, helifs els hels hoks hokElse,
    Filter.eventually_gt_atTop elifs.length] with n hc hb hbranches hlen
  refine ReadsTo.call _ ((reads_peek (some .fr)).look (ReadsTo.call _ ?_) fun _ _ => rfl)
  refine (reads_expect (F := fun _ => True) .fr).take ?_ fun _ _ => trivial
  rw [List.append_assoc, List.append_assoc]
  refine hc.bind (hb.bind ?_ fun _ _ => trivial) fun _ _ => rfl
  exact (hbranches [] (knot n).fuel (by rwa [knot_fuel])).last

theorem goodStmt_vibin (hbody : GoodBlock d body) : GoodStmt d (.vibin cond body) := by
  rintro ⟨hcond, hok⟩
  filter_upwards [reads_header hcond, hbody hok] with n hc hb
  refine ReadsTo.call _ ((reads_peek (some .vibin)).look (ReadsTo.call _ ?_) fun _ _ => rfl)
  refine (reads_expect (F := fun _ => True) .vibin).take ?_ fun _ _ => trivial
  exact hc.bind (hb.last.mono fun _ _ => trivial) fun _ _ => rfl

theorem goodStmt_squad {s : String} (hbody : GoodBlock d body) : GoodStmt d (.squad s cond body) := by
  rintro ⟨hcond, hok⟩
  filter_upwards [reads_header hcond, hbody hok] with n hc hb
  refine ReadsTo.call _ ((reads_peek (some .squad)).look (ReadsTo.call _ ?_) fun _ _ => rfl)
  refine (reads_expect (F := fun _ => True) .squad).take ?_ fun _ _ => trivial
  refine (reads_ident (F := fun _ => True) s).take ?_ fun _ _ => trivial
  refine (reads_expect (F := fun _ => True) .inKw).take ?_ fun _ _ => trivial
  exact hc.bind (hb.last.mono fun _ _ => trivial) fun _ _ => rfl

theorem goodStmt_holla {s : String} (hlive : GoodBlock d live) (hghosted : GoodBlock d ghosted) :
    GoodStmt d (.holla s tag crib live ghosted) := by
  rintro ⟨htag, hcrib, hokLive, hokGhosted⟩
  filter_upwards [reads_whole htag, reads_header hcrib, hlive hokLive, hghosted hokGhosted]
    with n ht hc hl hg
  refine ReadsTo.call _ ((reads_peek (some .holla)).look (ReadsTo.call _ ?_) fun _ _ => rfl)
  refine (reads_expect (F := fun _ => True) .holla).take ?_ fun _ _ => trivial
  refine (reads_ident (F := fun _ => True) s).take ?_ fun _ _ => trivial
  refine (reads_expect (F := fun _ => True) .eq).take ?_ fun _ _ => trivial
  refine ReadsTo.bind ht ?_ fun rest _ => follow_cons rfl _ 1 false
  refine (reads_expect (F := fun _ => True) .inKw).take ?_ fun _ _ => trivial
  rw [List.append_assoc]
  refine hc.bind (hl.bind ?_ fun _ _ => trivial) fun _ _ => rfl
  refine (reads_expect (F := fun _ => True) .ghosted).take ?_ fun _ _ => trivial
  exact hg.last.mono fun _ _ => trivial

theorem goodStmt_sheesh {recover : Option (Recover String String)} (hbody : GoodBlock d body)
    (hrecover : GoodRecover d recover) : GoodStmt d (.sheesh body recover) := by
  rintro ⟨hok, hokRecover⟩
  filter_upwards [hbody hok, hrecover hokRecover] with n hb hr
  refine ReadsTo.call _ ((reads_peek (some .sheesh)).look (ReadsTo.call _ ?_) fun _ _ => rfl)
  refine (reads_expect (F := fun _ => True) .sheesh).take ?_ fun _ _ => trivial
  exact hb.bind hr.last fun _ _ => trivial

theorem armTok_head (a : MatchArm String String) : ∃ s ts, armTok a = .ident s :: ts := by
  obtain ⟨variant, bs, body⟩ := a
  obtain ⟨ts, hts⟩ := pathToks_head variant
  exact ⟨variant.head, ts ++ (bindingToks bs ++ braces (blockToks body)), by rw [armTok, hts]; rfl⟩

/-- The arms, with the default behind them. -/
theorem reads_vibeArms {as : List (MatchArm String String)} (has : GoodArms d as) (hels : GoodElse d els)
    (hok : ArmsOk d as) (hokElse : ElseOk d els) : ∀ᶠ n in atTop,
    Reads (vibeArms (knot n)) false d (armToks as ++ defaultToks els)
      (fun rest => rest.head? = some .rBrace) (as, els) := by
  have hdefault : ∀ᶠ n in atTop, ∀ body, els = some body →
      Reads (knot n).block false d (braces (blockToks body)) (fun _ => True) body := by
    cases els with
    | none => exact Filter.Eventually.of_forall fun n => nofun
    | some body =>
      filter_upwards [hels body rfl hokElse] with n hn
      rintro _ ⟨⟩
      exact hn
  filter_upwards [has hok, hdefault, Filter.eventually_gt_atTop as.length, Filter.eventually_gt_atTop 1]
    with n hn hblock hlen hone
  have hfuel : 1 < (knot n).fuel := by rwa [knot_fuel]
  rw [armToks_eq]
  refine reads_members (o := []) (w := []) ?_ (fun w hw => ?_) (by rwa [knot_fuel]) (.inl rfl)
  · refine List.forall₂_map_right_iff.mpr (List.forall₂_same.mpr fun a ha o w hw => ?_)
    have hread := List.forall₂_same.mp (List.forall₂_map_right_iff.mp hn) a ha
    obtain ⟨s, ts, htoks⟩ := armTok_head a
    rw [htoks] at hread ⊢
    refine (reads_skipPending hw hfuel).bind ?_ fun _ _ => by simp
    refine (reads_closing_ne (t := .ident s) (by simp)).look ?_ fun _ _ => rfl
    refine (reads_eat_ne .naw).look ?_ fun _ _ => by simp
    exact hread.last.mono fun _ _ => trivial
  · cases els with
    | none =>
      refine (reads_skipPending hw hfuel).bind ?_ fun rest hrest => by simp [defaultToks, hrest]
      exact reads_closing.look (.pure _) fun _ hrest => hrest
    | some body =>
      refine (reads_skipPending hw hfuel).bind ?_ fun rest hrest => by simp [defaultToks]
      refine (reads_closing_ne (t := .naw) (by simp)).look ?_ fun _ _ => rfl
      refine (reads_eat (F := fun _ => True) .naw).take ?_ fun _ _ => trivial
      refine ReadsTo.bind (hblock body rfl) ?_ fun _ _ => trivial
      exact (reads_skipPending (.inr rfl) hfuel).last.mono fun rest hrest => by simp [hrest]

theorem goodStmt_vibe {as : List (MatchArm String String)} (has : GoodArms d as)
    (hels : GoodElse d els) : GoodStmt d (.vibe cond as els) := by
  rintro ⟨hcond, hok, hokElse⟩
  filter_upwards [reads_header hcond, reads_vibeArms has hels hok hokElse] with n hc harms
  refine ReadsTo.call _ ((reads_peek (some .vibe)).look (ReadsTo.call _ ?_) fun _ _ => rfl)
  refine (reads_expect (F := fun _ => True) .vibe).take ?_ fun _ _ => trivial
  refine hc.bind ?_ fun _ _ => rfl
  refine (reads_expect (F := fun _ => True) .lBrace).take ?_ fun _ _ => trivial
  exact harms.bind (reads_expect .rBrace).last fun _ _ => rfl

theorem goodStmt_evict {tag : Option PExpr} : GoodStmt d (.evict crib tag) := by
  cases tag with
  | none =>
    intro hok
    filter_upwards [reads_whole hok] with n hn
    refine ReadsTo.call _ ((reads_peek (some .evict)).look ?_ fun _ _ => rfl)
    refine (reads_advance (F := fun _ => True) .evict).take ?_ fun _ _ => trivial
    refine .toks (l := exprToks false crib ++ []) (by simp) ?_
    refine ReadsTo.bind hn ?_ fun rest (hrest : StmtEnd rest) => hrest.follow
    exact (reads_eat_ne .inKw).look (.pure _) fun rest hrest => by simp [hrest]
  | some tag =>
    rintro ⟨hokTag, hok⟩
    filter_upwards [reads_whole hokTag, reads_whole hok] with n ht hn
    refine ReadsTo.call _ ((reads_peek (some .evict)).look ?_ fun _ _ => rfl)
    refine (reads_advance (F := fun _ => True) .evict).take ?_ fun _ _ => trivial
    refine ReadsTo.bind ht ?_ fun rest _ => follow_cons rfl _ 1 false
    refine (reads_eat (F := fun _ => True) .inKw).take ?_ fun _ _ => trivial
    exact (ReadsTo.mono hn fun rest (hrest : StmtEnd rest) => hrest.follow).last

theorem goodStmt_slide : GoodStmt d (.slide e) := by
  intro hok
  filter_upwards [reads_whole hok] with n hn
  refine ReadsTo.call _ ((reads_peek (some .slide)).look ?_ fun _ _ => rfl)
  refine (reads_advance (F := fun _ => True) .slide).take ?_ fun _ _ => trivial
  exact (ReadsTo.mono hn fun rest (hrest : StmtEnd rest) => hrest.follow).last

theorem goodStmt_bounce : GoodStmt d (.bounce e) := by
  intro hok
  filter_upwards [reads_whole hok] with n hn
  refine ReadsTo.call _ ((reads_peek (some .bounce)).look ?_ fun _ _ => rfl)
  refine (reads_advance (F := fun _ => True) .bounce).take ?_ fun _ _ => trivial
  exact (ReadsTo.mono hn fun rest (hrest : StmtEnd rest) => hrest.follow).last

theorem goodStmt_yeet : GoodStmt d (.yeet e) := by
  intro hok
  filter_upwards [reads_whole hok] with n hn
  refine ReadsTo.call _ ((reads_peek (some .yeet)).look ?_ fun _ _ => rfl)
  refine (reads_advance (F := fun _ => True) .yeet).take ?_ fun _ _ => trivial
  refine (reads_expect (F := fun _ => True) .lParen).take ?_ fun _ _ => trivial
  refine ReadsTo.bind hn (reads_expect .rParen).last fun rest _ => ?_
  exact follow_cons rfl _ 1 false

theorem goodStmt_bet {vals : List PExpr} : GoodStmt d (.bet vals) := by
  intro hok
  cases vals with
  | nil =>
    refine Filter.Eventually.of_forall fun n => ?_
    refine ReadsTo.call _ ((reads_peek (some .bet)).look ?_ fun _ _ => rfl)
    refine (reads_advance (F := fun _ => True) .bet).take ?_ fun _ _ => trivial
    have hends : Reads stmtEnds false d [] StmtEnd true :=
      (reads_peek (some .semi)).look (.pure true) fun _ hrest => hrest
    exact hends.look (.pure _) fun _ hrest => hrest
  | cons e es =>
    filter_upwards [reads_values (by simp) hok] with n hn
    refine ReadsTo.call _ ((reads_peek (some .bet)).look ?_ fun _ _ => rfl)
    refine (reads_advance (F := fun _ => True) .bet).take ?_ fun _ _ => trivial
    obtain ⟨t, ts, htoks, ht⟩ := exprList_head (List.cons_ne_nil e es)
    have hends : Reads stmtEnds false d [] (fun rest => rest.head? = some t) false := by
      refine (reads_peek (some t)).look ?_ fun _ hrest => hrest
      cases t <;> first | exact .pure false | cases ht
    rw [htoks] at hn ⊢
    exact hends.look hn.last fun _ _ => rfl

theorem goodStmt_dip : GoodStmt d .dip := fun _ => Filter.Eventually.of_forall fun _ =>
  ReadsTo.call _ ((reads_peek (some .dip)).look (reads_advance .dip).last fun _ _ => rfl)

theorem goodStmt_skip : GoodStmt d .skip := fun _ => Filter.Eventually.of_forall fun _ =>
  ReadsTo.call _ ((reads_peek (some .skip)).look (reads_advance .skip).last fun _ _ => rfl)

theorem goodStmt_var {v : VarDecl String String} : GoodStmt d (.var v) := by
  rintro ⟨hvis, hok⟩
  filter_upwards [reads_varDecl hok] with n hn
  rw [hvis] at hn
  rw [stmtToks, hvis]
  exact ReadsTo.call _ ((reads_peek (some .lowkey)).look hn.last fun _ _ => rfl)

theorem goodStmt_const {c : ConstDecl String String} : GoodStmt d (.const c) := by
  rintro ⟨hvis, hok⟩
  filter_upwards [reads_constDecl hok] with n hn
  rw [hvis] at hn
  rw [stmtToks, hvis]
  exact ReadsTo.call _ ((reads_peek (some .facts)).look hn.last fun _ _ => rfl)

theorem goodStmt_crib {c : CribDecl String} : GoodStmt d (.crib c) := by
  rintro ⟨hvis, hok⟩
  filter_upwards [reads_cribDecl hok] with n hn
  rw [hvis] at hn
  rw [stmtToks, hvis]
  exact ReadsTo.call _ ((reads_peek (some .crib)).look hn.last fun _ _ => rfl)

theorem goodStmt_expr : GoodStmt d (.expr e) := by
  intro hok
  filter_upwards [reads_whole hok] with n hn
  refine reads_exprStmt (ReadsTo.call _ ?_) (exprToks_head e false)
  refine .toks (l := exprToks false e ++ []) (by simp [stmtToks]) ?_
  refine ReadsTo.bind hn ?_ fun rest (hrest : StmtEnd rest) => hrest.follow
  refine (reads_check .comma (some .semi)).look ?_ fun _ hrest => hrest
  exact (reads_peek (some .semi)).look (.pure _) fun _ hrest => hrest

theorem assignOp_tok (op : AssignOp) : assignOp (some (assignTok op)) = some op := by cases op <;> rfl

theorem follow_assign (op : AssignOp) (rest : List Token) : Follow 1 false (assignTok op :: rest) :=
  follow_cons (by cases op <;> rfl) rest 1 false

theorem goodStmt_assign {targets values : List PExpr} {op : AssignOp} :
    GoodStmt d (.assign targets op values) := by
  rintro ⟨hne, hok, hneValues, hokValues⟩
  obtain ⟨e, es, rfl⟩ := List.exists_cons_of_ne_nil hne
  obtain ⟨hfirst, hmore⟩ := hok
  filter_upwards [reads_whole hfirst, good_elems es d hmore, reads_values hneValues hokValues,
    Filter.eventually_gt_atTop es.length] with n hf hm hv hlen
  have htargets := ReadsTo.whileEat (o := [e]) (n := (knot n).fuel)
    (F := fun rest => rest.head? = some (assignTok op)) hm (by rwa [knot_fuel])
    (fun _ => follow_cons rfl _ 1 false) ?_
  · refine reads_exprStmt (ReadsTo.call _ ?_) (append_head (exprList_head hne))
    refine .toks (l := exprToks false e ++ ((exprTokss es).flatMap (.comma :: ·) ++
      assignTok op :: exprListToks values)) (by simp [stmtToks, exprListToks, exprTokss, commaToks]) ?_
    refine ReadsTo.bind hf ?_ fun rest _ => ?_
    · obtain ⟨t, hhead, hassign⟩ : ∃ t, (∀ rest, ((exprTokss es).flatMap (.comma :: ·) ++
          assignTok op :: exprListToks values ++ rest).head? = some t) ∧
            (t == .comma || (assignOp (some t)).isSome) = true := by
        cases es with
        | nil => exact ⟨assignTok op, fun _ => rfl, by rw [assignOp_tok]; exact Bool.or_true _⟩
        | cons e' es => exact ⟨.comma, fun _ => rfl, rfl⟩
      refine (reads_check .comma (some t)).look ?_ fun rest _ => hhead rest
      refine (reads_peek (some t)).look ?_ fun rest _ => hhead rest
      rw [show (some t == some Token.comma) = (t == .comma) from rfl, hassign]
      refine htargets.bind ?_ fun _ _ => rfl
      refine (reads_peek (some (assignTok op))).look ?_ fun _ _ => rfl
      rw [assignOp_tok]
      exact (reads_advance (F := fun _ => True) (assignTok op)).take hv.last fun _ _ => trivial
    · cases es with
      | nil => exact follow_assign op _
      | cons e' es => exact follow_cons rfl _ 1 false
  · intro rest hrest
    cases rest with
    | nil => cases hrest
    | cons t rest =>
      cases Option.some.inj hrest
      exact ⟨follow_assign op _, by cases op <;> simp [assignTok]⟩

end Statements

section Trees

mutual

theorem good_stmt : ∀ s : PStmt, GoodStmt d s
  | .var _ => goodStmt_var
  | .const _ => goodStmt_const
  | .crib _ => goodStmt_crib
  | .fr _ body elifs els => goodStmt_fr (good_block body) (good_elifs elifs) (good_else els)
  | .vibin _ body => goodStmt_vibin (good_block body)
  | .squad _ _ body => goodStmt_squad (good_block body)
  | .vibe _ arms default => goodStmt_vibe (good_arms arms) (good_else default)
  | .holla _ _ _ live ghosted => goodStmt_holla (good_block live) (good_block ghosted)
  | .sheesh body recover => goodStmt_sheesh (good_block body) (good_recover recover)
  | .evict _ _ => goodStmt_evict
  | .slide _ => goodStmt_slide
  | .bet _ => goodStmt_bet
  | .bounce _ => goodStmt_bounce
  | .yeet _ => goodStmt_yeet
  | .dip => goodStmt_dip
  | .skip => goodStmt_skip
  | .assign _ _ _ => goodStmt_assign
  | .expr _ => goodStmt_expr

theorem good_stmts : ∀ ss : List PStmt, GoodStmts d ss
  | [] => goodStmts_nil
  | s :: ss => goodStmts_cons (good_stmt s) (good_stmts ss)

theorem good_block : ∀ bl : PBlock, GoodBlock d bl
  | .mk ss => goodBlock_mk (good_stmts ss)

theorem good_elifs : ∀ es : List (Elif String String), GoodElifs d es
  | [] => goodElifs_nil
  | .mk _ body :: es => goodElifs_cons (good_block body) (good_elifs es)

theorem good_else : ∀ els : Option PBlock, GoodElse d els
  | none => goodElse_none
  | some body => goodElse_some (good_block body)

theorem good_arms : ∀ as : List (MatchArm String String), GoodArms d as
  | [] => goodArms_nil
  | .mk _ _ body :: as => goodArms_cons (good_block body) (good_arms as)

theorem good_recover : ∀ r : Option (Recover String String), GoodRecover d r
  | none => goodRecover_none
  | some (.mk _ body) => goodRecover_some (good_block body)

end

end Trees

end BetLang.Fmt
