import BetLang.FormatItems
import BetLang.FormatText

/-! The canonical form of a program is read back as that program. -/

namespace BetLang.Fmt

open Lexer
open Mangling (Text)
open BetLang.Parser (commaToks)
open Surface

section Declarations

def OptTyText : Option (Ty String) → Prop
  | none => True
  | some t => TyText 0 t

def VarText (v : VarDecl String String) : Prop :=
  (∀ s ∈ v.target :: v.targets, IsName s) ∧ OptTyText v.ty ∧ v.values ≠ [] ∧ ExprsText v.values

def ConstText (c : ConstDecl String String) : Prop :=
  IsName c.name ∧ OptTyText c.ty ∧ ExprText c.value

def CribDeclText (c : CribDecl String) : Prop := IsName c.name ∧ OptTyText c.ty

variable {b b' : Bool} {w : Text} {toks : List Token} {F : Text → Prop}

/-- A word before what it starts. -/
theorem prints_led {s : String} {t : Token} (hs : (s, t) ∈ keywords) (h : ∀ b, Prints w b b' toks F)
    (hw : ∀ rest, NoBlank (w ++ rest)) : Prints (s.toList ++ [' '] ++ w) b b' (t :: toks) F :=
  (prints_lead hs).append (h _) fun rest _ => hw rest

theorem led_noBlank {s : String} {t : Token} (hs : (s, t) ∈ keywords) (rest : Text) :
    NoBlank (s.toList ++ [' '] ++ w ++ rest) := by
  rw [List.append_assoc, List.append_assoc]
  exact keyword_noBlank hs _

theorem prints_vis (v : Vis) (h : ∀ b, Prints w b b' toks F) (hw : ∀ rest, NoBlank (w ++ rest)) :
    Prints (vis v ++ w) b b' (visToks v ++ toks) F := by
  cases v with
  | flex => exact prints_led (s := "flex") (t := .flex) (by simp [keywords]) h hw
  | hush => exact h b

theorem vis_noBlank (v : Vis) (hw : ∀ rest, NoBlank (w ++ rest)) (rest : Text) :
    NoBlank (vis v ++ w ++ rest) := by
  cases v with
  | flex => exact noBlank_cons (c := 'f') (by decide) _
  | hush => exact hw rest

theorem prints_optType {t : Option (Ty String)} (h : OptTyText t) :
    Prints (optType t) true true (optTypeToks t) WordEnd := by
  cases t with
  | none => exact .nil
  | some t => exact prints_colon.append (prints_ty t 0 _ h) fun rest _ => ty_noBlank h rest

theorem optType_wordEnd (t : Option (Ty String)) {rest : Text} (h : WordEnd rest) :
    WordEnd (optType t ++ rest) := by
  cases t with
  | none => exact h
  | some t => exact wordEnd_cons (c := ':') rfl _

theorem prints_typed {t : Option (Ty String)} (h : OptTyText t) (hw : Prints w b true toks WordEnd) :
    Prints (w ++ optType t) b true (toks ++ optTypeToks t) WordEnd :=
  hw.append (prints_optType h) fun _ hrest => optType_wordEnd t hrest

theorem names_members {ss : List String} (h : ∀ s ∈ ss, IsName s) :
    TyMembers (ss.map name) (ss.map fun s => [.ident s]) := by
  induction ss with
  | nil => exact .nil
  | cons s ss ih =>
    obtain ⟨hs, hss⟩ := List.forall_mem_cons.mp h
    exact .cons ⟨prints_name hs, name_noBlank hs⟩ (ih hss)

theorem prints_exprList {es : List (Expr String String)} (hne : es ≠ []) (h : ExprsText es) :
    Prints (exprList es) b true (exprListToks es) NumEnd := by
  refine prints_commaJoin (prints_exprTexts es h) ?_ numEnd_comma
  cases es with
  | nil => exact absurd rfl hne
  | cons e es => simp [exprTexts]

theorem exprList_noBlank {es : List (Expr String String)} (hne : es ≠ []) (h : ExprsText es) (rest : Text) :
    NoBlank (exprList es ++ rest) := by
  cases es with
  | nil => exact absurd rfl hne
  | cons e es => exact ((begins_expr e false h.1).append _).noBlank rest

/-- What a binding binds, and its values. -/
theorem prints_bound {v : Text} {ts : List Token} (hw : Prints w b true toks WordEnd)
    (hv : ∀ b, Prints v b true ts NumEnd) (hblank : ∀ rest, NoBlank (v ++ rest)) :
    Prints (w ++ " = ".toList ++ v) b true (toks ++ .eq :: ts) NumEnd := by
  have heq := (prints_eq (b := true)).append (hv _) fun rest _ => hblank rest
  refine (hw.append heq fun rest _ => wordEnd_cons rfl _).text ?_
  simp

theorem prints_cribDecl {c : CribDecl String} (h : CribDeclText c) :
    Prints (cribDecl c) b true (visToks c.vis ++ cribDeclToks c) WordEnd := by
  have hbody (b : Bool) := prints_typed h.2
    (prints_led (b := b) (s := "crib") (t := .crib) (by simp [keywords]) (prints_name h.1) (name_noBlank h.1))
  refine (prints_vis c.vis hbody ?_).text ?_
  · exact noBlank_append (led_noBlank (s := "crib") (t := .crib) (by simp [keywords])) _
  · simp [cribDecl, name]

theorem prints_constDecl {c : ConstDecl String String} (h : ConstText c) :
    Prints (constDecl c) b true (visToks c.vis ++ constDeclToks c) NumEnd := by
  obtain ⟨hname, hty, hvalue⟩ := h
  have hhead (b : Bool) := prints_typed hty
    (prints_led (b := b) (s := "facts") (t := .facts) (by simp [keywords]) (prints_name hname) (name_noBlank hname))
  have hbody (b : Bool) := prints_bound (hhead b) (prints_expr c.value false · hvalue)
    (begins_expr c.value false hvalue).noBlank
  refine (prints_vis c.vis hbody ?_).text ?_ |>.toks ?_
  · exact noBlank_append (noBlank_append (noBlank_append
      (led_noBlank (s := "facts") (t := .facts) (by simp [keywords])) _) _) _
  · simp [constDecl, name]
  · simp [constDeclToks]

theorem prints_varDecl {v : VarDecl String String} (h : VarText v) :
    Prints (varDecl v) b true (visToks v.vis ++ varDeclToks v) NumEnd := by
  obtain ⟨hnames, hty, hne, hvalues⟩ := h
  have htargets (b : Bool) := prints_commaJoin (b := b) (names_members hnames) (by simp) (wordEnd_cons rfl)
  have htarget := (List.forall_mem_cons.mp hnames).1
  have hblank (rest : Text) : NoBlank (commaJoin ((v.target :: v.targets).map name) ++ rest) := by
    rw [List.map_cons, commaJoin, List.append_assoc]
    exact name_noBlank htarget _
  have hhead (b : Bool) := prints_typed hty
    (prints_led (b := b) (s := "lowkey") (t := .lowkey) (by simp [keywords]) htargets hblank)
  have hbody (b : Bool) := prints_bound (hhead b) (fun _ => prints_exprList hne hvalues)
    (exprList_noBlank hne hvalues)
  refine (prints_vis v.vis hbody ?_).text ?_ |>.toks ?_
  · exact noBlank_append (noBlank_append (noBlank_append
      (led_noBlank (s := "lowkey") (t := .lowkey) (by simp [keywords])) _) _) _
  · simp [varDecl]
  · simp [varDeclToks, names]

end Declarations

section Statements

mutual

/-- The statements whose text the scan gives back. -/
def StmtText : Stmt String String → Prop
  | .var v => VarText v
  | .const c => ConstText c
  | .crib c => CribDeclText c
  | .fr cond body elifs els => ExprText cond ∧ BlockText body ∧ ElifsText elifs ∧ ElseText els
  | .vibin cond body => ExprText cond ∧ BlockText body
  | .squad var iter body => IsName var ∧ ExprText iter ∧ BlockText body
  | .vibe scrutinee arms default => ExprText scrutinee ∧ ArmsText arms ∧ ElseText default
  | .holla binding tag crib live ghosted =>
    IsName binding ∧ ExprText tag ∧ ExprText crib ∧ BlockText live ∧ BlockText ghosted
  | .sheesh body recover => BlockText body ∧ RecoverText recover
  | .evict crib none => ExprText crib
  | .evict crib (some tag) => ExprText tag ∧ ExprText crib
  | .slide e => ExprText e
  | .bet vals => ExprsText vals
  | .bounce e => ExprText e
  | .yeet e => ExprText e
  | .dip => True
  | .skip => True
  | .assign targets _ values => targets ≠ [] ∧ ExprsText targets ∧ values ≠ [] ∧ ExprsText values
  | .expr e => ExprText e

def StmtsText : List (Stmt String String) → Prop
  | [] => True
  | s :: ss => StmtText s ∧ StmtsText ss

def BlockText : Block String String → Prop
  | .mk ss => StmtsText ss

def ElifsText : List (Elif String String) → Prop
  | [] => True
  | .mk cond body :: rest => ExprText cond ∧ BlockText body ∧ ElifsText rest

def ElseText : Option (Block String String) → Prop
  | none => True
  | some body => BlockText body

def ArmsText : List (MatchArm String String) → Prop
  | [] => True
  | .mk variant bindings body :: rest =>
    PathText variant ∧ (∀ s ∈ bindings, IsName s) ∧ BlockText body ∧ ArmsText rest

def RecoverText : Option (Recover String String) → Prop
  | none => True
  | some (.mk s body) => IsName s ∧ BlockText body

end

variable {b : Bool} {w v : Text} {toks ts : List Token} {k : Nat}

theorem assign_sign (op : AssignOp) : (assignOpStr op, assignTok op) ∈ spacedSigns := by
  cases op <;> simp [spacedSigns, assignOpStr, assignTok]

/-- A line of its own. -/
theorem prints_line {F : Text → Prop} (h : Prints w false true toks F) (hF : ∀ rest, F ('\n' :: rest))
    (hw : ∀ rest, NoBlank (w ++ rest)) :
    Prints (indent k ++ w ++ "\n".toList) false false (toks ++ [.semi]) (fun _ => True) := by
  have hline := h.append (prints_newline true) fun rest _ => hF rest
  refine ((prints_indent k).append hline fun rest _ => ?_).text ?_
  · rw [List.append_assoc]
    exact hw _
  · simp

theorem numEnd_newline (rest : Text) : NumEnd ('\n' :: rest) := numEnd_cons rfl (by decide) rest

/-- A line of a word and an expression. -/
theorem prints_wordLine {s : String} {t : Token} (hs : (s, t) ∈ keywords) {e : Expr String String}
    (he : ExprText e) : Prints (indent k ++ (s.toList ++ [' ']) ++ expr false e ++ "\n".toList) false false
      (t :: exprToks false e ++ [.semi]) (fun _ => True) := by
  have hline := prints_led (b := false) hs (prints_expr e false · he) (begins_expr e false he).noBlank
  refine (prints_line (k := k) hline numEnd_newline (led_noBlank hs)).text ?_
  simp

/-- A line of one word. -/
theorem prints_soleWord {s : String} {t : Token} (hs : (s, t) ∈ keywords) (ht : t.endsStatement = true)
    (k : Nat) :
    Prints (indent k ++ s.toList ++ "\n".toList) false false [t, .semi] (fun _ => True) := by
  have hword := prints_keyword hs false
  rw [ht] at hword
  exact prints_line hword (wordEnd_cons rfl) (keyword_noBlank hs)

/-- What closes a body. -/
theorem prints_close (k : Nat) : Prints (indent k ++ "\x7d\n".toList) false false [.rBrace, .semi]
    (fun _ => True) :=
  (prints_indent k).append prints_rBrace fun rest _ => noBlank_cons (c := '\x7d') (by decide) _

/-- What closes a body and goes on with a word. -/
theorem prints_goesOn {s : String} {t : Token} (hs : (s, t) ∈ keywords) (k : Nat)
    (h : Prints w t.endsStatement false toks (fun _ => True)) (hw : ∀ rest, WordEnd (w ++ rest)) :
    Prints (indent k ++ "\x7d ".toList ++ s.toList ++ w) false false (.rBrace :: t :: toks)
      (fun _ => True) := by
  have hword := (prints_behind (prints_keyword hs true) fun rest _ => keyword_noBlank hs rest).append h
    fun rest _ => hw rest
  have hbrace := prints_open (b := false) (c := '\x7d') (t := .rBrace) (by simp [singles]) (by simp) hword
  refine ((prints_indent k).append hbrace fun rest _ => ?_).text ?_
  · exact noBlank_cons (c := '\x7d') (by decide) _
  · simp

/-- A body, and what closes it. -/
theorem prints_body (h : Prints w false false toks (fun _ => True))
    (hv : Prints v false false (.rBrace :: ts) (fun _ => True)) :
    Prints (" \x7b\n".toList ++ w ++ v) b false (.lBrace :: (toks ++ .rBrace :: ts)) (fun _ => True) :=
  (((prints_lBrace.append h fun _ _ => trivial).append hv fun _ _ => trivial).toks (by simp))

theorem prints_block (h : Prints w false false toks (fun _ => True)) :
    Prints (" \x7b\n".toList ++ w ++ indent k ++ "\x7d\n".toList) b false (braces toks ++ [.semi])
      (fun _ => True) := by
  refine (prints_body h (prints_close k)).text ?_ |>.toks ?_
  · simp
  · simp [braces]

theorem prints_indented (h : Prints w false false toks (fun _ => True)) (hw : ∀ rest, NoBlank (w ++ rest)) :
    Prints (indent k ++ w) false false toks (fun _ => True) :=
  (prints_indent k).append h fun rest _ => hw rest

/-- A header and what follows it. -/
theorem prints_header {s : String} {t : Token} (hs : (s, t) ∈ keywords) {e : Expr String String}
    (he : ExprText e) (hw : Prints w true false toks (fun _ => True)) (hend : ∀ rest, NumEnd (w ++ rest)) :
    Prints (s.toList ++ [' '] ++ expr true e ++ w) b false (t :: exprToks true e ++ toks) (fun _ => True) :=
  (prints_led hs (prints_expr e true · he) (begins_expr e true he).noBlank).append hw fun rest _ => hend rest

/-- An expression behind the word `in`. -/
theorem prints_joined {F : Text → Prop} {e : Expr String String} (hw : Prints w b true toks F)
    (hF : ∀ rest, F (' ' :: rest)) (he : ExprText e) (ns : Bool) :
    Prints (w ++ " in ".toList ++ expr ns e) b true (toks ++ .inKw :: exprToks ns e) NumEnd := by
  have hin := (prints_in (b := true)).append (prints_expr e ns false he) fun rest _ =>
    (begins_expr e ns he).noBlank rest
  refine (hw.append hin fun rest _ => hF _).text ?_
  simp

theorem varDecl_noBlank (v : VarDecl String String) (rest : Text) : NoBlank (varDecl v ++ rest) := by
  obtain ⟨vis, _, _, _, _⟩ := v
  cases vis with
  | flex => exact noBlank_cons (c := 'f') (by decide) _
  | hush => exact noBlank_cons (c := 'l') (by decide) _

theorem constDecl_noBlank (c : ConstDecl String String) (rest : Text) : NoBlank (constDecl c ++ rest) := by
  obtain ⟨vis, _, _, _⟩ := c
  cases vis <;> exact noBlank_cons (c := 'f') (by decide) _

theorem cribDecl_noBlank (c : CribDecl String) (rest : Text) : NoBlank (cribDecl c ++ rest) := by
  obtain ⟨vis, _, _⟩ := c
  cases vis with
  | flex => exact noBlank_cons (c := 'f') (by decide) _
  | hush => exact noBlank_cons (c := 'c') (by decide) _

/-- A path and the names it binds. -/
theorem prints_pattern {p : Path String} {ss : List String} (hp : PathText p) (hss : ∀ s ∈ ss, IsName s) :
    Prints (pathStr p ++ (if ss.isEmpty then [] else "(".toList ++ commaJoin (ss.map name) ++ ")".toList))
      b true (pathToks p ++ (if ss.isEmpty then [] else parens (names ss))) WordEnd := by
  cases ss with
  | nil => simpa using prints_path hp
  | cons s ss =>
    have hparens := prints_parens (b := true) (names_members hss) (wordEnd_cons rfl) (wordEnd_cons rfl)
    exact (prints_path hp).append (hparens.mono fun _ _ => trivial) fun rest _ => wordEnd_cons rfl _

mutual

theorem prints_stmt : ∀ (s : Stmt String String) (k : Nat), StmtText s →
    Prints (stmt k s) false false (stmtToks s ++ [.semi]) (fun _ => True)
  | .var v, k, h => prints_line (prints_varDecl h) numEnd_newline (varDecl_noBlank v)
  | .const c, k, h => prints_line (prints_constDecl h) numEnd_newline (constDecl_noBlank c)
  | .crib c, k, h => prints_line (prints_cribDecl h) (wordEnd_cons rfl) (cribDecl_noBlank c)
  | .fr cond body elifs els, k, ⟨hcond, hbody, helifs, hels⟩ => by
    have htail := prints_elifs elifs k helifs (prints_else els k hels)
    have hbody := prints_body (b := true) (prints_blockBody body (k + 1) hbody) htail
    have hfr := prints_header (b := false) (s := "fr") (t := .fr) (by simp [keywords]) hcond hbody
      fun rest => numEnd_blank _
    refine (prints_indented (k := k) hfr ?_).text ?_ |>.toks ?_
    · exact fun rest => noBlank_cons (c := 'f') (by decide) _
    · simp [stmt]
    · simp [stmtToks, braces]
  | .vibin cond body, k, ⟨hcond, hbody⟩ => by
    have hblock := prints_block (b := true) (k := k) (prints_blockBody body (k + 1) hbody)
    have hvibin := prints_header (b := false) (s := "vibin") (t := .vibin) (by simp [keywords]) hcond hblock
      fun rest => numEnd_blank _
    refine (prints_indented (k := k) hvibin ?_).text ?_ |>.toks ?_
    · exact fun rest => noBlank_cons (c := 'v') (by decide) _
    · simp [stmt]
    · simp [stmtToks]
  | .squad var iter body, k, ⟨hvar, hiter, hbody⟩ => by
    have hblock := prints_block (b := true) (k := k) (prints_blockBody body (k + 1) hbody)
    have hname := prints_led (b := false) (s := "squad") (t := .squad) (by simp [keywords])
      (prints_name hvar) (name_noBlank hvar)
    have hiter := prints_joined hname (wordEnd_cons rfl) hiter true
    refine (prints_indented (k := k) (hiter.append hblock fun rest _ => numEnd_blank _) ?_).text ?_ |>.toks ?_
    · exact fun rest => noBlank_cons (c := 's') (by decide) _
    · simp [stmt, name]
    · simp [stmtToks]
  | .vibe scrutinee arms default, k, ⟨hscrutinee, harms, hdefault⟩ => by
    have hbody := (prints_arms arms k harms).append (prints_default default k hdefault) fun _ _ => trivial
    have hblock := prints_block (b := true) (k := k) hbody
    have hvibe := prints_header (b := false) (s := "vibe") (t := .vibe) (by simp [keywords]) hscrutinee hblock
      fun rest => numEnd_blank _
    refine (prints_indented (k := k) hvibe ?_).text ?_ |>.toks ?_
    · exact fun rest => noBlank_cons (c := 'v') (by decide) _
    · simp [stmt]
    · simp [stmtToks]
  | .holla binding tag crib live ghosted, k, ⟨hname, htag, hcrib, hlive, hghosted⟩ => by
    have hghosted := prints_block (b := true) (k := k) (prints_blockBody ghosted (k + 1) hghosted)
    have hchain := prints_goesOn (s := "ghosted") (t := .ghosted) (by simp [keywords]) k hghosted
      fun rest => wordEnd_cons rfl _
    have hlive := prints_body (b := true) (prints_blockBody live (k + 1) hlive) hchain
    have hbinding := prints_led (b := false) (s := "holla") (t := .holla) (by simp [keywords])
      (prints_name hname) (name_noBlank hname)
    have htag := prints_bound hbinding (prints_expr tag false · htag) (begins_expr tag false htag).noBlank
    have hcrib := prints_joined htag numEnd_blank hcrib true
    refine (prints_indented (k := k) (hcrib.append hlive fun rest _ => numEnd_blank _) ?_).text ?_ |>.toks ?_
    · exact fun rest => noBlank_cons (c := 'h') (by decide) _
    · simp [stmt, name]
    · simp [stmtToks, braces]
  | .sheesh body recover, k, ⟨hbody, hrecover⟩ => by
    have htail := prints_recover recover k hrecover
    have hbody := prints_body (b := Token.sheesh.endsStatement) (prints_blockBody body (k + 1) hbody) htail
    have hsheesh := (prints_keyword (s := "sheesh") (t := .sheesh) (by simp [keywords]) false).append hbody
      fun rest _ => wordEnd_cons rfl _
    refine (prints_indented (k := k) hsheesh ?_).text ?_ |>.toks ?_
    · exact fun rest => noBlank_cons (c := 's') (by decide) _
    · simp [stmt]
    · simp [stmtToks, braces]
  | .evict crib none, k, h => prints_wordLine (s := "evict") (t := .evict) (by simp [keywords]) h
  | .evict crib (some tag), k, ⟨htag, hcrib⟩ => by
    have htag := prints_led (b := false) (s := "evict") (t := .evict) (by simp [keywords])
      (prints_expr tag false · htag) (begins_expr tag false htag).noBlank
    have hcrib := prints_joined htag numEnd_blank hcrib false
    refine (prints_line (k := k) hcrib numEnd_newline ?_).text ?_ |>.toks ?_
    · exact fun rest => noBlank_cons (c := 'e') (by decide) _
    · simp [stmt]
    · simp [stmtToks]
  | .slide e, k, h => prints_wordLine (s := "slide") (t := .slide) (by simp [keywords]) h
  | .bet [], k, _ =>
    (prints_soleWord (s := "bet") (t := .bet) (by simp [keywords]) rfl k).text (by simp [stmt])
  | .bet (v :: vs), k, h => by
    have hbet := prints_led (b := false) (s := "bet") (t := .bet) (by simp [keywords])
      (fun _ => prints_exprList (by simp) h) (exprList_noBlank (List.cons_ne_nil v vs) h)
    refine (prints_line (k := k) hbet numEnd_newline ?_).text ?_
    · exact fun rest => noBlank_cons (c := 'b') (by decide) _
    · simp [stmt]
  | .bounce e, k, h => prints_wordLine (s := "bounce") (t := .bounce) (by simp [keywords]) h
  | .yeet e, k, h => by
    have hparen := prints_paren (b := Token.yeet.endsStatement) (prints_expr e false _ h)
    have hyeet := (prints_keyword (s := "yeet") (t := .yeet) (by simp [keywords]) false).append hparen
      fun rest _ => wordEnd_cons rfl _
    refine (prints_line (k := k) hyeet (fun _ => trivial) ?_).text ?_
    · exact fun rest => noBlank_cons (c := 'y') (by decide) _
    · simp [stmt]
  | .dip, k, _ =>
    (prints_soleWord (s := "dip") (t := .dip) (by simp [keywords]) rfl k).text (by simp [stmt])
  | .skip, k, _ =>
    (prints_soleWord (s := "skip") (t := .skip) (by simp [keywords]) rfl k).text (by simp [stmt])
  | .assign targets op values, k, ⟨hne, htargets, hvne, hvalues⟩ => by
    have hsign := (prints_signBetween (b := true) (assign_sign op)).append (prints_exprList hvne hvalues)
      fun rest _ => exprList_noBlank hvne hvalues rest
    have hassign := (prints_exprList (b := false) hne htargets).append hsign fun rest _ => numEnd_blank _
    refine (prints_line (k := k) hassign numEnd_newline ?_).text ?_ |>.toks ?_
    · exact noBlank_append (exprList_noBlank hne htargets) _
    · simp [stmt]
    · simp [stmtToks]
  | .expr e, k, h => prints_line (prints_expr e false _ h) numEnd_newline (begins_expr e false h).noBlank

theorem prints_stmts : ∀ (ss : List (Stmt String String)) (k : Nat), StmtsText ss →
    Prints (stmts k ss) false false (stmtsToks ss) (fun _ => True)
  | [], _, _ => .nil
  | s :: ss, k, h => ((prints_stmt s k h.1).append (prints_stmts ss k h.2) fun _ _ => trivial).toks
      (by simp [stmtsToks])

theorem prints_blockBody : ∀ (bl : Block String String) (k : Nat), BlockText bl →
    Prints (blockBody k bl) false false (blockToks bl) (fun _ => True)
  | .mk ss, k, h => prints_stmts ss k h

theorem prints_elifs : ∀ (es : List (Elif String String)) (k : Nat), ElifsText es → ∀ {v : Text}
    {ts : List Token}, Prints v false false (.rBrace :: ts) (fun _ => True) →
    Prints (elifTexts k es ++ v) false false (.rBrace :: (elifToks es ++ ts)) (fun _ => True)
  | [], _, _, _, _, h => h
  | .mk cond body :: rest, k, ⟨hcond, hbody, hrest⟩, v, ts, h => by
    have htail := prints_elifs rest k hrest h
    have hbody := prints_body (b := true) (prints_blockBody body (k + 1) hbody) htail
    have hfr := prints_header (b := Token.naw.endsStatement) (s := "fr") (t := .fr) (by simp [keywords]) hcond
      hbody fun rest => numEnd_blank _
    have hblank := prints_behind hfr fun rest _ => noBlank_cons (c := 'f') (by decide) _
    refine (prints_goesOn (s := "naw") (t := .naw) (by simp [keywords]) k hblank ?_).text ?_ |>.toks ?_
    · exact fun rest => wordEnd_cons rfl _
    · simp [elifTexts]
    · simp [elifToks, braces]

theorem prints_else : ∀ (els : Option (Block String String)) (k : Nat), ElseText els →
    Prints (elseText k els ++ indent k ++ "\x7d\n".toList) false false (.rBrace :: (elseToks els ++ [.semi]))
      (fun _ => True)
  | none, k, _ => prints_close k
  | some els, k, h => by
    have hblock := prints_block (b := Token.naw.endsStatement) (k := k) (prints_blockBody els (k + 1) h)
    refine (prints_goesOn (s := "naw") (t := .naw) (by simp [keywords]) k hblock ?_).text ?_ |>.toks ?_
    · exact fun rest => wordEnd_cons rfl _
    · simp [elseText]
    · simp [elseToks]

theorem prints_arms : ∀ (as : List (MatchArm String String)) (k : Nat), ArmsText as →
    Prints (armTexts k as) false false (armToks as) (fun _ => True)
  | [], _, _ => .nil
  | .mk variant bindings body :: rest, k, ⟨hvariant, hbindings, hbody, hrest⟩ => by
    have hblock := prints_block (b := true) (k := k + 1) (prints_blockBody body (k + 2) hbody)
    have hhead := (prints_pattern (b := false) hvariant hbindings).append hblock fun rest _ => wordEnd_cons rfl _
    have harm := prints_indented (k := k + 1) hhead
      (noBlank_append (noBlank_append (path_noBlank hvariant) _) _)
    refine (harm.append (prints_arms rest k hrest) fun _ _ => trivial).text ?_ |>.toks ?_
    · simp [armTexts]
    · simp [armToks]

theorem prints_default : ∀ (default : Option (Block String String)) (k : Nat), ElseText default →
    Prints (defaultText k default) false false (defaultToks default) (fun _ => True)
  | none, _, _ => .nil
  | some body, k, h => by
    have hblock := prints_block (b := Token.naw.endsStatement) (k := k + 1)
      (prints_blockBody body (k + 2) h)
    have hnaw := (prints_keyword (s := "naw") (t := .naw) (by simp [keywords]) false).append hblock
      fun rest _ => wordEnd_cons rfl _
    refine (prints_indented (k := k + 1) hnaw ?_).text ?_
    · exact fun rest => noBlank_cons (c := 'n') (by decide) _
    · simp [defaultText]

theorem prints_recover : ∀ (recover : Option (Recover String String)) (k : Nat), RecoverText recover →
    Prints (recoverText k recover) false false (.rBrace :: (recoverToks recover ++ [.semi])) (fun _ => True)
  | none, k, _ => prints_close k
  | some (.mk s body), k, ⟨hs, hbody⟩ => by
    have hblock := prints_block (b := true) (k := k) (prints_blockBody body (k + 1) hbody)
    have hname := prints_behind (b := Token.naw.endsStatement)
      ((prints_name hs _).append hblock fun rest _ => wordEnd_cons rfl _)
      fun rest _ => noBlank_append (name_noBlank hs) _ _
    refine (prints_goesOn (s := "naw") (t := .naw) (by simp [keywords]) k hname ?_).text ?_ |>.toks ?_
    · exact fun rest => wordEnd_cons rfl _
    · simp [recoverText, name]
    · simp [recoverToks]

end

end Statements

section Items

def ParamText (p : Param String) : Prop := IsName p.name ∧ TyText 0 p.ty

def RetText : RetType String → Prop
  | .none => True
  | .single t => TyText 0 t
  | .multi ts => TysText 0 ts

def FnText (f : FnDecl String String) : Prop :=
  (∀ p, f.receiver = some p → ParamText p) ∧ IsName f.name ∧ (∀ s ∈ f.generics, IsName s) ∧
    (∀ p ∈ f.params, ParamText p) ∧ RetText f.ret ∧ BlockText f.body

def DripText (d : DripDecl String) : Prop :=
  IsName d.name ∧ (∀ s ∈ d.generics, IsName s) ∧ ∀ f ∈ d.fields, IsName f.name ∧ TyText 0 f.ty

def MoodsText (m : MoodsDecl String) : Prop :=
  IsName m.name ∧ (∀ s ∈ m.generics, IsName s) ∧ ∀ v ∈ m.variants, IsName v.name ∧ TysText 0 v.payload

def ExternText (e : ExternDecl String) : Prop :=
  IsName e.name ∧ (∀ p ∈ e.params, ParamText p) ∧ RetText e.ret

/-- The items whose text the scan gives back. -/
def ItemText : Item String String → Prop
  | .pull p => ∀ s, p.aliasName = some s → IsName s
  | .func f => FnText f
  | .drip d => DripText d
  | .moods m => MoodsText m
  | .crib c => CribDeclText c
  | .const c => ConstText c
  | .var v => VarText v
  | .externFn e => ExternText e

def ProgramText (p : Program String String) : Prop := ∀ i ∈ p.items, ItemText i

variable {b : Bool} {w : Text} {toks : List Token}

theorem prints_genericParams {g : List String} (hw : Prints w b true toks WordEnd) (h : ∀ s ∈ g, IsName s) :
    Prints (w ++ genericParams g) b true (toks ++ genericToks g) WordEnd := by
  cases g with
  | nil => simpa [genericParams, genericToks] using hw
  | cons s g =>
    exact hw.append ((prints_bracketed (names_members h)).mono fun _ _ => trivial) fun rest _ =>
      wordEnd_cons rfl _

theorem prints_param {p : Param String} (h : ParamText p) :
    Prints (param p) b true (paramToks p) WordEnd :=
  ((prints_name h.1 b).append prints_colon fun _ _ => wordEnd_cons rfl _).append (prints_ty p.ty 0 _ h.2)
    fun rest _ => ty_noBlank h.2 rest

theorem param_noBlank {p : Param String} (h : ParamText p) (rest : Text) : NoBlank (param p ++ rest) :=
  noBlank_append (noBlank_append (name_noBlank h.1) _) _ _

theorem param_members {ps : List (Param String)} (h : ∀ p ∈ ps, ParamText p) :
    TyMembers (ps.map param) (ps.map paramToks) := by
  induction ps with
  | nil => exact .nil
  | cons p ps ih =>
    obtain ⟨hp, hps⟩ := List.forall_mem_cons.mp h
    exact .cons ⟨fun _ => prints_param hp, param_noBlank hp⟩ (ih hps)

theorem prints_params {ps : List (Param String)} (h : ∀ p ∈ ps, ParamText p) :
    Prints (params ps) b true (paramsToks ps) (fun _ => True) :=
  prints_parens (param_members h) (wordEnd_cons rfl) (wordEnd_cons rfl)

theorem prints_ret {r : RetType String} (h : RetText r) : Prints (ret r) true true (retToks r) WordEnd := by
  cases r with
  | none => exact .nil
  | single t => exact prints_arrow.append (prints_ty t 0 _ h) fun rest _ => ty_noBlank h rest
  | multi ts =>
    have hparens := prints_parens (b := false) (prints_tys ts 0 h) (wordEnd_cons rfl) (wordEnd_cons rfl)
    refine ((prints_arrow.append hparens fun rest _ => ?_).text ?_).mono fun _ _ => trivial
    · exact noBlank_cons (c := '(') (by decide) _
    · have harrow : " -> (".toList = " -> ".toList ++ "(".toList := by decide
      simp only [ret, joinTypes, harrow, List.append_assoc]

/-- The parameters of a function and what it returns. -/
theorem prints_signature {ps : List (Param String)} {r : RetType String} (hps : ∀ p ∈ ps, ParamText p)
    (hr : RetText r) (hw : Prints w b true toks WordEnd) :
    Prints (w ++ params ps ++ ret r) b true (toks ++ paramsToks ps ++ retToks r) WordEnd :=
  (hw.append (prints_params hps) fun _ _ => wordEnd_cons rfl _).append (prints_ret hr) fun _ _ => trivial

theorem prints_receiver {r : Option (Param String)} {b' : Bool} {F : Text → Prop}
    (h : ∀ p, r = some p → ParamText p) (hw : ∀ b, Prints w b b' toks F) (hblank : ∀ rest, NoBlank (w ++ rest)) :
    Prints (receiver r ++ w) b b' (receiverToks r ++ toks) F := by
  cases r with
  | none => exact hw b
  | some p =>
    have hclose := (prints_single (c := ')') (t := .rParen) (by simp [singles]) (by simp) true).append
      (prints_behind (hw true) fun rest _ => hblank rest) fun _ _ => trivial
    have hparam := (prints_param (b := false) (h p rfl)).append hclose fun rest _ => wordEnd_cons rfl _
    refine (prints_open (c := '(') (t := .lParen) (by simp [singles]) (by simp) hparam).text ?_ |>.toks ?_
    · simp [receiver, param]
    · simp [receiverToks, parens]

theorem receiver_noBlank (r : Option (Param String)) (hw : ∀ rest, NoBlank (w ++ rest)) (rest : Text) :
    NoBlank (receiver r ++ w ++ rest) := by
  cases r with
  | none => exact hw rest
  | some p => exact noBlank_cons (c := '(') (by decide) _

/-- A declaration with a body of its own lines. -/
theorem prints_declared {F : Text → Prop} {v : Text} {ts : List Token} (vis' : Vis)
    (hw : ∀ b, Prints w b true toks F) (hF : ∀ rest, F (' ' :: rest)) (hblank : ∀ rest, NoBlank (w ++ rest))
    (hv : Prints v false false ts (fun _ => True)) :
    Prints (vis vis' ++ w ++ " \x7b\n".toList ++ v ++ "\x7d\n".toList) false false
      (visToks vis' ++ toks ++ braces ts ++ [.semi]) (fun _ => True) := by
  have hblock := prints_block (b := true) (k := 0) hv
  refine ((prints_vis vis' hw hblank).append hblock fun rest _ => hF _).text ?_ |>.toks ?_
  · simp [indent]
  · simp

theorem prints_fnDecl {f : FnDecl String String} (h : FnText f) :
    Prints (fnDecl f) false false (visToks f.vis ++ fnDeclToks f ++ [.semi]) (fun _ => True) := by
  obtain ⟨hreceiver, hname, hgenerics, hparams, hret, hbody⟩ := h
  have hhead (b : Bool) := prints_signature hparams hret
    (prints_genericParams (prints_led (b := b) (s := "finna") (t := .finna) (by simp [keywords])
      (fun _ => prints_receiver hreceiver (prints_name hname) (name_noBlank hname))
      (receiver_noBlank f.receiver (name_noBlank hname))) hgenerics)
  refine (prints_declared f.vis hhead (wordEnd_cons rfl) ?_ (prints_blockBody f.body 1 hbody)).text ?_ |>.toks ?_
  · exact fun rest => noBlank_cons (c := 'f') (by decide) _
  · simp [fnDecl, name]
  · simp [fnDeclToks]

theorem prints_fieldDecl {d : FieldDecl String} (h : IsName d.name ∧ TyText 0 d.ty) :
    Prints (fieldDecl d) false false (fieldDeclToks d ++ [.semi]) (fun _ => True) := by
  have hparam (b : Bool) := prints_param (b := b) (p := ⟨d.name, d.ty⟩) h
  have hparam' := param_noBlank (p := ⟨d.name, d.ty⟩) h
  have hbody : Prints (fieldVis d.vis ++ param ⟨d.name, d.ty⟩) false true (fieldDeclToks d) WordEnd ∧
      ∀ rest, NoBlank (fieldVis d.vis ++ param ⟨d.name, d.ty⟩ ++ rest) := by
    obtain ⟨vis, name, ty⟩ := d
    cases vis with
    | none => exact ⟨hparam false, hparam'⟩
    | some vis =>
      cases vis with
      | flex =>
        exact ⟨prints_led (s := "flex") (t := .flex) (by simp [keywords]) hparam hparam',
          fun rest => noBlank_cons (c := 'f') (by decide) _⟩
      | hush =>
        exact ⟨prints_led (s := "hush") (t := .hush) (by simp [keywords]) hparam hparam',
          fun rest => noBlank_cons (c := 'h') (by decide) _⟩
  refine (prints_line (k := 1) hbody.1 (wordEnd_cons rfl) hbody.2).text ?_
  simp [fieldDecl, param]

theorem prints_dripDecl {d : DripDecl String} (h : DripText d) :
    Prints (dripDecl d) false false (visToks d.vis ++ dripDeclToks d ++ [.semi]) (fun _ => True) := by
  obtain ⟨hname, hgenerics, hfields⟩ := h
  have hhead (b : Bool) := prints_genericParams
    (prints_led (b := b) (s := "drip") (t := .drip) (by simp [keywords]) (prints_name hname) (name_noBlank hname))
    hgenerics
  have hlines : Prints (d.fields.flatMap fieldDecl) false false
      (d.fields.flatMap fun f => fieldDeclToks f ++ [.semi]) (fun _ => True) := by
    generalize d.fields = fields at hfields
    induction fields with
    | nil => exact .nil
    | cons f fs ih =>
      obtain ⟨hf, hfs⟩ := List.forall_mem_cons.mp hfields
      exact (prints_fieldDecl hf).append (ih hfs) fun _ _ => trivial
  refine (prints_declared d.vis hhead (wordEnd_cons rfl) ?_ hlines).text ?_ |>.toks ?_
  · exact fun rest => noBlank_cons (c := 'd') (by decide) _
  · simp [dripDecl, name]
  · simp [dripDeclToks]

theorem prints_variant {v : Variant String} (h : IsName v.name ∧ TysText 0 v.payload) :
    Prints (variant v) false true (variantToks v) WordEnd := by
  obtain ⟨s, payload⟩ := v
  obtain ⟨hname, hpayload⟩ := h
  have hind := (prints_indent 1 (b := false)).append (prints_name hname false) fun rest _ =>
    name_noBlank hname rest
  cases payload with
  | nil => exact hind.text (by simp [variant, name])
  | cons t ts =>
    have hparens := prints_parens (b := true) (prints_tys (t :: ts) 0 hpayload) (wordEnd_cons rfl)
      (wordEnd_cons rfl)
    exact hind.append (hparens.mono fun _ _ => trivial) fun rest _ => wordEnd_cons rfl _

theorem prints_variants {vs : List (Variant String)} (h : ∀ v ∈ vs, IsName v.name ∧ TysText 0 v.payload) :
    Prints (variantLines vs) false false (variantsToks vs) (fun _ => True) := by
  induction vs using variantLines.induct with
  | case1 => exact .nil
  | case2 v => exact (prints_variant (h v (by simp))).append (prints_newline true) fun rest _ => wordEnd_cons rfl _
  | case3 v vs hne ih =>
    obtain ⟨hv, hvs⟩ := List.forall_mem_cons.mp h
    have hcomma := (prints_single (c := ',') (t := .comma) (by simp [singles]) (by simp) true).append
      (prints_newline false) fun _ _ => trivial
    have hline := (prints_variant hv).append hcomma fun rest _ => wordEnd_cons rfl _
    refine (hline.append (ih hvs) fun _ _ => trivial).text ?_ |>.toks ?_
    · rw [variantLines]
      · simp
      · exact hne
    · rw [variantsToks]
      · simp
      · exact hne

theorem prints_moodsDecl {m : MoodsDecl String} (h : MoodsText m) :
    Prints (moodsDecl m) false false (visToks m.vis ++ moodsDeclToks m ++ [.semi]) (fun _ => True) := by
  obtain ⟨hname, hgenerics, hvariants⟩ := h
  have hhead (b : Bool) := prints_genericParams
    (prints_led (b := b) (s := "moods") (t := .moods) (by simp [keywords]) (prints_name hname) (name_noBlank hname))
    hgenerics
  refine (prints_declared m.vis hhead (wordEnd_cons rfl) ?_ (prints_variants hvariants)).text ?_ |>.toks ?_
  · exact fun rest => noBlank_cons (c := 'm') (by decide) _
  · simp [moodsDecl, name]
  · simp [moodsDeclToks]

theorem prints_externDecl {e : ExternDecl String} (h : ExternText e) :
    Prints (externDecl e) false false (externDeclToks e ++ [.semi]) (fun _ => True) := by
  obtain ⟨hname, hparams, hret⟩ := h
  have habi := prints_led (b := false) (s := "extern") (t := .externKw) (by simp [keywords]) (prints_str e.abi)
    fun rest => noBlank_cons (c := '"') (by decide) _
  have hfinna := (prints_between (b := true) (s := "finna") (t := .finna) (by simp [keywords])).append
    (prints_name hname _) fun rest _ => name_noBlank hname rest
  have hhead := prints_signature hparams hret (habi.append hfinna fun _ _ => trivial)
  have hline := hhead.append (prints_newline true) fun rest _ => wordEnd_cons rfl _
  refine hline.text ?_ |>.toks ?_
  · have hword : "extern ".toList = "extern".toList ++ [' '] := by decide
    have hfinna : " finna ".toList = ' ' :: ("finna".toList ++ [' ']) := by decide
    unfold externDecl
    simp only [hword, hfinna, name, List.append_assoc, List.cons_append]
    rfl
  · simp [externDeclToks]

theorem prints_pull {p : Pull String} (h : ∀ s, p.aliasName = some s → IsName s) :
    Prints (pull p) false false (pullToks p ++ [.semi]) (fun _ => True) := by
  obtain ⟨module, aliasName⟩ := p
  have hword : "pull ".toList = "pull".toList ++ [' '] := by decide
  have hmodule := prints_led (b := false) (s := "pull") (t := .pull) (by simp [keywords]) (prints_str module)
    fun rest => noBlank_cons (c := '"') (by decide) _
  cases aliasName with
  | none =>
    refine (hmodule.append (prints_newline true) fun _ _ => trivial).text ?_ |>.toks ?_
    · simp only [pull, hword, List.append_assoc]
      rfl
    · simp [pullToks]
  | some s =>
    have hs := h s rfl
    have has := (prints_as (b := true)).append (prints_name hs _) fun rest _ => name_noBlank hs rest
    have hline := (hmodule.append has fun _ _ => trivial).append (prints_newline true)
      fun rest _ => wordEnd_cons rfl _
    refine hline.text ?_ |>.toks ?_
    · simp only [pull, name, hword, List.append_assoc]
      rfl
    · simp [pullToks]

theorem prints_item {i : Item String String} (h : ItemText i) :
    Prints (item i) false false (itemToks i ++ [.semi]) (fun _ => True) := by
  cases i with
  | pull p => exact prints_pull h
  | func f => exact prints_fnDecl h
  | drip d => exact prints_dripDecl h
  | moods m => exact prints_moodsDecl h
  | crib c => exact (prints_cribDecl h).append (prints_newline true) fun rest _ => wordEnd_cons rfl _
  | const c => exact (prints_constDecl h).append (prints_newline true) fun rest _ => numEnd_newline _
  | var v => exact (prints_varDecl h).append (prints_newline true) fun rest _ => numEnd_newline _
  | externFn e => exact prints_externDecl h

theorem prints_itemsAfter {is : List (Item String String)} (h : ∀ i ∈ is, ItemText i)
    (before : Item String String) : Prints (itemsAfter before is) false false
      (is.flatMap fun i => itemToks i ++ [.semi]) (fun _ => True) := by
  induction is generalizing before with
  | nil => exact .nil
  | cons i is ih =>
    obtain ⟨hi, his⟩ := List.forall_mem_cons.mp h
    have hitem := (prints_item hi).append (ih his i) fun _ _ => trivial
    by_cases hpair : compactPair before i = true
    · exact hitem.text (by simp [itemsAfter, hpair])
    · -- The empty line ends no statement.
      have hline := (prints_newline false).append hitem fun _ _ => trivial
      exact hline.text (by simp [itemsAfter, hpair])

theorem prints_program {p : Program String String} (h : ProgramText p) :
    Prints (program p) false false (programToks p) (fun _ => True) := by
  obtain ⟨is⟩ := p
  cases is with
  | nil => exact .nil
  | cons i is =>
    obtain ⟨hi, his⟩ := List.forall_mem_cons.mp h
    exact (prints_item hi).append (prints_itemsAfter his i) fun _ _ => trivial

end Items

section RoundTrip

/-- The canonical form of a program is read back as that program. -/
theorem format_parses {p : Program String String} (hok : ProgramOk Parser.maxDepth p) (htext : ProgramText p) :
    ∃ spanned, tokenize (program p) = .ok spanned ∧
      ∀ᶠ fuel in Filter.atTop, (Parser.parse fuel (spanned.map (·.tok))).1 = .ok p := by
  obtain ⟨spanned, hspanned, htoks⟩ := ((prints_program htext).lexes trivial).tokenized
  refine ⟨spanned, hspanned, ?_⟩
  rw [htoks]
  exact parse_programToks hok

/-- A function that doubles a number twice. -/
def quadruple : Program String String :=
  ⟨[.pull ⟨"io", none⟩,
    .func ⟨.flex, none, "quadruple", [], [⟨"n", .named ⟨"int", none⟩ []⟩],
      .single (.named ⟨"int", none⟩ []),
      .mk [.fr (.binary .lt (.name "n" []) (.int 0)) (.mk [.bet [.int 0]]) [] none,
        .bet [.binary .mul (.binary .add (.name "n" []) (.name "n" [])) (.int 2)]]⟩]⟩

theorem quadruple_ok : ProgramOk Parser.maxDepth quadruple := by
  simp [ProgramOk, quadruple, ItemOk, FnOk, ParamsOk, RetOk, TyOk, TysOk, BlockOk, StmtsOk, StmtOk, ElifsOk,
    ElseOk, HeaderOk, TopOk, OperandOk, ExprOk, ElemsOk, Parser.maxDepth, exprPrec, binopPrec, precPostfix, exprTail, nameTail]

theorem quadruple_text : ProgramText quadruple := by
  have hn : IsName "n" := by decide +kernel
  have hint : IsName "int" := by decide +kernel
  have hname : IsName "quadruple" := by decide +kernel
  simp [ProgramText, quadruple, ItemText, FnText, ParamText, RetText, TyText, TysText, BlockText, StmtsText,
    StmtText, ElifsText, ElseText, ExprText, ExprsText, PathText, maxTypeDepth, hn, hint, hname]

theorem quadruple_parses : ∃ spanned, tokenize (program quadruple) = .ok spanned ∧
    ∀ᶠ fuel in Filter.atTop, (Parser.parse fuel (spanned.map (·.tok))).1 = .ok quadruple :=
  format_parses quadruple_ok quadruple_text

end RoundTrip

end BetLang.Fmt
