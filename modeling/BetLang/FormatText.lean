import BetLang.FormatItems
import BetLang.Scanning

/-! The scan of the canonical form: its tokens, with the separators put in. -/

namespace BetLang.Fmt

open Lexer
open Mangling (Text decimal)
open BetLang.Parser (commaToks)
open Surface

section Words

variable {b b' : Bool} {w : Text} {toks : List Token} {F : Text → Prop}

theorem wordEnd_cons {c : Char} (hc : identPart c = false) (rest : Text) : WordEnd (c :: rest) := by
  rintro _ ⟨⟩
  exact hc

theorem numEnd_cons {c : Char} (hc : identPart c = false) (hdot : c ≠ '.') (rest : Text) :
    NumEnd (c :: rest) :=
  ⟨wordEnd_cons hc rest, fun _ _ h => absurd (List.cons.inj h).1 hdot⟩

theorem noBlank_cons {c : Char} (hc : c ≠ ' ' ∧ c ≠ '\t') (rest : Text) : NoBlank (c :: rest) := by
  simp [NoBlank, hc]

theorem isIdent_noBlank {c : Char} (hc : identStart c = true) : c ≠ ' ' ∧ c ≠ '\t' := by
  constructor <;> (rintro rfl; cases hc)

/-- A text behind a blank. -/
theorem prints_behind (h : Prints w b b' toks F) (hw : ∀ rest, F rest → NoBlank (w ++ rest)) :
    Prints (' ' :: w) b b' toks F := ((prints_blank b).append h hw).toks rfl

theorem keyword_noBlank {s : String} {t : Token} (h : (s, t) ∈ keywords) (rest : Text) :
    NoBlank (s.toList ++ rest) := by
  obtain ⟨c, w, hw, hc⟩ := isIdent_cons (List.all_eq_true.mp ruleTables.keywords_idents (s, t) h)
  rw [hw]
  exact noBlank_cons (isIdent_noBlank hc) _

/-- A keyword before a blank. -/
theorem prints_lead {s : String} {t : Token} (h : (s, t) ∈ keywords) :
    Prints (s.toList ++ [' ']) b t.endsStatement [t] NoBlank :=
  (prints_keyword h b).append (prints_blank _) fun rest _ => wordEnd_cons rfl rest

theorem prints_between {s : String} {t : Token} (h : (s, t) ∈ keywords) :
    Prints (' ' :: (s.toList ++ [' '])) b t.endsStatement [t] NoBlank :=
  prints_behind (prints_lead h) fun rest _ => by
    rw [List.append_assoc]
    exact keyword_noBlank h _

theorem prints_signBetween {s : String} {t : Token} (h : (s, t) ∈ spacedSigns) :
    Prints (' ' :: (s.toList ++ [' '])) b t.endsStatement [t] NoBlank := by
  have hsign := (prints_sign h b).append (prints_blank _) fun _ _ => rfl
  refine prints_behind hsign fun rest _ => ?_
  have hhead : spacedSigns.all (fun k => k.1.toList.head? != some ' ' && k.1.toList.head? != some '\t' &&
      k.1.toList != []) = true := by decide
  have hk := List.all_eq_true.mp hhead (s, t) h
  simp only [Bool.and_eq_true, bne_iff_ne] at hk
  obtain ⟨c, w, hw⟩ := List.exists_cons_of_ne_nil hk.2
  rw [hw] at hk ⊢
  exact noBlank_cons ⟨fun h => hk.1.1 (by simp [h]), fun h => hk.1.2 (by simp [h])⟩ _

/-- A sign before a blank. -/
theorem prints_signLead {c : Char} {t : Token} (h : (c, t) ∈ singles) (ht : t ≠ .newline) :
    Prints [c, ' '] b t.endsStatement [t] NoBlank :=
  ((prints_single h ht b).append (prints_blank _) fun _ _ => trivial).text rfl

theorem prints_open {c : Char} {t : Token} (h : (c, t) ∈ singles) (ht : t ≠ .newline)
    (hw : Prints w t.endsStatement b' toks F) : Prints (c :: w) b b' (t :: toks) F :=
  (prints_single h ht b).append hw fun _ _ => trivial

end Words

section Phrases

variable {b : Bool}

theorem prints_lBrace : Prints " \x7b\n".toList b false [.lBrace] (fun _ => True) := by
  have hbrace := prints_open (b := b) (t := .lBrace) (c := '\x7b') (by simp [singles]) (by simp)
    (prints_newline false)
  exact (prints_behind hbrace fun rest _ => noBlank_cons (c := '\x7b') (by decide) _).text rfl

/-- The brace that closes a block, with the separator behind it. -/
theorem prints_rBrace : Prints "\x7d\n".toList b false [.rBrace, .semi] (fun _ => True) :=
  prints_open (t := .rBrace) (c := '\x7d') (by simp [singles]) (by simp) (prints_newline true)

theorem prints_rBraceNaw : Prints "\x7d naw ".toList b false [.rBrace, .naw] NoBlank :=
  prints_open (t := .rBrace) (c := '\x7d') (by simp [singles]) (by simp)
    (prints_between (s := "naw") (t := .naw) (by simp [keywords]))

theorem prints_arrow : Prints " -> ".toList b false [.arrow] NoBlank :=
  prints_signBetween (s := "->") (t := .arrow) (by simp [spacedSigns])

theorem prints_as : Prints " as ".toList b false [.asKw] NoBlank :=
  prints_between (s := "as") (t := .asKw) (by simp [keywords])

theorem prints_in : Prints " in ".toList b false [.inKw] NoBlank :=
  prints_between (s := "in") (t := .inKw) (by simp [keywords])

theorem prints_eq : Prints " = ".toList b false [.eq] NoBlank :=
  prints_signBetween (s := "=") (t := .eq) (by simp [spacedSigns])

theorem prints_colon : Prints ": ".toList b false [.colon] NoBlank :=
  (prints_signLead (c := ':') (t := .colon) (by simp [singles]) (by simp)).text rfl

theorem prints_comma : Prints ", ".toList b false [.comma] NoBlank :=
  (prints_signLead (c := ',') (t := .comma) (by simp [singles]) (by simp)).text rfl

theorem indent_eq (n : Nat) : indent n = List.replicate (4 * n) ' ' := by
  induction n with
  | zero => rfl
  | succ n ih =>
    have hstep : indent (n + 1) = "    ".toList ++ indent n := rfl
    have hfour : "    ".toList = List.replicate 4 ' ' := rfl
    rw [hstep, ih, hfour, List.replicate_append_replicate]
    congr 1
    omega

theorem prints_indent (n : Nat) : Prints (indent n) b b [] NoBlank := by
  rw [indent_eq]
  cases n with
  | zero => exact .nil
  | succ n => exact prints_blanks (n := 4 * n + 3) b

end Phrases

section Lists

variable {b b' : Bool} {G : Text → Prop}

theorem prints_commaTail {ws : List Text} {tss : List (List Token)}
    (h : List.Forall₂ (fun w toks => (∀ b, Prints w b true toks G) ∧ ∀ rest, NoBlank (w ++ rest)) ws tss)
    (hcomma : ∀ rest, G (',' :: rest)) :
    Prints (ws.flatMap (", ".toList ++ ·)) true true (tss.flatMap (.comma :: ·)) G := by
  induction h with
  | nil => exact .nil
  | @cons w toks ws tss hw hws ih =>
    have hmember := (prints_comma (b := true)).append (hw.1 false) fun rest _ => hw.2 rest
    refine (hmember.append ih fun rest hrest => ?_).toks rfl
    cases hws with
    | nil => exact hrest
    | cons _ _ => exact hcomma _

/-- Members with commas between, at least one. -/
theorem prints_commaJoin {ws : List Text} {tss : List (List Token)}
    (h : List.Forall₂ (fun w toks => (∀ b, Prints w b true toks G) ∧ ∀ rest, NoBlank (w ++ rest)) ws tss)
    (hne : ws ≠ []) (hcomma : ∀ rest, G (',' :: rest)) :
    Prints (commaJoin ws) b true (commaToks tss) G := by
  cases h with
  | nil => exact absurd rfl hne
  | @cons w toks ws tss hw hws =>
    refine (hw.1 b).append (prints_commaTail hws hcomma) fun rest hrest => ?_
    cases hws with
    | nil => exact hrest
    | cons _ _ => exact hcomma _

/-- Members with commas between, and what closes them. -/
theorem prints_closed {ws : List Text} {tss : List (List Token)} {c : Char} {t : Token}
    (h : List.Forall₂ (fun w toks => (∀ b, Prints w b true toks G) ∧ ∀ rest, NoBlank (w ++ rest)) ws tss)
    (hc : (c, t) ∈ singles) (ht : t ≠ .newline) (hclose : ∀ rest, G (c :: rest))
    (hcomma : ∀ rest, G (',' :: rest)) :
    Prints (commaJoin ws ++ [c]) b t.endsStatement (commaToks tss ++ [t]) (fun _ => True) := by
  by_cases hne : ws = []
  · subst hne
    cases h
    exact prints_single hc ht b
  · exact (prints_commaJoin h hne hcomma).append (prints_single hc ht true) fun rest _ => hclose rest

end Lists

section Types

def PathText (p : Path String) : Prop := IsName p.head ∧ ∀ m, p.member = some m → IsName m

mutual

/-- The types whose text the scan gives back, `n` levels deep in a type. -/
def TyText (n : Nat) : Ty String → Prop
  | .slice elt => n < maxTypeDepth ∧ TyText (n + 1) elt
  | .array elt _ => n < maxTypeDepth ∧ TyText (n + 1) elt
  | .tag elt => n < maxTypeDepth ∧ TyText (n + 1) elt
  | .crib elt => n < maxTypeDepth ∧ TyText (n + 1) elt
  | .soa elt => n < maxTypeDepth ∧ TyText (n + 1) elt
  | .fn params ret => n < maxTypeDepth ∧ TysText (n + 1) params ∧ TyText (n + 1) ret
  | .rawPtr => n < maxTypeDepth
  | .named name generics => n < maxTypeDepth ∧ PathText name ∧ TysText (n + 1) generics

def TysText (n : Nat) : List (Ty String) → Prop
  | [] => True
  | t :: ts => TyText n t ∧ TysText n ts

end

variable {b : Bool} {n : Nat}

theorem capped_eq (hn : n < maxTypeDepth) (text : Text) : capped n text = text := if_neg (by omega)

theorem name_noBlank {s : String} (h : IsName s) (rest : Text) : NoBlank (s.toList ++ rest) := by
  obtain ⟨c, w, hw, hc⟩ := isIdent_cons h.1
  rw [hw]
  exact noBlank_cons (isIdent_noBlank hc) _

theorem name_head {s : String} (h : IsName s) : ∃ c w, s.toList = c :: w ∧ identStart c = true :=
  isIdent_cons h.1

/-- A name behind a dot. -/
theorem numEnd_dot {s : String} (h : IsName s) (rest : Text) : NumEnd ('.' :: (s.toList ++ rest)) := by
  obtain ⟨c, w, hw, hc⟩ := name_head h
  refine ⟨wordEnd_cons rfl _, fun c' t heq => ?_⟩
  rw [hw, List.cons_append] at heq
  obtain rfl : c = c' := (List.cons.inj (List.cons.inj heq).2).1
  exact (digit_eq c).trans (Mangling.identStart_not_digit hc).2.1

theorem prints_dot {s : String} (h : IsName s) : Prints ('.' :: s.toList) b true [.dot, .ident s] WordEnd :=
  prints_open (by simp [singles]) (by simp) (prints_name h false)

theorem prints_path {p : Path String} (h : PathText p) : Prints (pathStr p) b true (pathToks p) WordEnd := by
  obtain ⟨head, member⟩ := p
  obtain ⟨hhead, hmember⟩ := h
  cases member with
  | none => exact prints_name hhead b
  | some m =>
    have hm := hmember m rfl
    exact (prints_name hhead b).append (prints_dot hm) fun rest _ => (numEnd_dot hm rest).1

theorem path_noBlank {p : Path String} (h : PathText p) (rest : Text) : NoBlank (pathStr p ++ rest) := by
  obtain ⟨head, member⟩ := p
  cases member with
  | none => exact name_noBlank h.1 rest
  | some m =>
    have htext : pathStr ⟨head, some m⟩ ++ rest = head.toList ++ ('.' :: m.toList ++ rest) := by
      simp [pathStr]
    rw [htext]
    exact name_noBlank h.1 _

theorem noBlank_append {w : Text} (h : ∀ rest, NoBlank (w ++ rest)) (v rest : Text) :
    NoBlank (w ++ v ++ rest) := by
  rw [List.append_assoc]
  exact h _

theorem ty_noBlank {t : Ty String} (h : TyText n t) (rest : Text) : NoBlank (typeStrDepth n t ++ rest) := by
  induction t using Ty.rec (motive_2 := fun _ => True) generalizing n rest with
  | slice elt ih =>
    rw [typeStrDepth, capped_eq h.1]
    exact noBlank_cons (c := '[') (by decide) _
  | array elt size ih =>
    rw [typeStrDepth, capped_eq h.1]
    exact noBlank_append (noBlank_append (noBlank_append (ih h.2) _) _) _ _
  | tag elt ih =>
    rw [typeStrDepth, capped_eq h.1]
    exact noBlank_cons (c := 't') (by decide) _
  | crib elt ih =>
    rw [typeStrDepth, capped_eq h.1]
    exact noBlank_cons (c := 'c') (by decide) _
  | soa elt ih =>
    rw [typeStrDepth, capped_eq h.1]
    exact noBlank_cons (c := 's') (by decide) _
  | fn params ret _ _ =>
    rw [typeStrDepth, capped_eq h.1]
    exact noBlank_cons (c := 'f') (by decide) _
  | rawPtr =>
    rw [typeStrDepth, capped_eq h]
    exact noBlank_cons (c := 'r') (by decide) _
  | named name generics _ =>
    obtain ⟨hn, hname, -⟩ := h
    rw [typeStrDepth, capped_eq hn]
    split
    · exact path_noBlank hname rest
    · exact noBlank_append (noBlank_append (noBlank_append (path_noBlank hname) _) _) _ _
  | nil => trivial
  | cons t ts _ _ => trivial

/-- The members of a list of types. -/
abbrev TyMembers (ws : List Text) (tss : List (List Token)) : Prop :=
  List.Forall₂ (fun w toks => (∀ b, Prints w b true toks WordEnd) ∧ ∀ rest, NoBlank (w ++ rest)) ws tss

/-- Types between brackets. -/
theorem prints_bracketed {ws : List Text} {tss : List (List Token)} (h : TyMembers ws tss) :
    Prints ("[".toList ++ commaJoin ws ++ "]".toList) b true (brackets (commaToks tss)) (fun _ => True) := by
  have hclosed := prints_closed (b := false) (c := ']') (t := .rBracket) h (by simp [singles]) (by simp)
    (wordEnd_cons rfl) (wordEnd_cons rfl)
  refine (prints_open (c := '[') (t := .lBracket) (by simp [singles]) (by simp) hclosed).text ?_
  rw [List.append_assoc]
  rfl

theorem prints_parens {ws : List Text} {tss : List (List Token)} {G : Text → Prop}
    (h : List.Forall₂ (fun w toks => (∀ b, Prints w b true toks G) ∧ ∀ rest, NoBlank (w ++ rest)) ws tss)
    (hclose : ∀ rest, G (')' :: rest)) (hcomma : ∀ rest, G (',' :: rest)) :
    Prints ("(".toList ++ commaJoin ws ++ ")".toList) b true (parens (commaToks tss)) (fun _ => True) := by
  have hclosed := prints_closed (b := false) (c := ')') (t := .rParen) h (by simp [singles]) (by simp)
    hclose hcomma
  refine (prints_open (c := '(') (t := .lParen) (by simp [singles]) (by simp) hclosed).text ?_
  rw [List.append_assoc]
  rfl

theorem prints_size (size : UInt64) : Prints ("[".toList ++ decimal size.toNat ++ "]".toList) b true
    (dimToks size) (fun _ => True) := by
  have hlt : size.toNat < 2 ^ 127 := lt_trans size.toNat_lt (by decide)
  have hsize := (prints_int hlt false).append
    (prints_single (c := ']') (t := .rBracket) (by simp [singles]) (by simp) true)
    fun rest _ => numEnd_cons rfl (by decide) rest
  refine (prints_open (c := '[') (t := .lBracket) (by simp [singles]) (by simp) hsize).text ?_
  rw [List.append_assoc]
  rfl

/-- A word before a type. -/
theorem prints_typeWord {s : String} {t : Token} {w : Text} {toks : List Token} (hs : (s, t) ∈ keywords)
    (hw : Prints w t.endsStatement true toks WordEnd) (hblank : ∀ rest, NoBlank (w ++ rest)) :
    Prints (s.toList ++ [' '] ++ w) b true (t :: toks) WordEnd :=
  (prints_lead hs).append hw fun rest _ => hblank rest

theorem isName_rawptr : IsName "rawptr" := by decide +kernel

mutual

theorem prints_ty : ∀ (t : Ty String) (n : Nat) (b : Bool), TyText n t →
    Prints (typeStrDepth n t) b true (tyToks t) WordEnd
  | .slice elt, n, b => by
    rintro ⟨hn, h⟩
    have hinner := prints_ty elt (n + 1) true h
    rw [typeStrDepth, capped_eq hn]
    exact prints_open (c := '[') (t := .lBracket) (by simp [singles]) (by simp)
      (prints_open (c := ']') (t := .rBracket) (by simp [singles]) (by simp) hinner)
  | .array elt size, n, b => by
    rintro ⟨hn, h⟩
    have hinner := prints_ty elt (n + 1) b h
    rw [typeStrDepth, capped_eq hn, List.append_assoc, List.append_assoc, ← List.append_assoc "[".toList]
    exact hinner.append ((prints_size size).mono fun _ _ => trivial) fun rest _ => wordEnd_cons rfl _
  | .tag elt, n, b => by
    rintro ⟨hn, h⟩
    rw [typeStrDepth, capped_eq hn]
    exact prints_typeWord (s := "tag") (t := .tag) (by simp [keywords]) (prints_ty elt (n + 1) false h)
      (ty_noBlank h)
  | .crib elt, n, b => by
    rintro ⟨hn, h⟩
    rw [typeStrDepth, capped_eq hn]
    exact prints_typeWord (s := "crib") (t := .crib) (by simp [keywords]) (prints_ty elt (n + 1) false h)
      (ty_noBlank h)
  | .soa elt, n, b => by
    rintro ⟨hn, h⟩
    rw [typeStrDepth, capped_eq hn]
    exact prints_typeWord (s := "soa") (t := .soa) (by simp [keywords]) (prints_ty elt (n + 1) false h)
      (ty_noBlank h)
  | .fn params ret, n, b => by
    rintro ⟨hn, hparams, hret⟩
    have hlist := prints_parens (b := false) (prints_tys params (n + 1) hparams) (wordEnd_cons rfl)
      (wordEnd_cons rfl)
    have harrow := (prints_arrow (b := true)).append (prints_ty ret (n + 1) false hret)
      fun rest _ => ty_noBlank hret rest
    have hword := prints_keyword (s := "finna") (t := .finna) (by simp [keywords]) b
    rw [typeStrDepth, capped_eq hn]
    refine ((hword.append hlist fun rest _ => wordEnd_cons rfl _).append harrow fun _ _ => trivial).text ?_ |>.toks ?_
    · simp
    · simp [tyToks]
  | .rawPtr, n, b => by
    intro hn
    rw [typeStrDepth, capped_eq hn]
    exact prints_name isName_rawptr b
  | .named name [], n, b => by
    rintro ⟨hn, hname, -⟩
    rw [typeStrDepth, capped_eq hn]
    exact (prints_path hname).toks (by simp [tyToks])
  | .named name (g :: gs), n, b => by
    rintro ⟨hn, hname, hgs⟩
    have hlist := prints_bracketed (b := true) (prints_tys (g :: gs) (n + 1) hgs)
    rw [typeStrDepth, capped_eq hn]
    refine ((prints_path (b := b) hname).append (hlist.mono fun _ _ => trivial)
      fun rest _ => wordEnd_cons rfl _).text ?_ |>.toks ?_
    · simp
    · simp [tyToks]

theorem prints_tys : ∀ (ts : List (Ty String)) (n : Nat), TysText n ts →
    TyMembers (typeStrsDepth n ts) (tyTokss ts)
  | [], _, _ => .nil
  | t :: ts, n, h => .cons ⟨fun b => prints_ty t n b h.1, ty_noBlank h.1⟩ (prints_tys ts n h.2)

end

end Types

section Expressions

mutual

/-- The expressions whose text the scan gives back. -/
def ExprText : Expr String String → Prop
  | .int v => 0 ≤ v ∧ v < 2 ^ 127
  | .float s => FloatText s
  | .name s generics => IsName s ∧ TysText 0 generics
  | .unary _ x => ExprText x
  | .binary _ l r => ExprText l ∧ ExprText r
  | .cast x ty => ExprText x ∧ TyText 0 ty
  | .field base s generics => ExprText base ∧ IsName s ∧ TysText 0 generics
  | .method receiver s generics args =>
    ExprText receiver ∧ IsName s ∧ TysText 0 generics ∧ ArgsText args
  | .call callee args => ExprText callee ∧ ArgsText args
  | .index base index => ExprText base ∧ ExprText index
  | .trust tag crib => ExprText tag ∧ ExprText crib
  | .struct lit => StructText lit
  | .array elems => ExprsText elems
  | .cop init crib => CopText init ∧ ExprText crib
  | _ => True

def ExprsText : List (Expr String String) → Prop
  | [] => True
  | e :: es => ExprText e ∧ ExprsText es

def ArgsText : List (Arg String String) → Prop
  | [] => True
  | .mk label value :: as => (∀ l, label = some l → l = "in" ∨ IsName l) ∧ ExprText value ∧ ArgsText as

def StructText : StructLit String String → Prop
  | .mk name generics fields => PathText name ∧ TysText 0 generics ∧ FieldsText fields

def FieldsText : List (FieldInit String String) → Prop
  | [] => True
  | .mk name value :: fs => IsName name ∧ ExprText value ∧ FieldsText fs

def CopText : CopInit String String → Prop
  | .struct lit => StructText lit
  | .variant name args => PathText name ∧ ArgsText args

end

variable {b : Bool}

theorem fmtFloat_eq {s : String} (h : FloatText s) : fmtFloat s = s.toList := by
  have hmark : '.' ∈ s.toList ∨ 'e' ∈ s.toList ∨ 'E' ∈ s.toList := by
    rcases h.2 with h | h
    · obtain ⟨d, -, v, hv, hdv⟩ := Pattern.mem_seq.mp h
      obtain ⟨t, ⟨c, hc, rfl⟩, y, -, rfl⟩ := Pattern.mem_seq.mp hv
      rw [← hdv]
      exact .inl (by simp [eq_of_beq hc])
    · obtain ⟨d, -, x, hx, hdx⟩ := Pattern.mem_seq.mp h
      rw [← hdx]
      cases x with
      | nil => exact absurd hx exponent_nil
      | cons c x =>
        rcases exponent_head hx with rfl | rfl
        · exact .inr (.inl (by simp))
        · exact .inr (.inr (by simp))
  rw [fmtFloat, if_pos hmark]

/-- A text that an expression can start with. -/
def Begins (w : Text) : Prop := ∃ c v, w = c :: v ∧ exprStart c = true

theorem Begins.append {w : Text} (h : Begins w) (v : Text) : Begins (w ++ v) := by
  obtain ⟨c, u, rfl, hc⟩ := h
  exact ⟨c, u ++ v, rfl, hc⟩

theorem begins_ident {w : Text} (h : ∃ c v, w = c :: v ∧ identStart c = true) : Begins w := by
  obtain ⟨c, v, rfl, hc⟩ := h
  exact ⟨c, v, rfl, by simp [exprStart, hc]⟩

theorem begins_digit {w : Text} (h : ∃ c v, w = c :: v ∧ digit c = true) : Begins w := by
  obtain ⟨c, v, rfl, hc⟩ := h
  exact ⟨c, v, rfl, by simp [exprStart, hc]⟩

theorem Begins.noBlank {w : Text} (h : Begins w) (rest : Text) : NoBlank (w ++ rest) := by
  obtain ⟨c, v, rfl, hc⟩ := h
  refine noBlank_cons ⟨?_, ?_⟩ _ <;> (rintro rfl; cases hc)

theorem begins_operand {print : Bool → Text} (h : ∀ ns, Begins (print ns)) (paren ns : Bool) :
    Begins (operand print paren ns) := by
  cases paren with
  | true => exact ⟨'(', _, rfl, rfl⟩
  | false => exact h ns

theorem begins_path {p : Path String} (h : PathText p) : Begins (pathStr p) := by
  obtain ⟨head, member⟩ := p
  cases member with
  | none => exact begins_ident (name_head h.1)
  | some m => exact (begins_ident (name_head h.1)).append _

theorem begins_struct {lit : StructLit String String} (h : StructText lit) : Begins (structLit lit) := by
  obtain ⟨name, generics, fields⟩ := lit
  exact ((begins_path h.1).append _).append _

theorem decimal_head (n : Nat) : ∃ c v, decimal n = c :: v ∧ digit c = true := by
  obtain ⟨c, t, ht, hc, -⟩ := mem_dec.mp (decimal_dec n)
  exact ⟨c, t, ht, hc⟩

theorem intStr_eq {v : Int} (hv : 0 ≤ v) : intStr v = decimal v.toNat := if_pos hv

theorem begins_expr : ∀ (e : Expr String String) (ns : Bool), ExprText e → Begins (expr ns e)
  | .int v, _, h => by
    rw [expr, intStr_eq h.1]
    exact begins_digit (decimal_head _)
  | .float s, _, h => by
    rw [expr, fmtFloat_eq h]
    exact begins_digit (float_head h)
  | .str _, _, _ => ⟨'"', _, rfl, rfl⟩
  | .byte _, _, _ => ⟨'\'', _, rfl, rfl⟩
  | .bool true, _, _ => ⟨'n', _, rfl, rfl⟩
  | .bool false, _, _ => ⟨'c', _, rfl, rfl⟩
  | .ghosted, _, _ => ⟨'g', _, rfl, rfl⟩
  | .name _ _, _, h => (begins_ident (name_head h.1)).append _
  | .unary op _, _, _ => by cases op <;> exact ⟨_, _, rfl, rfl⟩
  | .binary _ l _, ns, h => by
    exact (((((begins_operand (fun ns => begins_expr l ns h.1) _ ns).append _).append _).append _).append _)
  | .cast x _, ns, h => ((begins_operand (fun ns => begins_expr x ns h.1) _ ns).append _).append _
  | .field base _ _, ns, h =>
    (((begins_operand (fun ns => begins_expr base ns h.1) _ ns).append _).append _).append _
  | .method receiver _ _ _, ns, h =>
    ((((((begins_operand (fun ns => begins_expr receiver ns h.1) _ ns).append _).append _).append _).append
      _).append _).append _
  | .call callee _, ns, h =>
    (((begins_operand (fun ns => begins_expr callee ns h.1) _ ns).append _).append _).append _
  | .index base _, ns, h =>
    (((begins_operand (fun ns => begins_expr base ns h.1) _ ns).append _).append _).append _
  | .trust tag _, ns, h => ((begins_operand (fun ns => begins_expr tag ns h.1) _ ns).append _).append _
  | .struct _, true, _ => ⟨'(', _, rfl, rfl⟩
  | .struct _, false, h => begins_struct h
  | .array _, _, _ => ⟨'[', _, rfl, rfl⟩
  | .cop _ _, _, _ => ⟨'c', _, rfl, rfl⟩

theorem byte_of_char {v : UInt8} {c : Char} (h : Char.ofNat v.toNat = c) :
    c.toNat ≤ 0xFF ∧ c.toNat.toUInt8 = v := by
  have hlt := v.toNat_lt
  have hvalid : v.toNat.isValidChar := .inl (by omega)
  have hnat : c.toNat = v.toNat := by
    rw [← h, Char.ofNat, dif_pos hvalid]
    rfl
  rw [hnat]
  exact ⟨by omega, UInt8.ofNat_toNat⟩

/-- A byte is written as one byte literal, and the literal is read as that byte. -/
theorem escapeByte_scans (v : UInt8) :
    escapeByte v ∈ byteRule.pat.lang ∧ unescapeByte (escapeByte v) = some v := by
  generalize hc : Char.ofNat v.toNat = c
  obtain ⟨hle, hback⟩ := byte_of_char hc
  rw [escapeByte, hc]
  split
  iterate 6
    exact ⟨mem_byte.mpr (.inr ⟨_, by decide, rfl⟩), by rw [← hback]; rfl⟩
  next hslash hquote hline _ _ _ =>
    refine ⟨mem_byte.mpr (.inl ⟨c, hquote, hslash, hline, rfl⟩), ?_⟩
    have hinner : Lexer.inner ('\'' :: ([c] ++ ['\''])) = [c] := rfl
    simp only [unescapeByte, hinner]
    rw [if_neg hslash, Option.bind_some, if_pos hle, hback]

theorem prints_escapeByte (v : UInt8) : Prints (escapeByte v) b true [.byte v] (fun _ => True) :=
  prints_byte (escapeByte_scans v).1 (escapeByte_scans v).2 b

theorem prints_typeArgs {gs : List (Ty String)} (h : TysText 0 gs) :
    Prints (typeArgs gs) true true (typeArgToks gs) (fun _ => True) := by
  cases gs with
  | nil => exact .nil
  | cons g gs => exact prints_bracketed (prints_tys (g :: gs) 0 h)

/-- A name, with type arguments or without. -/
theorem prints_generic {w : Text} {toks : List Token} {gs : List (Ty String)}
    (hw : Prints w b true toks WordEnd) (h : TysText 0 gs) :
    Prints (w ++ typeArgs gs) b true (toks ++ typeArgToks gs) NumEnd := by
  refine hw.append ((prints_typeArgs h).mono fun _ _ => trivial) fun rest hrest => ?_
  cases gs with
  | nil => exact hrest.1
  | cons g gs => exact wordEnd_cons rfl _

/-- The members of a list of expressions. -/
abbrev Members (ws : List Text) (tss : List (List Token)) : Prop :=
  List.Forall₂ (fun w toks => (∀ b, Prints w b true toks NumEnd) ∧ ∀ rest, NoBlank (w ++ rest)) ws tss

theorem numEnd_comma (rest : Text) : NumEnd (',' :: rest) := numEnd_cons rfl (by decide) rest

theorem prints_paren {w : Text} {toks : List Token} (h : Prints w false true toks NumEnd) :
    Prints ("(".toList ++ w ++ ")".toList) b true (parens toks) (fun _ => True) := by
  have hclosed := h.append
    (prints_single (c := ')') (t := .rParen) (by simp [singles]) (by simp) true)
    fun rest _ => numEnd_cons rfl (by decide) rest
  refine (prints_open (c := '(') (t := .lParen) (by simp [singles]) (by simp) hclosed).text ?_
  rw [List.append_assoc]
  rfl

theorem prints_operand {print : Bool → Text} {toks : Bool → List Token}
    (h : ∀ ns b, Prints (print ns) b true (toks ns) NumEnd) (paren ns b : Bool) :
    Prints (operand print paren ns) b true (operandToks toks paren ns) NumEnd := by
  cases paren with
  | true => exact (prints_paren (h false false)).mono fun _ _ => trivial
  | false => exact h ns b

theorem numEnd_blank (rest : Text) : NumEnd (' ' :: rest) := numEnd_cons rfl (by decide) rest

theorem unop_sign (op : UnOp) : ∃ c, (unopStr op).toList = [c] ∧ (c, unopTok op) ∈ unarySigns := by
  cases op with
  | neg => exact ⟨'-', rfl, by simp [unarySigns, unopTok]⟩
  | not => exact ⟨'!', rfl, by simp [unarySigns, unopTok]⟩
  | bitNot => exact ⟨'~', rfl, by simp [unarySigns, unopTok]⟩

theorem binop_sign (op : BinOp) : (binopStr op, binopTok op) ∈ spacedSigns := by
  cases op <;> simp [spacedSigns, binopStr, binopTok]

theorem prints_unop (op : UnOp) {w : Text} {toks : List Token} (hw : Begins w)
    (h : ∀ b, Prints w b true toks NumEnd) :
    Prints ((unopStr op).toList ++ w) b true (unopTok op :: toks) NumEnd := by
  obtain ⟨c, hc, hmem⟩ := unop_sign op
  have ht : unopTok op ≠ .newline := by cases op <;> simp [unopTok]
  rw [hc]
  refine (prints_unary hmem ht b).append (h _) fun rest _ => ?_
  obtain ⟨c', v, rfl, hstart⟩ := hw
  exact ⟨c', rfl, hstart⟩

theorem prints_binop (op : BinOp) : Prints (" ".toList ++ (binopStr op).toList ++ " ".toList) b
    (binopTok op).endsStatement [binopTok op] NoBlank := prints_signBetween (binop_sign op)

theorem prints_args {ws : List Text} {tss : List (List Token)} (h : Members ws tss) :
    Prints ("(".toList ++ commaJoin ws ++ ")".toList) b true (parens (commaToks tss)) (fun _ => True) :=
  prints_parens h (numEnd_cons rfl (by decide)) numEnd_comma

/-- A bracket behind an operand. -/
theorem numEnd_lBracket (w rest : Text) : NumEnd ("[".toList ++ w ++ "]".toList ++ rest) :=
  numEnd_cons rfl (by decide) _

theorem prints_elems {ws : List Text} {tss : List (List Token)} (h : Members ws tss) :
    Prints ("[".toList ++ commaJoin ws ++ "]".toList) b true (brackets (commaToks tss)) (fun _ => True) := by
  have hclosed := prints_closed (b := false) (c := ']') (t := .rBracket) h (by simp [singles]) (by simp)
    (numEnd_cons rfl (by decide)) numEnd_comma
  refine (prints_open (c := '[') (t := .lBracket) (by simp [singles]) (by simp) hclosed).text ?_
  rw [List.append_assoc]
  rfl

theorem prints_fields {ws : List Text} {tss : List (List Token)} (h : Members ws tss) :
    Prints (if ws.isEmpty then "\x7b\x7d".toList else "\x7b ".toList ++ commaJoin ws ++ " \x7d".toList)
      b true (braces (commaToks tss)) (fun _ => True) := by
  have hclose (b : Bool) : Prints ['\x7d'] b true [.rBrace] (fun _ => True) :=
    prints_single (t := .rBrace) (by simp [singles]) (by simp) b
  cases h with
  | nil => exact prints_open (c := '\x7b') (t := .lBrace) (by simp [singles]) (by simp) (hclose _)
  | @cons w toks ws tss hw hws =>
    have hblank := prints_behind (hclose true) fun rest _ => noBlank_cons (by decide) rest
    have hjoin := prints_commaJoin (b := false) (.cons hw hws) (by simp) numEnd_comma
    have hbody := hjoin.append hblank fun rest _ => numEnd_blank _
    have hfront := prints_behind hbody fun rest _ => by
      rw [commaJoin, List.append_assoc, List.append_assoc]
      exact hw.2 _
    refine (prints_open (c := '\x7b') (t := .lBrace) (by simp [singles]) (by simp) hfront).text ?_ |>.toks ?_
    · simp
    · simp [braces]

theorem isName_in : ("in", Token.inKw) ∈ keywords := by simp [keywords]

/-- A value behind its name. -/
theorem prints_named {w v : Text} {t : Token} {toks : List Token} (hw : Prints w b t.endsStatement [t] WordEnd)
    (hv : ∀ b, Prints v b true toks NumEnd) (hblank : ∀ rest, NoBlank (v ++ rest)) :
    Prints (w ++ ": ".toList ++ v) b true (t :: .colon :: toks) NumEnd := by
  have hcolon := hw.append prints_colon fun rest _ => wordEnd_cons rfl _
  exact (hcolon.append (hv _) fun rest _ => hblank rest)

theorem named_noBlank {w v : Text} (hw : ∀ rest, NoBlank (w ++ rest)) (rest : Text) :
    NoBlank (w ++ ": ".toList ++ v ++ rest) := noBlank_append (noBlank_append hw _) _ _

/-- The label of an argument is a name, or the word before an allocator. -/
def LabelText (s : String) : Prop := s = "in" ∨ IsName s

theorem prints_label {s : String} (h : LabelText s) {v : Text} {toks : List Token}
    (hv : ∀ b, Prints v b true toks NumEnd) (hblank : ∀ rest, NoBlank (v ++ rest)) :
    Prints (name s ++ ": ".toList ++ v) b true (labelToks (some s) ++ toks) NumEnd := by
  by_cases hin : s = "in"
  · subst hin
    exact prints_named (prints_keyword isName_in b) hv hblank
  · have hname := prints_named (t := .ident s) (prints_name (h.resolve_left hin) b) hv hblank
    exact hname.toks (by simp [labelToks, hin])

theorem label_noBlank {s : String} (h : LabelText s) (rest : Text) : NoBlank (name s ++ rest) := by
  rcases h with rfl | h
  · exact keyword_noBlank isName_in rest
  · exact name_noBlank h rest

theorem prints_structHead {p : Path String} {gs : List (Ty String)} (hp : PathText p) (hgs : TysText 0 gs)
    {ws : List Text} {tss : List (List Token)} (h : Members ws tss) :
    Prints (pathStr p ++ typeArgs gs ++
      (if ws.isEmpty then "\x7b\x7d".toList else "\x7b ".toList ++ commaJoin ws ++ " \x7d".toList))
      b true (pathToks p ++ typeArgToks gs ++ braces (commaToks tss)) (fun _ => True) := by
  refine (prints_generic (prints_path hp) hgs).append (prints_fields h) fun rest _ => ?_
  split
  · exact numEnd_cons rfl (by decide) _
  · exact numEnd_cons rfl (by decide) _

theorem fieldTexts_isEmpty (fs : List (FieldInit String String)) : (fieldTexts fs).isEmpty = fs.isEmpty := by
  rcases fs with _ | ⟨⟨s, v⟩, fs⟩ <;> rfl

theorem prints_trust : Prints ".trust()".toList b true [.dot, .trust, .lParen, .rParen] (fun _ => True) := by
  have hparens := prints_open (b := false) (c := '(') (t := .lParen) (by simp [singles]) (by simp)
    (prints_single (c := ')') (t := .rParen) (by simp [singles]) (by simp) false)
  have hword := (prints_keyword (s := "trust") (t := .trust) (by simp [keywords]) false).append hparens
    fun rest _ => wordEnd_cons rfl _
  exact prints_open (c := '.') (t := .dot) (by simp [singles]) (by simp) hword

theorem begins_copInit {init : CopInit String String} (h : CopText init) : Begins (copInit init) := by
  cases init with
  | struct lit => exact begins_struct h
  | variant p args => exact (begins_path h.1).append _

mutual

theorem prints_expr : ∀ (e : Expr String String) (ns b : Bool), ExprText e →
    Prints (expr ns e) b true (exprToks ns e) NumEnd
  | .int v, ns, b, ⟨h0, hmax⟩ => by
    have hint := prints_int (n := v.toNat) (by omega) b
    rw [expr, intStr_eq h0]
    exact hint.toks (by simp [exprToks, Int.toNat_of_nonneg h0])
  | .float s, ns, b, h => by
    rw [expr, fmtFloat_eq h]
    exact prints_float h b
  | .str s, ns, b, _ => (prints_str s b).mono fun _ _ => trivial
  | .byte v, ns, b, _ => (prints_escapeByte v).mono fun _ _ => trivial
  | .bool true, ns, b, _ =>
    (prints_keyword (s := "nocap") (t := .nocap) (by simp [keywords]) b).mono fun _ h => h.1
  | .bool false, ns, b, _ =>
    (prints_keyword (s := "cap") (t := .cap) (by simp [keywords]) b).mono fun _ h => h.1
  | .ghosted, ns, b, _ =>
    (prints_keyword (s := "ghosted") (t := .ghosted) (by simp [keywords]) b).mono fun _ h => h.1
  | .name s generics, ns, b, h => prints_generic (prints_name h.1 b) h.2
  | .unary op x, ns, b, h =>
    prints_unop op (begins_operand (fun ns => begins_expr x ns h) _ _)
      (prints_operand (fun ns b => prints_expr x ns b h) _ ns)
  | .binary op l r, ns, b, h => by
    have hl := prints_operand (fun ns b => prints_expr l ns b h.1) (exprPrec l < binopPrec op) ns b
    have hr := prints_operand (fun ns b => prints_expr r ns b h.2) (exprPrec r ≤ binopPrec op) ns
      (binopTok op).endsStatement
    have hsign := (prints_binop (b := true) op).append hr fun rest _ =>
      (begins_operand (fun ns => begins_expr r ns h.2) _ _).noBlank rest
    refine (hl.append hsign fun rest _ => numEnd_blank _).text ?_ |>.toks ?_
    · simp [expr]
    · simp [exprToks]
  | .cast x ty, ns, b, h => by
    have hx := prints_operand (fun ns b => prints_expr x ns b h.1) (exprPrec x < precCast) ns b
    have hty := (prints_as (b := true)).append (prints_ty ty 0 _ h.2) fun rest _ => ty_noBlank h.2 rest
    refine (hx.append (hty.mono fun _ h => h.1) fun rest _ => numEnd_blank _).text ?_
    simp [expr, typeStr]
  | .field base s generics, ns, b, h => by
    have hbase := prints_operand (fun ns b => prints_expr base ns b h.1) (exprPrec base < precPostfix) ns b
    have hname := prints_generic (prints_dot (b := true) h.2.1) h.2.2
    refine (hbase.append hname fun rest _ => ?_).text ?_
    · simpa using numEnd_dot h.2.1 (typeArgs generics ++ rest)
    · simp [expr, name]
  | .method receiver s generics args, ns, b, h => by
    have hbase := prints_operand (fun ns b => prints_expr receiver ns b h.1)
      (exprPrec receiver < precPostfix) ns b
    have hargs := prints_args (b := true) (prints_argTexts args h.2.2.2)
    have hname := (prints_generic (prints_dot (b := true) h.2.1) h.2.2.1).append hargs
      fun rest _ => numEnd_cons rfl (by decide) _
    refine (hbase.append (hname.mono fun _ _ => trivial) fun rest _ => ?_).text ?_ |>.toks ?_
    · simpa using numEnd_dot h.2.1 (typeArgs generics ++ ("(".toList ++ commaJoin (argTexts args) ++ ")".toList ++ rest))
    · simp [expr, name]
    · simp [exprToks]
  | .call callee args, ns, b, h => by
    have hcallee := prints_operand (fun ns b => prints_expr callee ns b h.1) (exprPrec callee < precPostfix) ns b
    have hargs := prints_args (b := true) (prints_argTexts args h.2)
    refine (hcallee.append (hargs.mono fun _ _ => trivial) fun rest _ => numEnd_cons rfl (by decide) _).text ?_
    simp [expr]
  | .index base index, ns, b, h => by
    have hbase := prints_operand (fun ns b => prints_expr base ns b h.1) (exprPrec base < precPostfix) ns b
    have hindex := (prints_expr index false false h.2).append
      (prints_single (c := ']') (t := .rBracket) (by simp [singles]) (by simp) true)
      fun rest _ => numEnd_cons rfl (by decide) rest
    have hopen := prints_open (b := true) (c := '[') (t := .lBracket) (by simp [singles]) (by simp) hindex
    refine (hbase.append (hopen.mono fun _ _ => trivial) fun rest _ => numEnd_cons rfl (by decide) _).text ?_
    simp [expr]
  | .trust tag crib, ns, b, h => by
    have htag := prints_operand (fun ns b => prints_expr tag ns b h.1) (exprPrec tag < precPostfix) ns b
    have hcrib := prints_operand (fun ns b => prints_expr crib ns b h.2) (exprPrec crib < precPostfix) ns
      false
    have hin := (prints_in (b := true)).append hcrib fun rest _ =>
      (begins_operand (fun ns => begins_expr crib ns h.2) _ _).noBlank rest
    refine (htag.append (prints_trust.append hin fun _ _ => trivial) fun rest _ => ?_).text ?_
    · exact ⟨wordEnd_cons rfl _, by rintro _ _ ⟨⟩; rfl⟩
    · simp [expr]
  | .struct lit, true, b, h => (prints_paren (prints_structLit lit false h)).mono fun _ _ => trivial
  | .struct lit, false, b, h => prints_structLit lit b h
  | .array elems, ns, b, h => (prints_elems (prints_exprTexts elems h)).mono fun _ _ => trivial
  | .cop init crib, ns, b, h => by
    have hinit := (prints_lead (b := b) (s := "cop") (t := .cop) (by simp [keywords])).append
      (prints_copInit init false h.1) fun rest _ => (begins_copInit h.1).noBlank rest
    have hcrib := prints_operand (fun ns b => prints_expr crib ns b h.2) (exprPrec crib < precPostfix) ns
      false
    have hin := (prints_in (b := true)).append hcrib fun rest _ =>
      (begins_operand (fun ns => begins_expr crib ns h.2) _ _).noBlank rest
    refine (hinit.append hin fun rest _ => numEnd_blank _).text ?_ |>.toks ?_
    · simp [expr]
    · simp [exprToks]

theorem prints_exprTexts : ∀ es : List (Expr String String), ExprsText es → Members (exprTexts es) (exprTokss es)
  | [], _ => .nil
  | e :: es, h =>
    .cons ⟨fun b => prints_expr e false b h.1, (begins_expr e false h.1).noBlank⟩ (prints_exprTexts es h.2)

theorem prints_argTexts : ∀ as : List (Arg String String), ArgsText as → Members (argTexts as) (argTokss as)
  | [], _ => .nil
  | .mk none value :: as, ⟨_, hvalue, has⟩ =>
    .cons ⟨fun b => prints_expr value false b hvalue, (begins_expr value false hvalue).noBlank⟩
      (prints_argTexts as has)
  | .mk (some label) value :: as, ⟨hlabel, hvalue, has⟩ =>
    .cons ⟨fun _ => prints_label (hlabel label rfl) (prints_expr value false · hvalue)
        (begins_expr value false hvalue).noBlank,
      named_noBlank (label_noBlank (hlabel label rfl))⟩ (prints_argTexts as has)

theorem prints_structLit : ∀ (lit : StructLit String String) (b : Bool), StructText lit →
    Prints (structLit lit) b true (structToks lit) NumEnd
  | .mk p generics fields, b, ⟨hp, hgs, hfields⟩ => by
    have hlit := prints_structHead (b := b) hp hgs (prints_fieldTexts fields hfields)
    rw [structLit, structToks, ← fieldTexts_isEmpty]
    exact hlit.mono fun _ _ => trivial

theorem prints_fieldTexts : ∀ fs : List (FieldInit String String), FieldsText fs →
    Members (fieldTexts fs) (fieldTokss fs)
  | [], _ => .nil
  | .mk s value :: fs, ⟨hs, hvalue, hfs⟩ =>
    .cons ⟨fun b => prints_named (t := .ident s) (prints_name hs b) (prints_expr value false · hvalue)
        (begins_expr value false hvalue).noBlank,
      named_noBlank (name_noBlank hs)⟩ (prints_fieldTexts fs hfs)

theorem prints_copInit : ∀ (init : CopInit String String) (b : Bool), CopText init →
    Prints (copInit init) b true (copToks init) NumEnd
  | .struct lit, b, h => prints_structLit lit b h
  | .variant p [], b, ⟨hp, _⟩ => by
    refine ((prints_path hp).mono fun _ h => h.1).text ?_ |>.toks ?_ <;> simp [copInit, copToks]
  | .variant p (a :: as), b, ⟨hp, has⟩ => by
    have hargs := prints_args (b := true) (prints_argTexts (a :: as) has)
    exact (prints_path hp).append (hargs.mono fun _ _ => trivial) fun rest _ => wordEnd_cons rfl _

end

end Expressions

end BetLang.Fmt
