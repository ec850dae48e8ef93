import Mathlib.Data.List.Basic
import Mathlib.Data.List.GetD

/-! The tokens of source text, and the pass that makes separators of newlines. -/

namespace BetLang.Lexer

/-- `float` carries the text that is read as a number, without its underscores. -/
inductive Token where
  | newline
  | semi
  | finna
  | bet
  | lowkey
  | facts
  | drip
  | moods
  | pull
  | externKw
  | fr
  | naw
  | vibin
  | squad
  | dip
  | skip
  | vibe
  | slide
  | yeet
  | sheesh
  | bounce
  | nocap
  | cap
  | ghosted
  | flex
  | hush
  | crib
  | soa
  | cop
  | evict
  | tag
  | holla
  | trust
  | inKw
  | asKw
  | ident (name : String)
  | float (text : String)
  | int (value : Int)
  | str (value : String)
  | byte (value : UInt8)
  | arrow
  | eqEq
  | ne
  | le
  | ge
  | shlEq
  | shrEq
  | shl
  | shr
  | andAnd
  | orOr
  | plusEq
  | minusEq
  | starEq
  | slashEq
  | percentEq
  | ampEq
  | pipeEq
  | caretEq
  | lt
  | gt
  | eq
  | plus
  | minus
  | star
  | slash
  | percent
  | amp
  | pipe
  | caret
  | tilde
  | bang
  | dot
  | comma
  | colon
  | lBracket
  | rBracket
  | lParen
  | rParen
  | lBrace
  | rBrace
  deriving DecidableEq

structure Span where
  start : Nat
  fin : Nat
  deriving DecidableEq

structure Spanned where
  tok : Token
  span : Span
  deriving DecidableEq

def Token.endsStatement : Token → Bool
  | .ident _ | .int _ | .float _ | .str _ | .byte _ | .nocap | .cap | .ghosted | .rParen
  | .rBracket | .rBrace | .bet | .dip | .skip | .bounce => true
  | _ => false

/-- `apply_asi`, from the state of `prev_ends` on. -/
def asiLoop (prevEnds : Bool) : List Spanned → List Spanned
  | [] => []
  | sp :: raw =>
    match sp.tok with
    | .newline => if prevEnds then ⟨.semi, sp.span⟩ :: asiLoop false raw else asiLoop prevEnds raw
    | .semi => sp :: asiLoop false raw
    | _ => sp :: asiLoop sp.tok.endsStatement raw

def applyAsi (raw : List Spanned) : List Spanned := asiLoop false raw

section Grammar

def Token.isIdentifier : Token → Bool
  | .ident _ => true
  | _ => false

def Token.isLiteral : Token → Bool
  | .int _ | .float _ | .str _ | .byte _ | .nocap | .cap | .ghosted => true
  | _ => false

def Token.isClosingBracket : Token → Bool
  | .rParen | .rBracket | .rBrace => true
  | _ => false

def Token.isStatementKeyword : Token → Bool
  | .bet | .dip | .skip | .bounce => true
  | _ => false

/-- Grammar L6: the tokens that can end a statement. -/
def Token.CanEnd (t : Token) : Prop :=
  t.isIdentifier ∨ t.isLiteral ∨ t.isClosingBracket ∨ t.isStatementKeyword

theorem endsStatement_eq (t : Token) : t.endsStatement =
    (t.isIdentifier || (t.isLiteral || (t.isClosingBracket || t.isStatementKeyword))) := by
  cases t <;> rfl

theorem endsStatement_iff (t : Token) : t.endsStatement = true ↔ t.CanEnd := by
  rw [endsStatement_eq, Bool.or_eq_true, Bool.or_eq_true, Bool.or_eq_true]
  rfl

/-- The last token before a place that is not a newline can end a statement, and no separator has
followed it yet; `pieces` is what each token has become. -/
def Due (raw : List Spanned) (pieces : List (List Spanned)) (i : Nat) : Prop :=
  ∃ j < i, (∃ sp, raw[j]? = some sp ∧ sp.tok.CanEnd) ∧
    ∀ k, j < k → k < i → (∃ nl, raw[k]? = some nl ∧ nl.tok = .newline) ∧ pieces[k]? = some []

/-- A newline is dropped or becomes a separator where one is due, all other tokens are kept. -/
structure Terminates (raw : List Spanned) (pieces : List (List Spanned)) : Prop where
  length : pieces.length = raw.length
  kept : ∀ (i : Nat) (sp : Spanned), raw[i]? = some sp → sp.tok ≠ .newline → pieces[i]? = some [sp]
  replaced : ∀ (i : Nat) (nl : Spanned), raw[i]? = some nl → nl.tok = .newline →
    Due raw pieces i → pieces[i]? = some [⟨.semi, nl.span⟩]
  dropped : ∀ (i : Nat) (nl : Spanned), raw[i]? = some nl → nl.tok = .newline →
    ¬Due raw pieces i → pieces[i]? = some []

/-- No separator stands next to one that a newline has become. -/
def Coalesced (raw : List Spanned) (pieces : List (List Spanned)) : Prop :=
  ∀ (i : Nat) (nl sep : Spanned), raw[i]? = some nl → nl.tok = .newline →
    pieces[i]? = some [sep] →
    (∀ sp, (pieces.take i).flatten.getLast? = some sp → sp.tok ≠ .semi) ∧
      ∀ sp, (pieces.drop (i + 1)).flatten.head? = some sp → sp.tok ≠ .semi

/-- A statement's last token, newlines, and then a `;`. -/
def SplitSeparator (raw : List Spanned) : Prop :=
  ∃ (before newlines behind : List Spanned) (sp nl sep : Spanned),
    raw = before ++ sp :: nl :: (newlines ++ sep :: behind) ∧ sp.tok.CanEnd ∧
      (∀ nl' ∈ nl :: newlines, nl'.tok = .newline) ∧ sep.tok = .semi

end Grammar

/-- What a token becomes behind another one. -/
def pieceAfter (prev : Option Spanned) (sp : Spanned) : List Spanned :=
  if sp.tok = .newline then
    if prev.any (·.tok.endsStatement) then [⟨.semi, sp.span⟩] else []
  else [sp]

def asiPieces (prev : Option Spanned) : List Spanned → List (List Spanned)
  | [] => []
  | sp :: raw => pieceAfter prev sp :: asiPieces (some sp) raw

theorem asiLoop_eq (prev : Option Spanned) (raw : List Spanned) :
    asiLoop (prev.any (·.tok.endsStatement)) raw = (asiPieces prev raw).flatten := by
  induction raw generalizing prev with
  | nil => rfl
  | cons sp raw ih =>
    have hnext := ih (some sp)
    rw [Option.any_some] at hnext
    rw [asiLoop, asiPieces, List.flatten_cons, ← hnext, pieceAfter]
    split
    · rename_i htok
      have hends : Token.newline.endsStatement = false := rfl
      cases prev.any (·.tok.endsStatement) <;> simp [htok, hends]
    · rename_i htok
      have hends : Token.semi.endsStatement = false := rfl
      simp [htok, hends]
    · rename_i hnewline _
      simp [show sp.tok ≠ .newline from hnewline]

theorem applyAsi_eq (raw : List Spanned) : applyAsi raw = (asiPieces none raw).flatten :=
  asiLoop_eq none raw

theorem asiPieces_length (prev : Option Spanned) (raw : List Spanned) :
    (asiPieces prev raw).length = raw.length := by
  induction raw generalizing prev with
  | nil => rfl
  | cons sp raw ih => simp [asiPieces, ih]

theorem asiPieces_zero (prev : Option Spanned) (raw : List Spanned) :
    (asiPieces prev raw)[0]? = raw[0]?.map (pieceAfter prev) := by
  cases raw <;> rfl

theorem asiPieces_succ (prev : Option Spanned) (raw : List Spanned) (i : Nat) :
    (asiPieces prev raw)[i + 1]? = raw[i + 1]?.map (pieceAfter raw[i]?) := by
  induction raw generalizing prev i with
  | nil => rfl
  | cons sp raw ih =>
    cases i with
    | zero => simpa [asiPieces] using asiPieces_zero (some sp) raw
    | succ i => simpa [asiPieces] using ih (some sp) i

theorem asiPieces_drop (prev : Option Spanned) (raw : List Spanned) (i : Nat) :
    (asiPieces prev raw).drop (i + 1) = asiPieces raw[i]? (raw.drop (i + 1)) := by
  induction raw generalizing prev i with
  | nil => rfl
  | cons sp raw ih =>
    cases i with
    | zero => rfl
    | succ i => simpa [asiPieces] using ih (some sp) i

theorem newline_cannot_end : ¬Token.newline.CanEnd := by
  rw [← endsStatement_iff]
  exact Bool.false_ne_true

theorem semi_cannot_end : ¬Token.semi.CanEnd := by
  rw [← endsStatement_iff]
  exact Bool.false_ne_true

/-- A separator is due directly behind the last token of a statement, and nowhere else. -/
theorem due_iff {raw : List Spanned} {pieces : List (List Spanned)}
    (hreplaced : ∀ i nl sp, raw[i + 1]? = some nl → nl.tok = .newline → raw[i]? = some sp →
      sp.tok.CanEnd → pieces[i + 1]? ≠ some []) (i : Nat) :
    Due raw pieces i ↔ ∃ j sp, i = j + 1 ∧ raw[j]? = some sp ∧ sp.tok.CanEnd := by
  constructor
  · rintro ⟨j, hj, ⟨sp, hsp, hend⟩, hbetween⟩
    by_cases hlast : i = j + 1
    · exact ⟨j, sp, hlast, hsp, hend⟩
    · obtain ⟨⟨nl, hnl, htok⟩, hempty⟩ := hbetween (j + 1) (by omega) (by omega)
      exact absurd hempty (hreplaced j nl sp hnl htok hsp hend)
  · rintro ⟨j, sp, rfl, hsp, hend⟩
    exact ⟨j, Nat.lt_succ_self j, ⟨sp, hsp, hend⟩, fun k hk hk' => by omega⟩

theorem Terminates.due_iff {raw : List Spanned} {pieces : List (List Spanned)}
    (h : Terminates raw pieces) (i : Nat) :
    Due raw pieces i ↔ ∃ j sp, i = j + 1 ∧ raw[j]? = some sp ∧ sp.tok.CanEnd := by
  refine Lexer.due_iff (fun j nl sp hnl htok hsp hend hempty => ?_) i
  have hdue : Due raw pieces (j + 1) :=
    ⟨j, Nat.lt_succ_self j, ⟨sp, hsp, hend⟩, fun k hk hk' => by omega⟩
  rw [h.replaced (j + 1) nl hnl htok hdue] at hempty
  cases hempty

theorem asiPieces_due_iff (raw : List Spanned) (i : Nat) :
    Due raw (asiPieces none raw) i ↔ ∃ j sp, i = j + 1 ∧ raw[j]? = some sp ∧ sp.tok.CanEnd := by
  refine due_iff (fun j nl sp hnl htok hsp hend => ?_) i
  rw [asiPieces_succ, hnl, hsp, Option.map_some, pieceAfter, if_pos htok, Option.any_some,
    if_pos ((endsStatement_iff _).mpr hend)]
  simp

/-- The look-back flag sees exactly where a separator is due. -/
theorem asiPieces_newline {raw : List Spanned} {i : Nat} {nl : Spanned} (hnl : raw[i]? = some nl)
    (htok : nl.tok = .newline) :
    (Due raw (asiPieces none raw) i → (asiPieces none raw)[i]? = some [⟨.semi, nl.span⟩]) ∧
      (¬Due raw (asiPieces none raw) i → (asiPieces none raw)[i]? = some []) := by
  rw [asiPieces_due_iff]
  cases i with
  | zero =>
    rw [asiPieces_zero, hnl, Option.map_some, pieceAfter, if_pos htok]
    simp
  | succ i =>
    obtain ⟨sp, hsp⟩ : ∃ sp, raw[i]? = some sp := by
      have hlt := (List.getElem?_eq_some_iff.mp hnl).1
      exact ⟨raw[i], List.getElem?_eq_getElem (by omega)⟩
    rw [asiPieces_succ, hnl, hsp, Option.map_some, pieceAfter, if_pos htok, Option.any_some]
    by_cases hends : sp.tok.endsStatement = true
    · have hend := (endsStatement_iff _).mp hends
      simp [hends, hend, hsp]
    · have hend : ¬sp.tok.CanEnd := fun h => hends ((endsStatement_iff _).mpr h)
      simp [hends, hend, hsp]

theorem asiPieces_terminates (raw : List Spanned) : Terminates raw (asiPieces none raw) where
  length := asiPieces_length none raw
  kept i sp hsp htok := by
    cases i with
    | zero => rw [asiPieces_zero, hsp, Option.map_some, pieceAfter, if_neg htok]
    | succ i => rw [asiPieces_succ, hsp, Option.map_some, pieceAfter, if_neg htok]
  replaced _ _ hnl htok := (asiPieces_newline hnl htok).1
  dropped _ _ hnl htok := (asiPieces_newline hnl htok).2

/-- What each token has become is determined. -/
theorem Terminates.unique {raw : List Spanned} {pieces : List (List Spanned)}
    (h : Terminates raw pieces) : pieces = asiPieces none raw := by
  have hcode := asiPieces_terminates raw
  refine List.ext_getElem? fun i => ?_
  cases hsp : raw[i]? with
  | none =>
    have hlen := List.getElem?_eq_none_iff.mp hsp
    rw [List.getElem?_eq_none (by rw [h.length]; exact hlen),
      List.getElem?_eq_none (by rw [hcode.length]; exact hlen)]
  | some sp =>
    by_cases htok : sp.tok = .newline
    · have hsame := (h.due_iff i).trans (hcode.due_iff i).symm
      by_cases hdue : Due raw pieces i
      · rw [h.replaced i sp hsp htok hdue, hcode.replaced i sp hsp htok (hsame.mp hdue)]
      · rw [h.dropped i sp hsp htok hdue,
          hcode.dropped i sp hsp htok fun hd => hdue (hsame.mpr hd)]
    · rw [h.kept i sp hsp htok, hcode.kept i sp hsp htok]

/-- Behind a newline, more of them leave nothing. -/
theorem asiPieces_newlines {prev : Spanned} (hprev : prev.tok = .newline)
    {newlines : List Spanned} (hall : ∀ nl ∈ newlines, nl.tok = .newline) (rest : List Spanned) :
    ∃ last, last.tok = .newline ∧
      (asiPieces (some prev) (newlines ++ rest)).flatten =
        (asiPieces (some last) rest).flatten := by
  induction newlines generalizing prev with
  | nil => exact ⟨prev, hprev, rfl⟩
  | cons nl newlines ih =>
    have htok := hall nl List.mem_cons_self
    obtain ⟨last, hlast, heq⟩ := ih htok fun nl' hnl' => hall nl' (List.mem_cons_of_mem _ hnl')
    refine ⟨last, hlast, ?_⟩
    rw [List.cons_append, asiPieces, List.flatten_cons, heq, pieceAfter, if_pos htok,
      Option.any_some, hprev]
    rfl

theorem newlines_split (raw : List Spanned) :
    ∃ newlines rest, raw = newlines ++ rest ∧ (∀ nl ∈ newlines, nl.tok = .newline) ∧
      ∀ sp, rest.head? = some sp → sp.tok ≠ .newline := by
  refine ⟨raw.takeWhile (·.tok = .newline), raw.dropWhile (·.tok = .newline),
    List.takeWhile_append_dropWhile.symm, fun nl hnl => ?_, fun sp hsp => ?_⟩
  · simpa using List.all_eq_true.mp List.all_takeWhile nl hnl
  · have hne := List.head?_dropWhile_not (fun s : Spanned => decide (s.tok = .newline)) raw
    rw [hsp] at hne
    simpa using hne

/-- The separator of a newline has another one behind it where a `;` follows the newlines. -/
theorem coalesced_iff (raw : List Spanned) :
    Coalesced raw (asiPieces none raw) ↔ ¬SplitSeparator raw := by
  have hcode := asiPieces_terminates raw
  constructor
  · rintro h ⟨before, newlines, behind, sp, nl, sep, rfl, hend, hall, hsep⟩
    have hsp : (before ++ sp :: nl :: (newlines ++ sep :: behind))[before.length]? = some sp := by
      simp
    have hnl : (before ++ sp :: nl :: (newlines ++ sep :: behind))[before.length + 1]? =
        some nl := by
      simp
    have hdrop : (before ++ sp :: nl :: (newlines ++ sep :: behind)).drop (before.length + 2) =
        newlines ++ sep :: behind := by
      simp [List.drop_append]
    have htok := hall nl List.mem_cons_self
    have hdue := (hcode.due_iff (before.length + 1)).mpr ⟨before.length, sp, rfl, hsp, hend⟩
    obtain ⟨last, -, hrest⟩ := asiPieces_newlines htok
      (fun nl' hnl' => hall nl' (List.mem_cons_of_mem _ hnl')) (sep :: behind)
    refine (h _ nl _ hnl htok (hcode.replaced _ nl hnl htok hdue)).2 sep ?_ hsep
    rw [asiPieces_drop, hnl, hdrop, hrest, asiPieces, pieceAfter, if_neg (by simp [hsep])]
    rfl
  · intro hsplit i nl sep hnl htok hpiece
    have hdue : Due raw (asiPieces none raw) i := by
      by_contra hdue
      rw [hcode.dropped i nl hnl htok hdue] at hpiece
      cases hpiece
    obtain ⟨j, sp, rfl, hsp, hend⟩ := (hcode.due_iff i).mp hdue
    have hnot : sp.tok ≠ .newline := fun heq => newline_cannot_end (heq ▸ hend)
    constructor
    · intro sp' hlast
      have hkept := hcode.kept j sp hsp hnot
      rw [List.take_add_one, hkept, Option.toList_some, List.flatten_append, List.flatten_singleton,
        List.getLast?_append, List.getLast?_singleton, Option.some_or, Option.some_inj] at hlast
      exact fun heq => semi_cannot_end (heq ▸ hlast ▸ hend)
    · intro sep' hhead hsep
      rw [asiPieces_drop, hnl] at hhead
      obtain ⟨newlines, rest, hrest, hall, hfirst⟩ := newlines_split (raw.drop (j + 1 + 1))
      obtain ⟨last, -, hflat⟩ := asiPieces_newlines htok hall rest
      rw [hrest, hflat] at hhead
      cases rest with
      | nil => cases hhead
      | cons sp' rest =>
        rw [asiPieces, pieceAfter, if_neg (hfirst sp' rfl)] at hhead
        cases hhead
        refine hsplit ⟨raw.take j, newlines, rest, sp, nl, sep', ?_, hend, ?_, hsep⟩
        · obtain ⟨hj, hget⟩ := List.getElem?_eq_some_iff.mp hsp
          obtain ⟨hj', hget'⟩ := List.getElem?_eq_some_iff.mp hnl
          rw [← hrest, ← hget', ← List.drop_eq_getElem_cons hj', ← hget,
            ← List.drop_eq_getElem_cons hj, List.take_append_drop]
        · intro nl' hnl'
          rcases List.mem_cons.mp hnl' with rfl | hnl'
          · exact htok
          · exact hall nl' hnl'

/-- Each newline is dropped or becomes a separator as grammar L6 says; a separator it becomes stands
alone where no `;` follows the newlines behind a statement. -/
theorem asi_coalesces_iff (raw : List Spanned) :
    (∃ pieces, applyAsi raw = pieces.flatten ∧ Terminates raw pieces) ∧
      ((∃ pieces, applyAsi raw = pieces.flatten ∧ Terminates raw pieces ∧ Coalesced raw pieces) ↔
        ¬SplitSeparator raw) := by
  have hcode := asiPieces_terminates raw
  refine ⟨⟨_, applyAsi_eq raw, hcode⟩, ?_⟩
  rw [← coalesced_iff]
  constructor
  · rintro ⟨pieces, -, hterm, hcoal⟩
    rwa [hterm.unique] at hcoal
  · exact fun hcoal => ⟨_, applyAsi_eq raw, hcode, hcoal⟩

/-- `a`, a newline and a `;`. -/
def splitLine : List Spanned :=
  [⟨.ident "a", ⟨0, 1⟩⟩, ⟨.newline, ⟨1, 2⟩⟩, ⟨.semi, ⟨2, 3⟩⟩]

/-- The `;` stacks on the separator that the newline has become. -/
theorem semi_stacks_on_inserted :
    ¬∃ pieces, applyAsi splitLine = pieces.flatten ∧ Terminates splitLine pieces ∧
      Coalesced splitLine pieces := by
  rintro ⟨pieces, -, hterm, hcoal⟩
  rw [hterm.unique, coalesced_iff] at hcoal
  exact hcoal ⟨[], [], [], _, _, _, rfl, Or.inl rfl, by simp, rfl⟩

end BetLang.Lexer
