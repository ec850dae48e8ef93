import Mathlib.Data.List.TakeWhile
import BetLang.Sequencing

/-! The tokens of the IR's text form. -/

namespace BetLang.Midir

/-- What `char` says of letters, numbers and white space; on ASCII it is what C says. -/
structure Unicode where
  isAlphabetic : Char → Bool
  isNumeric : Char → Bool
  isWhitespace : Char → Bool
  alphabetic_ascii : ∀ c : Char, c.toNat < 128 → isAlphabetic c = c.isAlpha
  numeric_ascii : ∀ c : Char, c.toNat < 128 → isNumeric c = c.isDigit
  whitespace_ascii : ∀ c : Char, c.toNat < 128 →
    isWhitespace c = (c.toNat == 32 || (9 ≤ c.toNat && c.toNat ≤ 13))
  alphabetic_not_whitespace : ∀ c : Char, isAlphabetic c = true → isWhitespace c = false

theorem isAlpha_iff {c : Char} : c.isAlpha = true ↔
    (65 ≤ c.toNat ∧ c.toNat ≤ 90) ∨ (97 ≤ c.toNat ∧ c.toNat ≤ 122) := by
  have hiff : c.isAlpha = true ↔ ('A' ≤ c ∧ c ≤ 'Z') ∨ ('a' ≤ c ∧ c ≤ 'z') := by
    change (decide ('A' ≤ c ∧ c ≤ 'Z') || (decide ('a' ≤ c) && decide (c ≤ 'z'))) = true ↔ _
    simp only [Bool.or_eq_true, Bool.and_eq_true, decide_eq_true_eq]
  have hle (a b : Char) : a ≤ b ↔ a.toNat ≤ b.toNat := UInt32.le_iff_toNat_le
  rw [hiff, hle, hle, hle, hle]
  exact Iff.rfl

theorem isAlpha_not_blank (c : Char) (h : c.isAlpha = true) :
    (c.toNat == 32 || (9 ≤ c.toNat && c.toNat ≤ 13)) = false := by
  have hbig : 65 ≤ c.toNat := by
    have := isAlpha_iff.mp h
    omega
  have h32 : ¬ c.toNat = 32 := by omega
  have h13 : ¬ c.toNat ≤ 13 := by omega
  simp [h32, h13]

/-- The table that knows no character beyond those of ASCII. -/
def Unicode.ascii : Unicode where
  isAlphabetic := Char.isAlpha
  isNumeric := Char.isDigit
  isWhitespace c := c.toNat == 32 || (9 ≤ c.toNat && c.toNat ≤ 13)
  alphabetic_ascii _ _ := rfl
  numeric_ascii _ _ := rfl
  whitespace_ascii _ _ := rfl
  alphabetic_not_whitespace := isAlpha_not_blank

inductive Tok where
  | ident (s : List Char)
  | num (s : List Char)
  | str (s : List Char)
  | lParen
  | rParen
  | lBrace
  | rBrace
  | lBracket
  | rBracket
  | comma
  | colon
  | colonColon
  | semi
  | percent
  | at
  | arrow
  | eq
  | dot
  deriving DecidableEq

/-- What the lexer cannot read, and where. -/
inductive LexError where
  | stray (i : Nat)
  | unterminatedEscape
  | badEscape (c : Char)
  | unterminatedString
  | unexpected (c : Char) (i : Nat)
  deriving DecidableEq

section Lex

variable (u : Unicode)

def Unicode.isAlphanumeric (c : Char) : Bool := u.isAlphabetic c || u.isNumeric c

/-- A character that goes on an identifier. -/
def Unicode.isWord (c : Char) : Bool := u.isAlphanumeric c || c == '_' || c == '$'

/-- The digits of a fraction, with its dot. -/
def fraction : List Char → List Char
  | c :: d :: cs => if c = '.' ∧ d.isDigit then c :: (d :: cs).takeWhile Char.isDigit else []
  | _ => []

def lexNum (rest : List Char) : List Char :=
  let sign := if rest.head? = some '-' then ['-'] else []
  let whole := (rest.drop sign.length).takeWhile Char.isDigit
  let front := sign ++ whole
  let frac := fraction (rest.drop front.length)
  let front := front ++ frac
  front ++ (rest.drop front.length).takeWhile fun c => u.isAlphanumeric c || c == '_'

def unescape : Char → Option Char
  | 'n' => some '\n'
  | 't' => some '\t'
  | 'r' => some '\r'
  | '\\' => some '\\'
  | '"' => some '"'
  | _ => none

/-- The string behind an opening quote, and the length of its text with the closing one. -/
def lexStr : List Char → Except LexError (List Char × Nat)
  | [] => .error .unterminatedString
  | '"' :: _ => .ok ([], 1)
  | '\\' :: [] => .error .unterminatedEscape
  | '\\' :: e :: cs =>
    match unescape e with
    | some c => (lexStr cs).map fun found => (c :: found.1, found.2 + 2)
    | none => .error (.badEscape e)
  | c :: cs => (lexStr cs).map fun found => (c :: found.1, found.2 + 1)

/-- A token that is one character. -/
def punct : Char → Option Tok
  | '(' => some .lParen
  | ')' => some .rParen
  | '{' => some .lBrace
  | '}' => some .rBrace
  | '[' => some .lBracket
  | ']' => some .rBracket
  | ',' => some .comma
  | ';' => some .semi
  | '%' => some .percent
  | '@' => some .at
  | '=' => some .eq
  | '.' => some .dot
  | _ => none

/-- One round of the loop, at the character `i`: a token or none, and how far the text is read. -/
def lexOne (i : Nat) (c : Char) (cs : List Char) : Except LexError (Option Tok × Nat) :=
  if u.isWhitespace c then .ok (none, 1)
  else if c = '/' ∧ cs.head? = some '/' then
    .ok (none, ((c :: cs).takeWhile (· != '\n')).length)
  else if let some tok := punct c then .ok (some tok, 1)
  else if c = ':' then
    if cs.head? = some ':' then .ok (some .colonColon, 2) else .ok (some .colon, 1)
  else if c = '-' ∧ cs.head? = some '>' then .ok (some .arrow, 2)
  else if c = '-' ∧ ¬ cs.head?.any Char.isDigit then .error (.stray i)
  else if c = '"' then (lexStr cs).map fun found => (some (.str found.1), found.2 + 1)
  else if c = '-' ∨ c.isDigit then
    .ok (some (.num (lexNum u (c :: cs))), (lexNum u (c :: cs)).length)
  else if u.isAlphabetic c ∨ c = '_' then
    .ok (some (.ident ((c :: cs).takeWhile u.isWord)), ((c :: cs).takeWhile u.isWord).length)
  else .error (.unexpected c i)

def lexFrom : Nat → Nat → List Char → Except LexError (List Tok)
  | _, _, [] => .ok []
  | 0, i, c :: _ => .error (.unexpected c i)
  | fuel + 1, i, c :: cs => do
    let (tok, n) ← lexOne u i c cs
    let toks ← lexFrom fuel (i + n) ((c :: cs).drop n)
    return tok.toList ++ toks

def lex (src : List Char) : Except LexError (List Tok) := lexFrom u src.length 0 src

end Lex

section Identifiers

variable {u : Unicode}

/-- One identifier of the text form. -/
def Unicode.IsIdent (u : Unicode) (s : List Char) : Prop :=
  (∃ c, s.head? = some c ∧ (u.isAlphabetic c = true ∨ c = '_')) ∧ ∀ c ∈ s, u.isWord c = true

theorem alphabetic_not_ascii {c d : Char} (hd : d.toNat < 128) (hd' : d.isAlpha = false)
    (hc : u.isAlphabetic c = true) : c ≠ d := by
  rintro rfl
  rw [u.alphabetic_ascii c hd, hd'] at hc
  cases hc

theorem punct_ascii {c : Char} {tok : Tok} (h : punct c = some tok) :
    c.toNat < 128 ∧ c.isAlpha = false ∧ c ≠ '_' ∧ ∀ s, tok ≠ .ident s := by
  unfold punct at h
  split at h <;> cases h <;> exact ⟨by decide, by decide, by decide, by simp⟩

theorem isDigit_ascii {c : Char} (h : c.isDigit = true) : c.toNat < 128 ∧ c.isAlpha = false := by
  simp only [Char.isDigit, Bool.and_eq_true, decide_eq_true_eq] at h
  have hge : 48 ≤ c.toNat := UInt32.le_iff_toNat_le.mp h.1
  have hle : c.toNat ≤ 57 := UInt32.le_iff_toNat_le.mp h.2
  refine ⟨by omega, ?_⟩
  by_contra hc
  have := isAlpha_iff.mp (by simpa using hc)
  omega

theorem lexOne_ident {i : Nat} {c : Char} {cs : List Char}
    (hc : u.isAlphabetic c = true ∨ c = '_') : lexOne u i c cs =
      .ok (some (.ident ((c :: cs).takeWhile u.isWord)), ((c :: cs).takeWhile u.isWord).length) := by
  have hspace : u.isWhitespace c = false := by
    rcases hc with hc | rfl
    · exact u.alphabetic_not_whitespace c hc
    · exact u.whitespace_ascii '_' (by decide)
  have hne (d : Char) (hd : d.toNat < 128) (hd' : d.isAlpha = false) (hbar : d ≠ '_') : c ≠ d := by
    rcases hc with hc | rfl
    · exact alphabetic_not_ascii hd hd' hc
    · exact hbar.symm
  have hpunct : punct c = none := by
    cases hp : punct c with
    | none => rfl
    | some tok =>
      obtain ⟨hd, hd', hbar, -⟩ := punct_ascii hp
      exact absurd rfl (hne c hd hd' hbar)
  have hdigit : c.isDigit = false := by
    by_contra hd
    have hd : c.isDigit = true := by simpa using hd
    refine absurd rfl (hne c (isDigit_ascii hd).1 (isDigit_ascii hd).2 ?_)
    rintro rfl
    exact absurd hd (by decide)
  have hslash := hne '/' (by decide) (by decide) (by decide)
  have hcolon := hne ':' (by decide) (by decide) (by decide)
  have hminus := hne '-' (by decide) (by decide) (by decide)
  have hquote := hne '"' (by decide) (by decide) (by decide)
  simp [lexOne, hspace, hpunct, hdigit, hslash, hcolon, hminus, hquote, hc]

theorem lexNum_pos {c : Char} {cs : List Char} (h : c = '-' ∨ c.isDigit = true) :
    0 < (lexNum u (c :: cs)).length := by
  rcases h with rfl | h
  · simp [lexNum]
  · by_cases hc : c = '-'
    · simp [lexNum, hc]
    · simp [lexNum, hc, h]

/-- What a round reads is not nothing, and an identifier is the word characters that stand there. -/
theorem lexOne_ok {i n : Nat} {c : Char} {cs : List Char} {tok : Option Tok}
    (h : lexOne u i c cs = .ok (tok, n)) : 0 < n ∧ ∀ s, tok = some (.ident s) →
      (u.isAlphabetic c = true ∨ c = '_') ∧ s = (c :: cs).takeWhile u.isWord := by
  by_cases hstart : u.isAlphabetic c = true ∨ c = '_'
  · rw [lexOne_ident hstart] at h
    cases h
    have hword : u.isWord c = true := by
      rcases hstart with hc | hc <;> simp [Unicode.isWord, Unicode.isAlphanumeric, hc]
    refine ⟨by simp [hword], ?_⟩
    intro s hs
    cases hs
    exact ⟨hstart, rfl⟩
  · suffices hpos : 0 < n ∧ ∀ s, tok ≠ some (.ident s) from
      ⟨hpos.1, fun s hs => absurd hs (hpos.2 s)⟩
    simp only [lexOne, hstart, if_false] at h
    split at h
    · cases h
      exact ⟨by omega, by simp⟩
    · split at h
      · rename_i hslash
        cases h
        simp [hslash.1]
      · cases hp : punct c with
        | some tok =>
          simp only [hp] at h
          cases h
          exact ⟨by omega, fun s hs => (punct_ascii hp).2.2.2 s (Option.some.inj hs)⟩
        | none =>
          simp only [hp] at h
          split at h
          · split at h <;> cases h <;> simp
          · split at h
            · cases h
              simp
            · split at h
              · cases h
              · split at h
                · cases hs : lexStr cs with
                  | error e => simp [hs, Except.map] at h
                  | ok found =>
                    simp only [hs, Except.map, Except.ok.injEq, Prod.mk.injEq] at h
                    simp [← h.1, ← h.2]
                · split at h
                  · rename_i hnum
                    cases h
                    exact ⟨lexNum_pos hnum, by simp⟩
                  · cases h

/-- An identifier is not longer than the text it is read from. -/
theorem ident_length {fuel i : Nat} {rest : List Char} {toks : List Tok}
    (h : lexFrom u fuel i rest = .ok toks) {s : List Char} (hs : .ident s ∈ toks) :
    s.length ≤ rest.length := by
  induction fuel generalizing i rest toks with
  | zero =>
    cases rest with
    | nil =>
      cases h
      simp at hs
    | cons c cs => cases h
  | succ fuel ih =>
    cases rest with
    | nil =>
      cases h
      simp at hs
    | cons c cs =>
      obtain ⟨⟨tok, n⟩, hone, h⟩ := except_bind_ok h
      obtain ⟨later, hlater, h⟩ := except_bind_ok h
      cases h
      rcases List.mem_append.mp hs with hs | hs
      · cases tok with
        | none => simp at hs
        | some tok =>
          have htok : tok = .ident s := by simpa [eq_comm] using hs
          rw [htok] at hone
          rw [((lexOne_ok hone).2 s rfl).2]
          exact (List.takeWhile_sublist _).length_le
      · have := ih hlater hs
        rw [List.length_drop] at this
        omega

/-- The text of one identifier token is just a word that starts like a word. -/
theorem lex_ident_iff (s : List Char) : lex u s = .ok [.ident s] ↔ u.IsIdent s := by
  cases s with
  | nil => simp [lex, lexFrom, Unicode.IsIdent]
  | cons c cs =>
    constructor
    · intro h
      obtain ⟨⟨tok, n⟩, hone, h⟩ := except_bind_ok h
      obtain ⟨later, hlater, h⟩ := except_bind_ok h
      have hpos := (lexOne_ok hone).1
      cases tok with
      | none =>
        -- the identifier would be read from a shorter text
        cases h
        have := ident_length hlater (s := c :: cs) (by simp)
        simp only [List.length_drop, List.length_cons] at this
        omega
      | some tok =>
        cases h
        obtain ⟨hstart, hall⟩ := (lexOne_ok hone).2 _ rfl
        refine ⟨⟨c, rfl, hstart⟩, ?_⟩
        intro d hd
        rw [hall] at hd
        exact List.mem_takeWhile_imp hd
    · intro h
      obtain ⟨⟨d, hd, hstart⟩, hall⟩ := h
      cases hd
      have htake : (c :: cs).takeWhile u.isWord = c :: cs := List.takeWhile_eq_self_iff.mpr hall
      simp only [lex, List.length_cons, lexFrom, lexOne_ident hstart, htake]
      simp [bind, Except.bind, pure, Except.pure, lexFrom]

end Identifiers

end BetLang.Midir
