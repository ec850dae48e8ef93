import BetLang.MidirLexer

/-! String literals of the IR's text form, from the printer back through the lexer. -/

namespace BetLang.Midir

/-- The text of one character inside a literal. -/
def escapeChar : Char → List Char
  | '"' => ['\\', '"']
  | '\\' => ['\\', '\\']
  | '\n' => ['\\', 'n']
  | '\t' => ['\\', 't']
  | '\r' => ['\\', 'r']
  | c => [c]

def escape (s : List Char) : List Char := s.flatMap escapeChar

/-- A character that is written behind a backslash is read back, and any other one stands for itself. -/
theorem escapeChar_cases (c : Char) :
    (∃ e, escapeChar c = ['\\', e] ∧ unescape e = some c) ∨
      (escapeChar c = [c] ∧ c ≠ '"' ∧ c ≠ '\\') := by
  by_cases hquote : c = '"'
  · exact .inl ⟨'"', by simp [hquote, escapeChar], by simp [hquote, unescape]⟩
  · by_cases hslash : c = '\\'
    · exact .inl ⟨'\\', by simp [hslash, escapeChar], by simp [hslash, unescape]⟩
    · by_cases hnewline : c = '\n'
      · exact .inl ⟨'n', by simp [hnewline, escapeChar], by simp [hnewline, unescape]⟩
      · by_cases htab : c = '\t'
        · exact .inl ⟨'t', by simp [htab, escapeChar], by simp [htab, unescape]⟩
        · by_cases hreturn : c = '\r'
          · exact .inl ⟨'r', by simp [hreturn, escapeChar], by simp [hreturn, unescape]⟩
          · exact .inr ⟨by simp [escapeChar], hquote, hslash⟩

theorem lexStr_escaped {e c : Char} (h : unescape e = some c) (cs : List Char) :
    lexStr ('\\' :: e :: cs) = (lexStr cs).map fun found => (c :: found.1, found.2 + 2) := by
  simp [lexStr, h]

theorem lexStr_plain {c : Char} (hquote : c ≠ '"') (hslash : c ≠ '\\') (cs : List Char) :
    lexStr (c :: cs) = (lexStr cs).map fun found => (c :: found.1, found.2 + 1) := by
  rw [lexStr]
  · exact fun h => hquote h
  · exact fun h _ => hslash h
  · exact fun e cs h _ => hslash h

theorem lexStr_escape (s rest : List Char) :
    lexStr (escape s ++ '"' :: rest) = .ok (s, (escape s).length + 1) := by
  induction s with
  | nil => simp [escape, lexStr]
  | cons c s ih =>
    have hcons : escape (c :: s) = escapeChar c ++ escape s := List.flatMap_cons
    rcases escapeChar_cases c with ⟨e, hc, he⟩ | ⟨hc, hquote, hslash⟩
    · simp only [hcons, hc, List.cons_append, List.nil_append]
      rw [lexStr_escaped he, ih]
      rfl
    · simp only [hcons, hc, List.cons_append, List.nil_append]
      rw [lexStr_plain hquote hslash, ih]
      rfl

theorem lexOne_quote (u : Unicode) (i : Nat) (cs : List Char) :
    lexOne u i '"' cs = (lexStr cs).map fun found => (some (.str found.1), found.2 + 1) := by
  have hspace : u.isWhitespace '"' = false := u.whitespace_ascii '"' (by decide)
  simp [lexOne, hspace, punct]

/-- A string comes back from its literal, and just the literal is read, whatever stands behind it. -/
theorem string_literal_exact (u : Unicode) (i : Nat) (s rest : List Char) :
    lexStr (escape s ++ '"' :: rest) = .ok (s, (escape s ++ ['"']).length) ∧
      lexOne u i '"' (escape s ++ '"' :: rest) =
        .ok (some (.str s), ('"' :: escape s ++ ['"']).length) := by
  rw [lexOne_quote, lexStr_escape]
  constructor
  · simp
  · simp [Except.map]

example : escape ['a', '"', '\n', '\\'] = ['a', '\\', '"', '\\', 'n', '\\', '\\'] := rfl

end BetLang.Midir
