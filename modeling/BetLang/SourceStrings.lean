import BetLang.BlockComments

/-! String literals of source text: what the formatter writes for a string, and how the lexer reads
it. -/

namespace BetLang.Lexer

open Pattern (Pat Rule best)

section Escaping

/-- `{:02x}` of a number of two digits. -/
def hex2 (n : Nat) : List Char := [Nat.digitChar (n / 16), Nat.digitChar (n % 16)]

def escapeChar : Char → List Char
  | '\\' => ['\\', '\\']
  | '"' => ['\\', '"']
  | '\n' => ['\\', 'n']
  | '\t' => ['\\', 't']
  | '\r' => ['\\', 'r']
  | '\x00' => ['\\', '0']
  | c => if c.toNat < 0x20 ∨ c.toNat = 0x7f then '\\' :: 'x' :: hex2 c.toNat else [c]

/-- What stands between the quotes. -/
def escapeBody (s : List Char) : List Char := s.flatMap escapeChar

def escapeStr (s : String) : List Char := '"' :: (escapeBody s.toList ++ ['"'])

/-- A text that closes no string and breaks off none: each quote is behind a backslash, there is no
newline, and the last backslash has something behind it; `escaped` says whether the text follows a
backslash. -/
def Unbroken (escaped : Bool) : List Char → Prop
  | [] => escaped = false
  | c :: t => c ≠ '\n' ∧ (escaped = false → c ≠ '"') ∧ Unbroken (!escaped && c = '\\') t

theorem toDigit16_digitChar {d : Nat} (h : d < 16) : toDigit16 (Nat.digitChar d) = some d := by
  have hall : ∀ d < 16, toDigit16 (Nat.digitChar d) = some d := by decide
  exact hall d h

theorem digitChar_ne {d : Nat} (h : d < 16) :
    Nat.digitChar d ≠ '\n' ∧ Nat.digitChar d ≠ '"' ∧ Nat.digitChar d ≠ '\\' := by
  have hall : ∀ d < 16,
      Nat.digitChar d ≠ '\n' ∧ Nat.digitChar d ≠ '"' ∧ Nat.digitChar d ≠ '\\' := by decide
  exact hall d h

theorem decodeEscape_hex2 {c : Char} (h : c.toNat < 256) (chars : List Char) :
    decodeEscape ('x' :: (hex2 c.toNat ++ chars)) = some (c, chars) := by
  have hhi := toDigit16_digitChar (d := c.toNat / 16) (by omega)
  have hlo := toDigit16_digitChar (d := c.toNat % 16) (by omega)
  have hsum : c.toNat / 16 * 16 + c.toNat % 16 = c.toNat := by omega
  simp [hex2, decodeEscape, hhi, hlo, hsum, Char.ofNat_toNat]

/-- A character is written as it is, or as a code behind a backslash that is read back. -/
theorem escapeChar_cases (c : Char) :
    (escapeChar c = [c] ∧ c ≠ '\\' ∧ c ≠ '"' ∧ c ≠ '\n') ∨
      ∃ code, escapeChar c = '\\' :: code ∧ Unbroken true code ∧
        ∀ chars, decodeEscape (code ++ chars) = some (c, chars) := by
  by_cases hslash : c = '\\'
  · exact .inr ⟨['\\'], by simp [hslash, escapeChar], by simp [Unbroken],
      by simp [hslash, decodeEscape]⟩
  by_cases hquote : c = '"'
  · exact .inr ⟨['"'], by simp [hquote, escapeChar], by simp [Unbroken],
      by simp [hquote, decodeEscape]⟩
  by_cases hnewline : c = '\n'
  · exact .inr ⟨['n'], by simp [hnewline, escapeChar], by simp [Unbroken],
      by simp [hnewline, decodeEscape]⟩
  by_cases htab : c = '\t'
  · exact .inr ⟨['t'], by simp [htab, escapeChar], by simp [Unbroken],
      by simp [htab, decodeEscape]⟩
  by_cases hreturn : c = '\r'
  · exact .inr ⟨['r'], by simp [hreturn, escapeChar], by simp [Unbroken],
      by simp [hreturn, decodeEscape]⟩
  by_cases hzero : c = '\x00'
  · exact .inr ⟨['0'], by simp [hzero, escapeChar], by simp [Unbroken],
      by simp [hzero, decodeEscape]⟩
  by_cases hcontrol : c.toNat < 0x20 ∨ c.toNat = 0x7f
  · have hhi := digitChar_ne (d := c.toNat / 16) (by omega)
    have hlo := digitChar_ne (d := c.toNat % 16) (by omega)
    refine .inr ⟨'x' :: hex2 c.toNat, by simp [escapeChar, hcontrol], ?_, ?_⟩
    · simp [Unbroken, hex2, hhi, hlo]
    · exact fun chars => decodeEscape_hex2 (by omega) chars
  · exact .inl ⟨by simp [escapeChar, hcontrol], hslash, hquote, hnewline⟩

theorem unescapeLoop_escapeBody {s : List Char} {fuel : Nat}
    (hfuel : (escapeBody s).length ≤ fuel) : unescapeLoop fuel (escapeBody s) = some s := by
  induction s generalizing fuel with
  | nil =>
    cases fuel with
    | zero => rfl
    | succ fuel => rfl
  | cons c s ih =>
    have hcons : escapeBody (c :: s) = escapeChar c ++ escapeBody s := List.flatMap_cons
    rw [hcons, List.length_append] at hfuel
    rcases escapeChar_cases c with ⟨hc, hslash, -, -⟩ | ⟨code, hc, -, hdecode⟩
    · rw [hc, List.length_singleton] at hfuel
      obtain ⟨fuel, rfl⟩ : ∃ k, fuel = k + 1 := ⟨fuel - 1, by omega⟩
      simp [hcons, hc, unescapeLoop, hslash, ih (by omega : _ ≤ fuel)]
    · rw [hc, List.length_cons] at hfuel
      obtain ⟨fuel, rfl⟩ : ∃ k, fuel = k + 1 := ⟨fuel - 1, by omega⟩
      simp [hcons, hc, unescapeLoop, hdecode, ih (by omega : _ ≤ fuel)]

theorem unescapeStr_escapeStr (s : String) : unescapeStr (escapeStr s) = some s := by
  have hinner : inner (escapeStr s) = escapeBody s.toList := by simp [inner, escapeStr]
  rw [unescapeStr, hinner, unescapeLoop_escapeBody le_rfl]
  simp

theorem Unbroken.append {escaped : Bool} {s t : List Char} (hs : Unbroken escaped s)
    (ht : Unbroken false t) : Unbroken escaped (s ++ t) := by
  induction s generalizing escaped with
  | nil =>
    have hescaped : escaped = false := hs
    rw [hescaped]
    exact ht
  | cons c s ih => exact ⟨hs.1, hs.2.1, ih hs.2.2⟩

theorem unbroken_escapeBody (s : List Char) : Unbroken false (escapeBody s) := by
  induction s with
  | nil => rfl
  | cons c s ih =>
    have hcons : escapeBody (c :: s) = escapeChar c ++ escapeBody s := List.flatMap_cons
    rw [hcons]
    refine Unbroken.append ?_ ih
    rcases escapeChar_cases c with ⟨hc, hslash, hquote, hnewline⟩ | ⟨code, hc, hcode, -⟩
    · simp [hc, Unbroken, hslash, hquote, hnewline]
    · simp [hc, Unbroken, hcode]

end Escaping

section Reading

/-- `"([^"\\\n]|\\.)*"` -/
def strPat : Pat Char :=
  .seq (.sat (· == '"')) (.seq (.star (quotedPat '"')) (.sat (· == '"')))

def strRule : Rule Char Act := ⟨strPat, .token fun s => (unescapeStr s).map .str⟩

theorem mem_quoted {s : List Char} : s ∈ (quotedPat '"').lang ↔
    (∃ c, c ≠ '"' ∧ c ≠ '\\' ∧ c ≠ '\n' ∧ s = [c]) ∨ ∃ d, d ≠ '\n' ∧ s = ['\\', d] := by
  simp only [quotedPat, Pattern.mem_alt, Pattern.mem_seq, Pattern.mem_sat]
  constructor
  · intro h
    rcases h with ⟨c, hc, rfl⟩ | ⟨t, ⟨b, hb, rfl⟩, u, ⟨d, hd, rfl⟩, rfl⟩
    · exact .inl ⟨c, by simpa [and_assoc] using hc⟩
    · exact .inr ⟨d, by simpa using hd, by simpa using hb⟩
  · intro h
    rcases h with ⟨c, hquote, hslash, hnewline, rfl⟩ | ⟨d, hd, rfl⟩
    · exact .inl ⟨c, by simp [hquote, hslash, hnewline], rfl⟩
    · exact .inr ⟨['\\'], ⟨'\\', by simp, rfl⟩, [d], ⟨d, by simpa using hd, rfl⟩, rfl⟩

theorem unbroken_of_quoted {s : List Char} (h : s ∈ (Pat.star (quotedPat '"')).lang) :
    Unbroken false s := by
  induction hlen : s.length using Nat.strong_induction_on generalizing s with
  | _ len ih =>
    subst hlen
    rcases Pattern.mem_star.mp h with rfl | ⟨piece, hpiece, hne, u, hu, rfl⟩
    · rfl
    · have hpos : 0 < piece.length := List.length_pos_iff.mpr hne
      refine Unbroken.append ?_ (ih u.length (by simp [hpos]) hu rfl)
      rcases mem_quoted.mp hpiece with ⟨c, hquote, hslash, hnewline, rfl⟩ | ⟨d, hd, rfl⟩
      · simp [Unbroken, hquote, hslash, hnewline]
      · simp [Unbroken, hd]

theorem quoted_of_unbroken {escaped : Bool} {s : List Char} (h : Unbroken escaped s) :
    (if escaped then '\\' :: s else s) ∈ (Pat.star (quotedPat '"')).lang := by
  induction s generalizing escaped with
  | nil =>
    have hescaped : escaped = false := h
    simp [hescaped, Pattern.nil_mem_star]
  | cons c s ih =>
    obtain ⟨hnewline, hquote, hs⟩ := h
    have hrest := ih hs
    cases escaped with
    | true =>
      have hpiece : ['\\', c] ∈ (quotedPat '"').lang := mem_quoted.mpr (.inr ⟨c, hnewline, rfl⟩)
      exact Pattern.mem_star.mpr (.inr ⟨['\\', c], hpiece, by simp, s, by simpa using hrest, rfl⟩)
    | false =>
      by_cases hslash : c = '\\'
      · simpa [hslash] using hrest
      · have hpiece : [c] ∈ (quotedPat '"').lang :=
          mem_quoted.mpr (.inl ⟨c, hquote rfl, hslash, hnewline, rfl⟩)
        refine Pattern.mem_star.mpr (.inr ⟨[c], hpiece, by simp, s, ?_, rfl⟩)
        simpa [hslash] using hrest

/-- The first quote behind an unbroken text closes it. -/
theorem unbroken_inj {escaped : Bool} {s t x y : List Char} (hs : Unbroken escaped s)
    (ht : Unbroken escaped t) (h : s ++ '"' :: x = t ++ '"' :: y) : s = t := by
  induction s generalizing escaped t with
  | nil =>
    cases t with
    | nil => rfl
    | cons d t =>
      simp only [List.nil_append, List.cons_append, List.cons.injEq] at h
      exact absurd h.1.symm (ht.2.1 hs)
  | cons c s ih =>
    cases t with
    | nil =>
      simp only [List.nil_append, List.cons_append, List.cons.injEq] at h
      exact absurd h.1 (hs.2.1 ht)
    | cons d t =>
      simp only [List.cons_append, List.cons.injEq] at h
      obtain ⟨rfl, h⟩ := h
      rw [ih hs.2.2 ht.2.2 h]

theorem mem_str {s : List Char} : s ∈ strPat.lang ↔
    ∃ u, Unbroken false u ∧ s = '"' :: (u ++ ['"']) := by
  simp only [strPat, Pattern.mem_seq, Pattern.mem_sat]
  constructor
  · intro h
    obtain ⟨t, ⟨a, ha, rfl⟩, v, ⟨u, hu, w, ⟨b, hb, rfl⟩, rfl⟩, rfl⟩ := h
    exact ⟨u, unbroken_of_quoted hu, by simp [eq_of_beq ha, eq_of_beq hb]⟩
  · intro h
    obtain ⟨u, hu, rfl⟩ := h
    exact ⟨['"'], ⟨'"', by simp, rfl⟩, _, ⟨u, by simpa using quoted_of_unbroken hu, ['"'],
      ⟨'"', by simp, rfl⟩, rfl⟩, rfl⟩

theorem longest_str {u : List Char} (hu : Unbroken false u) (rest : List Char) :
    strPat.longest ('"' :: (u ++ ['"']) ++ rest) = some (u.length + 2) := by
  have htake : ('"' :: (u ++ ['"']) ++ rest).take (u.length + 2) = '"' :: (u ++ ['"']) := by
    simp [List.take_append]
  have hmem := mem_str.mpr ⟨u, hu, rfl⟩
  rw [← htake] at hmem
  refine Pattern.longest_eq_some (by simp) hmem ?_
  intro m hm hmem
  obtain ⟨v, hv, hv'⟩ := mem_str.mp hmem
  have hsplit : u ++ '"' :: rest = v ++ '"' :: ('"' :: (u ++ ['"']) ++ rest).drop m := by
    have := List.take_append_drop m ('"' :: (u ++ ['"']) ++ rest)
    rw [hv'] at this
    simpa using this.symm
  have hsame := unbroken_inj hu hv hsplit
  have hlen := congrArg List.length hv'
  rw [List.length_take, Nat.min_eq_left hm, ← hsame] at hlen
  simp at hlen
  omega

theorem rules_str : ∃ before after, rules = before ++ strRule :: after ∧
    (before ++ after).all (fun rule => (rule.pat.deriv '"').dead) = true :=
  ⟨rules.take 44, rules.drop 45, rfl, by decide⟩

theorem best_str {u : List Char} (hu : Unbroken false u) (rest : List Char) :
    best rules ('"' :: (u ++ ['"']) ++ rest) = some (u.length + 2, strRule.act) := by
  obtain ⟨before, after, hrules, hdead⟩ := rules_str
  rw [hrules]
  refine Pattern.best_eq (by simp) (longest_str hu rest) ?_
  intro other hother
  by_cases hstr : other = strRule
  · exact .inl hstr
  · have hmem : other ∈ before ++ after := by
      simpa [hstr] using hother
    have hshort := List.all_eq_true.mp hdead other hmem
    refine .inr fun m hm => ?_
    have := Pattern.longest_lt_of_dead (w := ['"']) hshort hm
    simp at this
    omega

end Reading

/-- A string is read back from its literal; nothing in the literal closes it or breaks it off, so
that the lexer takes the whole of it for one token, whatever stands behind it. -/
theorem source_literal_exact (s : String) (rest : List Char) :
    unescapeStr (escapeStr s) = some s ∧
      (∃ body, escapeStr s = '"' :: (body ++ ['"']) ∧ Unbroken false body) ∧
      nextPiece (escapeStr s ++ rest) = some ((escapeStr s).length, .token (.str s)) := by
  have hbody := unbroken_escapeBody s.toList
  have hread := unescapeStr_escapeStr s
  refine ⟨hread, ⟨_, rfl, hbody⟩, ?_⟩
  have hlen : (escapeStr s).length = (escapeBody s.toList).length + 2 := by simp [escapeStr]
  have hbest : best rules (escapeStr s ++ rest) = some ((escapeStr s).length, strRule.act) := by
    rw [hlen]
    exact best_str hbody rest
  simp [nextPiece, pieceOf, hbest, strRule, hread]

example : escapeStr "a\"\x1b" = "\"a\\\"\\x1b\"".toList := by decide

end BetLang.Lexer
