import BetLang.CommentSpans
import BetLang.MangledNames
import BetLang.SourceStrings

/-! What the scan makes of a text that a printer has put together: rules for the pieces of a text
and for what may stand behind them. -/

namespace BetLang.Lexer

open Mangling (decimal decimal_digits value_decimal)
open Pattern (Pat Rule best)

section Streams

/-- The tokens of a text, piece by piece. -/
inductive Scans : List Char → List Token → Prop where
  | done : Scans [] []
  | gap {w rest : List Char} {toks : List Token} (hw : w ≠ [])
      (hpiece : nextPiece (w ++ rest) = some (w.length, .blank)) (hrest : Scans rest toks) :
      Scans (w ++ rest) toks
  | token {w rest : List Char} {t : Token} {toks : List Token} (hw : w ≠ [])
      (hpiece : nextPiece (w ++ rest) = some (w.length, .token t)) (hrest : Scans rest toks) :
      Scans (w ++ rest) (t :: toks)

theorem scanFrom_append {w rest : List Char} {piece : Piece} {later : List Located} {fuel pos : Nat}
    (hw : w ≠ []) (hpiece : nextPiece (w ++ rest) = some (w.length, piece))
    (hlater : scanFrom fuel (pos + (utf8 w).length) rest = .ok later) :
    scanFrom (fuel + 1) pos (w ++ rest) = .ok (⟨piece, pos, pos + (utf8 w).length⟩ :: later) := by
  obtain ⟨c, w, rfl⟩ := List.exists_cons_of_ne_nil hw
  have htake : ((c :: w) ++ rest).take (c :: w).length = c :: w := List.take_left
  have hdrop : ((c :: w) ++ rest).drop (c :: w).length = rest := List.drop_left
  rw [List.cons_append] at hpiece htake hdrop ⊢
  simp only [scanFrom, hpiece, htake, hdrop, hlater]
  rfl

theorem Scans.scanFrom {s : List Char} {toks : List Token} (h : Scans s toks) :
    ∀ fuel pos, s.length ≤ fuel → ∃ pieces, scanFrom fuel pos s = .ok pieces ∧
      (pieces.filterMap Located.spanned).map (·.tok) = toks := by
  induction h with
  | done => exact fun fuel pos _ => ⟨[], by cases fuel <;> rfl, rfl⟩
  | @gap w rest toks hw hpiece _ ih =>
    intro fuel pos hfuel
    have hpos := List.length_pos_iff.mpr hw
    rw [List.length_append] at hfuel
    obtain ⟨fuel, rfl⟩ := Nat.exists_eq_succ_of_ne_zero (by omega : fuel ≠ 0)
    obtain ⟨later, hlater, htoks⟩ := ih fuel (pos + (utf8 w).length) (by omega)
    exact ⟨_, scanFrom_append hw hpiece hlater, htoks⟩
  | @token w rest t toks hw hpiece _ ih =>
    intro fuel pos hfuel
    have hpos := List.length_pos_iff.mpr hw
    rw [List.length_append] at hfuel
    obtain ⟨fuel, rfl⟩ := Nat.exists_eq_succ_of_ne_zero (by omega : fuel ≠ 0)
    obtain ⟨later, hlater, htoks⟩ := ih fuel (pos + (utf8 w).length) (by omega)
    exact ⟨_, scanFrom_append hw hpiece hlater, congrArg (t :: ·) htoks⟩

/-- What becomes of the tokens where separators are put in. -/
def asiToks (prevEnds : Bool) : List Token → List Token
  | [] => []
  | t :: toks =>
    match t with
    | .newline => if prevEnds then .semi :: asiToks false toks else asiToks prevEnds toks
    | .semi => .semi :: asiToks false toks
    | _ => t :: asiToks t.endsStatement toks

theorem asiLoop_toks (b : Bool) (raw : List Spanned) :
    (asiLoop b raw).map (·.tok) = asiToks b (raw.map (·.tok)) := by
  induction raw generalizing b with
  | nil => rfl
  | cons sp raw ih =>
    obtain ⟨t, span⟩ := sp
    cases t <;> simp only [asiLoop, asiToks, List.map_cons, ih]
    cases b <;> simp [ih]

/-- The tokens that the parser gets of a text, behind a token that ends a statement or not. -/
def Lexes (b : Bool) (s : List Char) (toks : List Token) : Prop :=
  ∃ raw, Scans s raw ∧ asiToks b raw = toks

theorem Lexes.tokenized {s : List Char} {toks : List Token} (h : Lexes false s toks) :
    ∃ spanned, tokenize s = .ok spanned ∧ spanned.map (·.tok) = toks := by
  obtain ⟨raw, hscans, rfl⟩ := h
  obtain ⟨pieces, hscan, hraw⟩ := hscans.scanFrom s.length 0 (Nat.le_refl _)
  have hscan' : scan s = .ok pieces := hscan
  refine ⟨applyAsi (pieces.filterMap Located.spanned), ?_, ?_⟩
  · rw [tokenize, tokenizeWithTrivia, hscan']
    rfl
  · rw [applyAsi, asiLoop_toks, hraw]

/-- The text `w` stands for `toks`, where `F` holds of the text behind; `b` and `b'` tell whether a
newline before and behind it would be a separator. -/
def Prints (w : List Char) (b b' : Bool) (toks : List Token) (F : List Char → Prop) : Prop :=
  ∀ rest us, F rest → Lexes b' rest us → Lexes b (w ++ rest) (toks ++ us)

variable {w w' : List Char} {b b' b'' : Bool} {l l' : List Token} {F G : List Char → Prop}

theorem Prints.nil : Prints [] b b [] F := fun _ _ _ h => h

theorem Prints.mono (h : Prints w b b' l G) (hF : ∀ rest, F rest → G rest) : Prints w b b' l F :=
  fun rest us hrest hlex => h rest us (hF rest hrest) hlex

theorem Prints.append (h : Prints w b b' l G) (h' : Prints w' b' b'' l' F)
    (hG : ∀ rest, F rest → G (w' ++ rest)) : Prints (w ++ w') b b'' (l ++ l') F := by
  intro rest us hrest hlex
  rw [List.append_assoc, List.append_assoc]
  exact h _ _ (hG rest hrest) (h' rest us hrest hlex)

theorem Prints.toks (h : Prints w b b' l F) (hl : l' = l) : Prints w b b' l' F := hl ▸ h

theorem Prints.text (h : Prints w b b' l F) (hw : w' = w) : Prints w' b b' l F := hw ▸ h

theorem Prints.lexes (h : Prints w false b' l F) (hF : F []) : Lexes false w l := by
  have hend : Lexes b' [] [] := ⟨[], .done, rfl⟩
  have hread := h [] [] hF hend
  rwa [List.append_nil, List.append_nil] at hread

theorem prints_token {t : Token} (hw : w ≠ []) (ht : t ≠ .newline)
    (h : ∀ rest, F rest → nextPiece (w ++ rest) = some (w.length, .token t)) :
    Prints w b t.endsStatement [t] F := by
  rintro rest us hrest ⟨raw, hscans, rfl⟩
  refine ⟨t :: raw, .token hw (h rest hrest) hscans, ?_⟩
  cases t <;> first | rfl | exact absurd rfl ht

theorem prints_gap (hw : w ≠ [])
    (h : ∀ rest, F rest → nextPiece (w ++ rest) = some (w.length, .blank)) : Prints w b b [] F := by
  rintro rest us hrest ⟨raw, hscans, rfl⟩
  exact ⟨raw, .gap hw (h rest hrest) hscans, rfl⟩

theorem prints_separator (hw : w ≠ [])
    (h : ∀ rest, F rest → nextPiece (w ++ rest) = some (w.length, .token .newline)) :
    Prints w b false (if b then [.semi] else []) F := by
  rintro rest us hrest ⟨raw, hscans, rfl⟩
  refine ⟨.newline :: raw, .token hw (h rest hrest) hscans, ?_⟩
  cases b <;> rfl

end Streams

section Closed

theorem longest_dead {rule : Rule Char Act} (hrule : rule ∈ rules) {c : Char}
    (h : (rule.pat.deriv c).dead = true) (s : List Char) : rule.pat.longest (c :: s) = none := by
  have hnull : rule.pat.nullable = false := by
    simpa using List.all_eq_true.mp rules_nullable rule hrule
  rw [Pat.longest, Pattern.longest_none fun m _ => Pattern.dead_lang h _, hnull]
  rfl

theorem mem_sides {n m : Nat} {rule : Rule Char Act} (h : rule ∈ rules.take n ++ rules.drop m) :
    rule ∈ rules := by
  rcases List.mem_append.mp h with h | h
  · exact List.mem_of_mem_take h
  · exact List.mem_of_mem_drop h

/-- No rule goes on with `c` behind `w`. -/
def Closed (w : List Char) (c : Char) : Bool :=
  rules.all fun rule => ((w.foldl (fun r a => r.deriv a) rule.pat).deriv c).dead

theorem nextPiece_append {w rest : List Char} (h : best rules (w ++ rest) = best rules w) :
    nextPiece (w ++ rest) = nextPiece w := by
  rw [nextPiece, pieceOf, pieceOf, h]
  cases hb : best rules w with
  | none => rfl
  | some found =>
    obtain ⟨n, act⟩ := found
    cases act with
    | token read => simp only [List.take_append_of_le_length (Pattern.best_le hb)]
    | _ => rfl

theorem nextPiece_closed {w rest : List Char} (h : ∀ c, rest.head? = some c → Closed w c = true) :
    nextPiece (w ++ rest) = nextPiece w := by
  refine nextPiece_append (Pattern.best_congr fun rule hrule => ?_)
  refine Pattern.longest_append_of_dead fun c hc => ?_
  exact List.all_eq_true.mp (h c hc) rule hrule

end Closed

section Tables

def keywords : List (String × Token) :=
  [("finna", .finna), ("bet", .bet), ("lowkey", .lowkey), ("facts", .facts), ("drip", .drip),
    ("moods", .moods), ("pull", .pull), ("extern", .externKw), ("fr", .fr), ("naw", .naw),
    ("vibin", .vibin), ("squad", .squad), ("dip", .dip), ("skip", .skip), ("vibe", .vibe),
    ("slide", .slide), ("yeet", .yeet), ("sheesh", .sheesh), ("bounce", .bounce),
    ("nocap", .nocap), ("cap", .cap), ("ghosted", .ghosted), ("flex", .flex), ("hush", .hush),
    ("crib", .crib), ("soa", .soa), ("cop", .cop), ("evict", .evict), ("tag", .tag),
    ("holla", .holla), ("trust", .trust), ("in", .inKw), ("as", .asKw)]

def identRule : Rule Char Act :=
  ⟨.seq (.sat identStart) (.star (.sat identPart)), .token fun s => some (.ident (String.ofList s))⟩

def wordTok (w : List Char) : Token :=
  match keywords.find? (fun k => k.1.toList == w) with
  | some k => k.2
  | none => .ident (String.ofList w)

/-- The signs that are whole wherever they stand. -/
def singles : List (Char × Token) :=
  [('(', .lParen), (')', .rParen), ('[', .lBracket), (']', .rBracket), ('\x7b', .lBrace),
    ('\x7d', .rBrace), (',', .comma), (':', .colon), ('.', .dot), ('~', .tilde), ('\n', .newline)]

/-- The signs before a blank. -/
def spacedSigns : List (String × Token) :=
  [("->", .arrow), ("==", .eqEq), ("!=", .ne), ("<=", .le), (">=", .ge), ("<<=", .shlEq),
    (">>=", .shrEq), ("<<", .shl), (">>", .shr), ("&&", .andAnd), ("||", .orOr), ("+=", .plusEq),
    ("-=", .minusEq), ("*=", .starEq), ("/=", .slashEq), ("%=", .percentEq), ("&=", .ampEq),
    ("|=", .pipeEq), ("^=", .caretEq), ("<", .lt), (">", .gt), ("=", .eq), ("+", .plus),
    ("-", .minus), ("*", .star), ("/", .slash), ("%", .percent), ("&", .amp), ("|", .pipe),
    ("^", .caret)]

/-- What an expression starts with. -/
def exprStart (c : Char) : Bool :=
  identStart c || digit c || c == '"' || c == '\'' || c == '(' || c == '[' || c == '-' || c == '!' ||
    c == '~'

/-- The signs before an operand. -/
def unarySigns : List (Char × Token) := [('-', .minus), ('!', .bang), ('~', .tilde)]

/-- What the rules come to on the words, signs and first characters of the tables. -/
structure RuleTables : Prop where
  keywords_idents : keywords.all (fun k => Mangling.isIdent k.1.toList) = true
  keywords_toks : keywords.all (fun k => wordTok k.1.toList == k.2) = true
  /-- No other rule starts with a letter. -/
  others_dead : ∀ n < 128, identStart (Char.ofNat n) = true →
    ((rules.take 5 ++ rules.drop 39).all fun rule => (rule.pat.deriv (Char.ofNat n)).dead) = true
  singles_scan : singles.all (fun k => nextPiece [k.1] == some (1, .token k.2)) = true
  spaced_closed : (spacedSigns.all fun k => Closed k.1.toList ' ') = true
  spaced_scan : spacedSigns.all (fun k =>
    nextPiece k.1.toList == some (k.1.toList.length, .token k.2)) = true
  unary_closed : ∀ n < 128, exprStart (Char.ofNat n) = true →
    (unarySigns.all fun k => Closed [k.1] (Char.ofNat n)) = true
  unary_scan : unarySigns.all (fun k => nextPiece [k.1] == some (1, .token k.2)) = true
  blanks_dead : ((rules.drop 1).all fun rule => (rule.pat.deriv ' ').dead) = true
  digits_dead : ∀ n < 128, digit (Char.ofNat n) = true →
    ((rules.take 39 ++ rules.drop 44).all fun rule => (rule.pat.deriv (Char.ofNat n)).dead) = true
  quote_dead : ((rules.take 45 ++ rules.drop 46).all fun rule => (rule.pat.deriv '\'').dead) = true

theorem ruleTables : RuleTables := by constructor <;> decide +kernel

end Tables

section Words

theorem rules_words :
    rules = rules.take 5 ++ (keywords.map (fun k => word k.1 k.2) ++ identRule :: rules.drop 39) := rfl

/-- Nothing that a name or a number would go on with. -/
def WordEnd (rest : List Char) : Prop := ∀ c, rest.head? = some c → identPart c = false

theorem identStart_low {c : Char} (h : identStart c = true) : c.toNat < 128 :=
  (Mangling.identStart_not_digit h).1

theorem identPart_of_start {c : Char} (h : identStart c = true) : identPart c = true := by
  simp [identPart, h]

theorem mem_ident {s : List Char} : s ∈ identRule.pat.lang ↔ Mangling.isIdent s = true := by
  simp only [identRule, Pattern.mem_seq, Pattern.mem_sat, Pattern.mem_star_sat]
  constructor
  · intro h
    obtain ⟨t, ⟨c, hc, rfl⟩, u, hu, rfl⟩ := h
    simpa [Mangling.isIdent, hc] using hu
  · intro h
    cases s with
    | nil => simp [Mangling.isIdent] at h
    | cons c s =>
      simp only [Mangling.isIdent, Bool.and_eq_true, List.all_eq_true] at h
      exact ⟨[c], ⟨c, h.1, rfl⟩, s, h.2, rfl⟩

theorem isIdent_parts {w : List Char} (h : Mangling.isIdent w = true) : ∀ c ∈ w, identPart c = true := by
  cases w with
  | nil => simp
  | cons c w =>
    simp only [Mangling.isIdent, Bool.and_eq_true, List.all_eq_true] at h
    exact List.forall_mem_cons.mpr ⟨identPart_of_start h.1, h.2⟩

theorem other_dead {rule : Rule Char Act} (hrule : rule ∈ rules.take 5 ++ rules.drop 39) {c : Char}
    (hc : identStart c = true) : (rule.pat.deriv c).dead = true := by
  have hdead := ruleTables.others_dead c.toNat (identStart_low hc) (by rwa [Char.ofNat_toNat])
  rw [Char.ofNat_toNat] at hdead
  exact List.all_eq_true.mp hdead rule hrule

/-- A rule of words matches words only. -/
theorem rule_cases {rule : Rule Char Act} (hrule : rule ∈ rules) :
    (∀ s ∈ rule.pat.lang, Mangling.isIdent s = true) ∨ rule ∈ rules.take 5 ++ rules.drop 39 := by
  rw [rules_words] at hrule
  rcases List.mem_append.mp hrule with h | h
  · exact .inr (List.mem_append_left _ h)
  rcases List.mem_append.mp h with h | h
  · obtain ⟨k, hk, rfl⟩ := List.mem_map.mp h
    refine .inl fun s hs => ?_
    rw [word, Pattern.mem_lit] at hs
    rw [hs]
    exact List.all_eq_true.mp ruleTables.keywords_idents k hk
  rcases List.mem_cons.mp h with rfl | h
  · exact .inl fun s hs => mem_ident.mp hs
  · exact .inr (List.mem_append_right _ h)

theorem isIdent_cons {w : List Char} (h : Mangling.isIdent w = true) :
    ∃ c w', w = c :: w' ∧ identStart c = true := by
  cases w with
  | nil => simp [Mangling.isIdent] at h
  | cons c w =>
    simp only [Mangling.isIdent, Bool.and_eq_true] at h
    exact ⟨c, w, rfl, h.1⟩

theorem best_word {w rest : List Char} (hw : Mangling.isIdent w = true) (hrest : WordEnd rest) :
    best rules (w ++ rest) = best rules w := by
  refine Pattern.best_congr fun rule hrule => Pattern.longest_append fun m hm hlen hmem => ?_
  rcases rule_cases hrule with hwords | hother
  · cases rest with
    | nil => simp at hlen; omega
    | cons c rest =>
      obtain ⟨k, hk⟩ : ∃ k, m - w.length = k + 1 := ⟨m - w.length - 1, by omega⟩
      rw [List.take_append, List.take_of_length_le (by omega), hk, List.take_succ_cons] at hmem
      have hpart := isIdent_parts (hwords _ hmem) c (by simp)
      rw [hrest c rfl] at hpart
      cases hpart
  · obtain ⟨c, w, rfl, hc⟩ := isIdent_cons hw
    obtain ⟨k, hk, -⟩ := Pattern.longest_of_mem hlen hmem
    rw [List.cons_append, longest_dead hrule (other_dead hother hc)] at hk
    cases hk

/-- The token of a word. -/
theorem longest_keyword {k : String × Token} {w : List Char} :
    (k.1.toList = w → (word k.1 k.2).pat.longest w = some w.length) ∧
      (k.1.toList ≠ w → ∀ n, (word k.1 k.2).pat.longest w = some n → n < w.length) := by
  constructor
  · rintro rfl
    refine Pattern.longest_eq_some (Nat.le_refl _) ?_ fun m hm _ => hm
    rw [List.take_length, word, Pattern.mem_lit]
  · intro hne n hn
    obtain ⟨hlen, hmem⟩ := Pattern.mem_of_longest hn
    rw [word, Pattern.mem_lit] at hmem
    by_contra hge
    rw [List.take_of_length_le (by omega)] at hmem
    exact hne hmem.symm

theorem longest_ident {w : List Char} (hw : Mangling.isIdent w = true) :
    identRule.pat.longest w = some w.length := by
  refine Pattern.longest_eq_some (Nat.le_refl _) ?_ fun m hm _ => hm
  rw [List.take_length]
  exact mem_ident.mpr hw

/-- Of the rules of words, the keyword comes first. -/
theorem best_keywords {w : List Char} (hw : Mangling.isIdent w = true) (ks : List (String × Token)) :
    ∃ read, best (ks.map (fun k => word k.1 k.2) ++ [identRule]) w = some (w.length, .token read) ∧
      read w = some (match ks.find? (fun k => k.1.toList == w) with
        | some k => k.2
        | none => .ident (String.ofList w)) := by
  induction ks with
  | nil => exact ⟨_, by simp only [List.map_nil, List.nil_append, best, longest_ident hw]; rfl, rfl⟩
  | cons k ks ih =>
    obtain ⟨read, hbest, hread⟩ := ih
    rw [List.map_cons, List.cons_append, best, hbest]
    by_cases hk : k.1.toList = w
    · rw [longest_keyword.1 hk]
      exact ⟨fun _ => some k.2, by simp [word], by simp [hk]⟩
    · have hfind : (k :: ks).find? (fun k => k.1.toList == w) = ks.find? (fun k => k.1.toList == w) :=
        List.find?_cons_of_neg (by simpa using hk)
      rw [hfind]
      refine ⟨read, ?_, hread⟩
      cases hl : (word k.1 k.2).pat.longest w with
      | none => rfl
      | some n => simp [Nat.not_le.mpr (longest_keyword.2 hk n hl)]

theorem nextPiece_word {w rest : List Char} (hw : Mangling.isIdent w = true) (hrest : WordEnd rest) :
    nextPiece (w ++ rest) = some (w.length, .token (wordTok w)) := by
  rw [nextPiece_append (best_word hw hrest)]
  obtain ⟨read, hbest, hread⟩ := best_keywords hw keywords
  have hother : ∀ rule ∈ rules.take 5 ++ rules.drop 39, rule.pat.longest w = none := by
    obtain ⟨c, w, rfl, hc⟩ := isIdent_cons hw
    exact fun rule hrule => longest_dead (mem_sides hrule) (other_dead hrule hc) w
  have hrules : best rules w = some (w.length, .token read) := by
    rw [rules_words, List.append_cons, Pattern.best_between]
    · exact hbest
    · exact fun rule hrule => hother rule (List.mem_append_left _ hrule)
    · exact fun rule hrule => hother rule (List.mem_append_right _ hrule)
  rw [nextPiece, pieceOf, hrules]
  simp only [List.take_length, hread]
  rfl

theorem wordTok_ne (w : List Char) : wordTok w ≠ .newline := by
  rw [wordTok]
  split
  · rename_i k hk
    have hall : keywords.all (fun k => k.2 != .newline) = true := by decide
    simpa using List.all_eq_true.mp hall k (List.mem_of_find?_eq_some hk)
  · simp

theorem prints_word {w : List Char} (hw : Mangling.isIdent w = true) (b : Bool) :
    Prints w b (wordTok w).endsStatement [wordTok w] WordEnd := by
  obtain ⟨c, w', rfl, -⟩ := isIdent_cons hw
  exact prints_token (by simp) (wordTok_ne _) fun rest hrest => nextPiece_word hw hrest

theorem prints_keyword {s : String} {t : Token} (h : (s, t) ∈ keywords) (b : Bool) :
    Prints s.toList b t.endsStatement [t] WordEnd := by
  have hword := prints_word (List.all_eq_true.mp ruleTables.keywords_idents (s, t) h) b
  rwa [eq_of_beq (List.all_eq_true.mp ruleTables.keywords_toks (s, t) h)] at hword

/-- A name that the scan gives back. -/
def IsName (s : String) : Prop :=
  Mangling.isIdent s.toList = true ∧ wordTok s.toList = .ident s

instance (s : String) : Decidable (IsName s) := inferInstanceAs (Decidable (_ ∧ _))

theorem prints_name {s : String} (h : IsName s) (b : Bool) :
    Prints s.toList b true [.ident s] WordEnd := by
  have hword := prints_word h.1 b
  rwa [h.2] at hword

end Words

section Signs

theorem singles_closed (c : Char) : (singles.all fun k => Closed [k.1] c) = true := by rfl

theorem nextPiece_single {c : Char} {t : Token} (h : (c, t) ∈ singles) (rest : List Char) :
    nextPiece ([c] ++ rest) = some (1, .token t) := by
  rw [nextPiece_closed fun c' _ => List.all_eq_true.mp (singles_closed c') (c, t) h]
  exact eq_of_beq (List.all_eq_true.mp ruleTables.singles_scan (c, t) h)

theorem prints_single {c : Char} {t : Token} (h : (c, t) ∈ singles) (ht : t ≠ .newline) (b : Bool) :
    Prints [c] b t.endsStatement [t] (fun _ => True) :=
  prints_token (by simp) ht fun rest _ => nextPiece_single h rest

theorem prints_newline (b : Bool) : Prints ['\n'] b false (if b then [.semi] else []) (fun _ => True) :=
  prints_separator (by simp) fun rest _ => nextPiece_single (by simp [singles]) rest

theorem prints_sign {s : String} {t : Token} (h : (s, t) ∈ spacedSigns) (b : Bool) :
    Prints s.toList b t.endsStatement [t] (fun rest => rest.head? = some ' ') := by
  have hscan := eq_of_beq (List.all_eq_true.mp ruleTables.spaced_scan (s, t) h)
  have hne : spacedSigns.all (fun k => k.1.toList != [] && k.2 != .newline) = true := by decide
  have hk := List.all_eq_true.mp hne (s, t) h
  simp only [Bool.and_eq_true, bne_iff_ne] at hk
  refine prints_token hk.1 hk.2 fun rest hrest => ?_
  rw [nextPiece_closed fun c hc => ?_]
  · exact hscan
  · rw [hrest] at hc
    cases Option.some.inj hc
    exact List.all_eq_true.mp ruleTables.spaced_closed (s, t) h

theorem exprStart_low {c : Char} (h : exprStart c = true) : c.toNat < 128 := by
  simp only [exprStart, Bool.or_eq_true, beq_iff_eq] at h
  rcases h with (((((((h | h) | rfl) | rfl) | rfl) | rfl) | rfl) | rfl) | rfl
  · exact identStart_low h
  · simp only [digit, Bool.and_eq_true, decide_eq_true_eq] at h
    exact lt_of_le_of_lt (UInt32.le_iff_toNat_le.mp h.2) (by decide)
  all_goals decide

theorem prints_unary {c : Char} {t : Token} (h : (c, t) ∈ unarySigns) (ht : t ≠ .newline) (b : Bool) :
    Prints [c] b t.endsStatement [t] (fun rest => ∃ c, rest.head? = some c ∧ exprStart c = true) := by
  refine prints_token (by simp) ht fun rest hrest => ?_
  rw [nextPiece_closed fun c' hc' => ?_]
  · exact eq_of_beq (List.all_eq_true.mp ruleTables.unary_scan (c, t) h)
  · obtain ⟨c₀, hhead, hstart⟩ := hrest
    rw [hhead] at hc'
    cases Option.some.inj hc'
    have hall := ruleTables.unary_closed c'.toNat (exprStart_low hstart) (by rwa [Char.ofNat_toNat])
    rw [Char.ofNat_toNat] at hall
    exact List.all_eq_true.mp hall (c, t) h

end Signs

section Blanks

/-- Nothing that goes on with a blank. -/
def NoBlank (rest : List Char) : Prop := rest.head? ≠ some ' ' ∧ rest.head? ≠ some '\t'

theorem mem_blanks {s : List Char} : s ∈ blankPat.lang ↔ s ≠ [] ∧ ∀ c ∈ s, c = ' ' ∨ c = '\t' := by
  simp only [blankPat, Pat.plus, Pattern.mem_seq, Pattern.mem_sat, Pattern.mem_star_sat]
  constructor
  · intro h
    obtain ⟨t, ⟨c, hc, rfl⟩, u, hu, rfl⟩ := h
    exact ⟨by simp, List.forall_mem_cons.mpr ⟨by simpa using hc, fun d hd => by simpa using hu d hd⟩⟩
  · rintro ⟨hne, hall⟩
    obtain ⟨c, s, rfl⟩ := List.exists_cons_of_ne_nil hne
    obtain ⟨hc, hs⟩ := List.forall_mem_cons.mp hall
    exact ⟨[c], ⟨c, by simpa using hc, rfl⟩, s, fun d hd => by simpa using hs d hd, rfl⟩

def blankRule : Rule Char Act := ⟨blankPat, .blank⟩

theorem nextPiece_blanks {w rest : List Char} (hne : w ≠ []) (hw : ∀ c ∈ w, c = ' ')
    (hrest : NoBlank rest) : nextPiece (w ++ rest) = some (w.length, .blank) := by
  have hlong : blankPat.longest (w ++ rest) = some w.length := by
    refine Pattern.longest_eq_some (by simp) ?_ fun m hm hmem => ?_
    · rw [List.take_left]
      exact mem_blanks.mpr ⟨hne, fun c hc => .inl (hw c hc)⟩
    · by_contra hlt
      cases rest with
      | nil => simp at hm; omega
      | cons c rest =>
        obtain ⟨k, hk⟩ : ∃ k, m - w.length = k + 1 := ⟨m - w.length - 1, by omega⟩
        rw [List.take_append, List.take_of_length_le (by omega), hk, List.take_succ_cons] at hmem
        rcases (mem_blanks.mp hmem).2 c (by simp) with rfl | rfl
        · exact hrest.1 rfl
        · exact hrest.2 rfl
  obtain ⟨c, w, rfl⟩ := List.exists_cons_of_ne_nil hne
  have hc : c = ' ' := hw c (by simp)
  subst hc
  have hbest : best rules (' ' :: w ++ rest) = some ((' ' :: w).length, .blank) := by
    refine Pattern.best_eq (show blankRule ∈ rules from List.mem_cons_self ..) hlong fun other hother => ?_
    rcases List.mem_cons.mp (show other ∈ blankRule :: rules.drop 1 from hother) with h | h
    · exact .inl h
    · refine .inr fun m hm => ?_
      rw [List.cons_append, longest_dead hother (List.all_eq_true.mp ruleTables.blanks_dead other h)] at hm
      cases hm
  rw [nextPiece, pieceOf, hbest]

theorem prints_blanks {n : Nat} (b : Bool) : Prints (List.replicate (n + 1) ' ') b b [] NoBlank :=
  prints_gap (by simp) fun _ hrest =>
    nextPiece_blanks (by simp) (fun _ hc => List.eq_of_mem_replicate hc) hrest

theorem prints_blank (b : Bool) : Prints [' '] b b [] NoBlank := prints_blanks (n := 0) b

end Blanks

section Numbers

def dotTail : Pat Char := .seq (.sat (· == '.')) (.seq decPat (.opt exponentPat))

def readFloat : Act := .token fun s => (parseFloat s).map .float

def numberRules : List (Rule Char Act) :=
  [⟨.seq decPat dotTail, readFloat⟩, ⟨.seq decPat exponentPat, readFloat⟩,
    ⟨.seq (.lit ['0', 'x']) (.seq (.sat hexDigit) (.star (.sat fun c => hexDigit c || c == '_'))),
      .token fun s => (parseRadix s 16).map .int⟩,
    ⟨.seq (.lit ['0', 'b'])
      (.seq (.sat fun c => c == '0' || c == '1')
        (.star (.sat fun c => c == '0' || c == '1' || c == '_'))),
      .token fun s => (parseRadix s 2).map .int⟩,
    ⟨decPat, .token fun s => (parseDec s).map .int⟩]

theorem rules_numbers : rules = rules.take 39 ++ (numberRules ++ rules.drop 44) := rfl

/-- A run of digits and bars that a digit starts. -/
theorem mem_dec {s : List Char} :
    s ∈ decPat.lang ↔ ∃ c t, s = c :: t ∧ digit c = true ∧ ∀ d ∈ t, digitOrBar d = true := by
  simp only [decPat, Pattern.mem_seq, Pattern.mem_sat, Pattern.mem_star_sat]
  constructor
  · rintro ⟨t, ⟨c, hc, rfl⟩, u, hu, rfl⟩
    exact ⟨c, u, rfl, hc, hu⟩
  · rintro ⟨c, t, rfl, hc, ht⟩
    exact ⟨[c], ⟨c, hc, rfl⟩, t, ht, rfl⟩

theorem dec_run : ∀ s ∈ decPat.lang, ∀ c ∈ s, digitOrBar c = true := by
  intro s hs
  obtain ⟨c, t, rfl, hc, ht⟩ := mem_dec.mp hs
  exact List.forall_mem_cons.mpr ⟨by simp [digitOrBar, hc], ht⟩

variable {d u x : List Char}

/-- No digit and no bar. -/
def RunEnd (u : List Char) : Prop := ∀ c, u.head? = some c → digitOrBar c = false

theorem longest_dec (hd : d ∈ decPat.lang) (hu : RunEnd u) : decPat.longest (d ++ u) = some d.length := by
  refine Pattern.longest_eq_some (by simp) (by rwa [List.take_left]) fun m hm hmem => ?_
  have hsplit : d ++ u = (d ++ u).take m ++ (d ++ u).drop m := (List.take_append_drop m _).symm
  have := Pattern.run_le (dec_run _ hmem) hu hsplit
  rwa [List.length_take, Nat.min_eq_left hm] at this

theorem longest_exponent (hx : x ∈ exponentPat.lang) (hu : RunEnd u) :
    exponentPat.longest (x ++ u) = some x.length := by
  obtain ⟨t, ⟨e, he, rfl⟩, v, hv, rfl⟩ := Pattern.mem_seq.mp hx
  obtain ⟨g, hg, d, hd, rfl⟩ := Pattern.mem_seq.mp hv
  have hdec : ∀ b t, b :: t ∈ decPat.lang → (b == '+' || b == '-') = false := by
    intro b t hmem
    obtain ⟨c, s, hcs, hc, -⟩ := mem_dec.mp hmem
    obtain rfl : b = c := (List.cons.inj hcs).1
    refine Bool.eq_false_iff.mpr fun hsign => ?_
    rcases Bool.or_eq_true _ _ |>.mp hsign with h | h
    · rw [eq_of_beq h] at hc
      cases hc
    · rw [eq_of_beq h] at hc
      cases hc
  have hnil : [] ∉ decPat.lang := fun hmem => by
    obtain ⟨c, t, hct, -⟩ := mem_dec.mp hmem
    cases hct
  have hsign : (Pat.seq (.opt (.sat fun c => c == '+' || c == '-')) decPat).longest (g ++ d ++ u) =
      some (g ++ d).length := by
    rcases hg with ⟨c, hc, rfl⟩ | rfl
    · rw [List.singleton_append, List.cons_append, Pattern.longest_opt hdec hnil, if_pos hc,
        longest_dec hd hu]
      simp
    · obtain ⟨c, t, rfl, hc, ht⟩ := mem_dec.mp hd
      rw [List.nil_append, List.cons_append, Pattern.longest_opt hdec hnil,
        if_neg (by rw [hdec c t hd]; simp)]
      exact longest_dec hd hu
  rw [exponentPat, List.singleton_append, List.cons_append, Pattern.longest_sat, if_pos he, hsign]
  simp

theorem exponent_head {c : Char} {t : List Char} (h : c :: t ∈ exponentPat.lang) : c = 'e' ∨ c = 'E' := by
  have hhead := (Pattern.mem_seq_sat.mp h).1
  simpa using hhead

theorem exponent_nil : [] ∉ exponentPat.lang := by
  intro h
  obtain ⟨t, ⟨e, he, rfl⟩, v, hv, h⟩ := Pattern.mem_seq.mp h
  cases h

theorem exponent_none (h : ∀ c, u.head? = some c → c ≠ 'e' ∧ c ≠ 'E') : exponentPat.longest u = none := by
  refine Pattern.longest_none fun m hm hmem => ?_
  cases hu : u.take m with
  | nil =>
    rw [hu] at hmem
    exact exponent_nil hmem
  | cons c t =>
    rw [hu] at hmem
    have hhead : u.head? = some c := by
      cases u with
      | nil => simp at hu
      | cons a u =>
        cases m with
        | zero => simp at hu
        | succ m => simp at hu; simp [hu.1]
    rcases exponent_head hmem with rfl | rfl
    · exact (h _ hhead).1 rfl
    · exact (h _ hhead).2 rfl

theorem exponent_runEnd (hx : x ∈ (Pat.opt exponentPat).lang) (hu : RunEnd u) : RunEnd (x ++ u) := by
  rcases hx with hx | rfl
  · cases x with
    | nil => exact absurd hx exponent_nil
    | cons c t =>
      rintro _ ⟨⟩
      rcases exponent_head hx with rfl | rfl <;> rfl
  · exact hu

/-- Nothing that a number goes on with. -/
def NumEnd (u : List Char) : Prop :=
  WordEnd u ∧ ∀ c t, u = '.' :: c :: t → digit c = false

theorem NumEnd.runEnd (h : NumEnd u) : RunEnd u := by
  intro c hc
  have hpart := h.1 c hc
  simp only [identPart, Bool.or_eq_false_iff] at hpart
  have hbar : (c == '_') = false := by
    have := hpart.1
    simp only [identStart, Bool.or_eq_false_iff] at this
    exact this.2
  rw [digitOrBar, hpart.2, hbar]
  rfl

theorem NumEnd.no_letter (h : NumEnd u) {a : Char} (ha : identPart a = true) : ∀ c, u.head? = some c → c ≠ a := by
  rintro c hc rfl
  rw [h.1 c hc] at ha
  cases ha

theorem longest_fraction (hd : d ∈ decPat.lang) (hx : x ∈ (Pat.opt exponentPat).lang) (hu : NumEnd u) :
    (Pat.seq decPat (.opt exponentPat)).longest (d ++ (x ++ u)) = some (d.length + x.length) := by
  have hq : ∀ a s, a :: s ∈ (Pat.opt exponentPat).lang → digitOrBar a = false := by
    rintro a s (h | h)
    · rcases exponent_head h with rfl | rfl <;> rfl
    · cases h
  rw [Pattern.longest_seq_run dec_run hd (exponent_runEnd hx hu.runEnd) hq, Pattern.longest_optional]
  rcases hx with hx | rfl
  · rw [longest_exponent hx hu.runEnd]
    rfl
  · rw [List.nil_append, exponent_none fun c hc => ⟨hu.no_letter rfl c hc, hu.no_letter rfl c hc⟩]
    rfl

theorem dotTail_none (h : ∀ c t, u = '.' :: c :: t → digit c = false) : dotTail.longest u = none := by
  have hdec (s : List Char) (hs : ∀ c t, s = c :: t → digit c = false) :
      (Pat.seq decPat (.opt exponentPat)).longest s = none := by
    refine Pattern.longest_none fun m hm hmem => ?_
    obtain ⟨t, ht, v, -, htv⟩ := Pattern.mem_seq.mp hmem
    obtain ⟨c, t, rfl, hc, -⟩ := mem_dec.mp ht
    have hsplit : s = c :: (t ++ v ++ s.drop m) := by
      rw [← List.cons_append, ← List.cons_append, htv, List.take_append_drop]
    rw [hs c _ hsplit] at hc
    cases hc
  cases u with
  | nil => rfl
  | cons c u =>
    rw [dotTail, Pattern.longest_sat]
    split
    · rename_i hc
      rw [hdec u fun c' t hu => h c' t (by rw [eq_of_beq hc, hu])]
      rfl
    · rfl

theorem radix_none {c : Char} {q : Pat Char} (hc : digitOrBar c = false) (hd : d ∈ decPat.lang)
    (hu : ∀ a, u.head? = some a → a ≠ c) : (Pat.seq (.lit ['0', c]) q).longest (d ++ u) = none := by
  refine Pattern.longest_none fun m hm hmem => ?_
  obtain ⟨t, ht, v, -, htv⟩ := Pattern.mem_seq.mp hmem
  rw [Pattern.mem_lit] at ht
  subst ht
  have hsplit : d ++ u = '0' :: c :: (v ++ (d ++ u).drop m) := by
    have := List.take_append_drop m (d ++ u)
    rw [← htv] at this
    exact this.symm
  obtain ⟨a, t, rfl, -, ht⟩ := mem_dec.mp hd
  cases t with
  | nil =>
    have hhead := congrArg List.head? (List.cons.inj hsplit).2
    exact hu c (by simpa using hhead) rfl
  | cons b t =>
    obtain rfl : b = c := (List.cons.inj (List.cons.inj hsplit).2).1
    rw [ht b (by simp)] at hc
    cases hc

theorem best_numbers {c : Char} {s : List Char} (hc : digit c = true) :
    best rules (c :: s) = best numberRules (c :: s) := by
  have hnone : ∀ rule ∈ rules.take 39 ++ rules.drop 44, rule.pat.longest (c :: s) = none := by
    intro rule hrule
    have hdead := ruleTables.digits_dead c.toNat (exprStart_low (by simp [exprStart, hc])) (by rwa [Char.ofNat_toNat])
    rw [Char.ofNat_toNat] at hdead
    exact longest_dead (mem_sides hrule) (List.all_eq_true.mp hdead rule hrule) s
  rw [rules_numbers, Pattern.best_between]
  · exact fun rule hrule => hnone rule (List.mem_append_left _ hrule)
  · exact fun rule hrule => hnone rule (List.mem_append_right _ hrule)

theorem digit_eq (c : Char) : digit c = c.isDigit := rfl

theorem decimal_dec (n : Nat) : decimal n ∈ decPat.lang := by
  have hdigit {c : Char} (hc : c ∈ decimal n) : digit c = true := decimal_digits n c hc
  have hne : decimal n ≠ [] := Nat.toDigits_ne_nil
  obtain ⟨c, t, ht⟩ := List.exists_cons_of_ne_nil hne
  refine mem_dec.mpr ⟨c, t, ht, hdigit (by simp [ht]), fun d hd => ?_⟩
  simp [digitOrBar, hdigit (show d ∈ decimal n by simp [ht, hd])]

theorem parseDec_decimal {n : Nat} (hn : n < 2 ^ 127) : parseDec (decimal n) = some (n : Int) := by
  have hbar : (decimal n).filter (· != '_') = decimal n := by
    refine List.filter_eq_self.mpr fun c hc => ?_
    have h := decimal_digits n c hc
    refine bne_iff_ne.mpr fun hbar => ?_
    rw [hbar] at h
    cases h
  have hvalue : (decimal n).foldl (fun n c => 10 * n + (c.toNat - '0'.toNat)) 0 = n := value_decimal n
  rw [parseDec, hbar, hvalue, if_pos hn]

/-- What decides behind the first digits of a number. -/
theorem best_digits (hd : d ∈ decPat.lang) (hu : RunEnd u)
    (hradix : ∀ c, u.head? = some c → c ≠ 'x' ∧ c ≠ 'b') :
    best rules (d ++ u) = match dotTail.longest u, exponentPat.longest u with
      | some n, some m => if m ≤ n then some (d.length + n, readFloat) else some (d.length + m, readFloat)
      | some n, none => some (d.length + n, readFloat)
      | none, some m => some (d.length + m, readFloat)
      | none, none => some (d.length, .token fun s => (parseDec s).map .int) := by
  have hdot : (Pat.seq decPat dotTail).longest (d ++ u) = (dotTail.longest u).map (d.length + ·) := by
    refine Pattern.longest_seq_run dec_run hd hu fun a s h => ?_
    rw [eq_of_beq (Pattern.mem_seq_sat.mp h).1]
    rfl
  have hexp : (Pat.seq decPat exponentPat).longest (d ++ u) = (exponentPat.longest u).map (d.length + ·) := by
    refine Pattern.longest_seq_run dec_run hd hu fun a s h => ?_
    rcases exponent_head h with rfl | rfl <;> rfl
  have hhex (q : Pat Char) : (Pat.seq (.lit ['0', 'x']) q).longest (d ++ u) = none :=
    radix_none rfl hd fun c hc => (hradix c hc).1
  have hbin (q : Pat Char) : (Pat.seq (.lit ['0', 'b']) q).longest (d ++ u) = none :=
    radix_none rfl hd fun c hc => (hradix c hc).2
  have hfirst : best rules (d ++ u) = best numberRules (d ++ u) := by
    obtain ⟨c, t, rfl, hc, -⟩ := mem_dec.mp hd
    exact best_numbers hc
  rw [hfirst]
  simp only [numberRules, best, hdot, hexp, hhex, hbin, longest_dec hd hu]
  cases dotTail.longest u <;> cases exponentPat.longest u <;> simp

theorem nextPiece_int {n : Nat} (hn : n < 2 ^ 127) (hu : NumEnd u) :
    nextPiece (decimal n ++ u) = some ((decimal n).length, .token (.int n)) := by
  have hexp := exponent_none fun c hc => ⟨hu.no_letter (a := 'e') rfl c hc, hu.no_letter (a := 'E') rfl c hc⟩
  have hradix : ∀ c, u.head? = some c → c ≠ 'x' ∧ c ≠ 'b' := fun c hc =>
    ⟨hu.no_letter (a := 'x') rfl c hc, hu.no_letter (a := 'b') rfl c hc⟩
  have hbest := best_digits (decimal_dec n) hu.runEnd hradix
  rw [dotTail_none hu.2, hexp] at hbest
  rw [nextPiece, pieceOf, hbest]
  simp only [List.take_left, parseDec_decimal hn]
  rfl

/-- The text of a floating literal, as the scan reads it. -/
def FloatText (s : String) : Prop :=
  '_' ∉ s.toList ∧ (s.toList ∈ (Pat.seq decPat dotTail).lang ∨ s.toList ∈ (Pat.seq decPat exponentPat).lang)

theorem best_float {w : List Char} (hw : w ∈ (Pat.seq decPat dotTail).lang ∨ w ∈ (Pat.seq decPat exponentPat).lang)
    (hu : NumEnd u) : best rules (w ++ u) = some (w.length, readFloat) := by
  rcases hw with hw | hw
  · obtain ⟨d, hd, v, hv, rfl⟩ := Pattern.mem_seq.mp hw
    obtain ⟨t, ⟨c, hc, rfl⟩, y, hy, rfl⟩ := Pattern.mem_seq.mp hv
    obtain ⟨d', hd', x, hx, rfl⟩ := Pattern.mem_seq.mp hy
    obtain rfl := eq_of_beq hc
    have htail : dotTail.longest ('.' :: (d' ++ (x ++ u))) = some (d'.length + x.length + 1) := by
      rw [dotTail, Pattern.longest_sat, longest_fraction hd' hx hu]
      rfl
    have hexp : exponentPat.longest ('.' :: (d' ++ (x ++ u))) = none :=
      exponent_none (by simp)
    have hbest := best_digits (u := '.' :: (d' ++ (x ++ u))) hd (by simp [RunEnd, digitOrBar, digit]) (by simp)
    rw [htail, hexp] at hbest
    have htext : d ++ (['.'] ++ (d' ++ x)) ++ u = d ++ '.' :: (d' ++ (x ++ u)) := by simp
    rw [htext, hbest]
    simp only [List.length_append, List.length_singleton]
    congr 2
    omega
  · obtain ⟨d, hd, x, hx, rfl⟩ := Pattern.mem_seq.mp hw
    have hhead : ∀ c, (x ++ u).head? = some c → c = 'e' ∨ c = 'E' := by
      cases x with
      | nil => exact absurd hx exponent_nil
      | cons c t =>
        rintro _ ⟨⟩
        exact exponent_head hx
    have htail : dotTail.longest (x ++ u) = none := dotTail_none fun c t h => by
      rcases hhead '.' (by rw [h]; rfl) with h | h <;> cases h
    have hbest := best_digits hd (exponent_runEnd (.inl hx) hu.runEnd) fun c hc => by
      rcases hhead c hc with rfl | rfl <;> decide
    rw [htail, longest_exponent hx hu.runEnd] at hbest
    rw [List.append_assoc, hbest, List.length_append]

theorem nextPiece_float {s : String} (hs : FloatText s) (hu : NumEnd u) :
    nextPiece (s.toList ++ u) = some (s.toList.length, .token (.float s)) := by
  have hbar : s.toList.filter (· != '_') = s.toList :=
    List.filter_eq_self.mpr fun c hc => bne_iff_ne.mpr fun h => hs.1 (h ▸ hc)
  rw [nextPiece, pieceOf, best_float hs.2 hu]
  simp only [readFloat, List.take_left, parseFloat, hbar, String.ofList_toList]
  rfl

end Numbers

section Bytes

def byteRule : Rule Char Act :=
  ⟨.seq (.sat (· == '\'')) (.seq (quotedPat '\'') (.sat (· == '\''))),
    .token fun s => (unescapeByte s).map .byte⟩

theorem rules_byte : rules = rules.take 45 ++ byteRule :: rules.drop 46 := rfl

/-- A character between quotes, or one behind a backslash. -/
theorem mem_byte {s : List Char} : s ∈ byteRule.pat.lang ↔
    (∃ c, c ≠ '\'' ∧ c ≠ '\\' ∧ c ≠ '\n' ∧ s = ['\'', c, '\'']) ∨
      ∃ d, d ≠ '\n' ∧ s = ['\'', '\\', d, '\''] := by
  simp only [byteRule, quotedPat, Pattern.mem_seq, Pattern.mem_alt, Pattern.mem_sat]
  constructor
  · rintro ⟨t, ⟨a, ha, rfl⟩, v, ⟨y, hy, z, ⟨b, hb, rfl⟩, rfl⟩, rfl⟩
    obtain rfl := eq_of_beq ha
    obtain rfl := eq_of_beq hb
    rcases hy with ⟨c, hc, rfl⟩ | ⟨y, ⟨e, he, rfl⟩, z, ⟨d, hd, rfl⟩, rfl⟩
    · simp only [Bool.and_eq_true, bne_iff_ne] at hc
      exact .inl ⟨c, hc.1.1, hc.1.2, hc.2, rfl⟩
    · obtain rfl := eq_of_beq he
      exact .inr ⟨d, bne_iff_ne.mp hd, rfl⟩
  · rintro (⟨c, h₁, h₂, h₃, rfl⟩ | ⟨d, hd, rfl⟩)
    · exact ⟨_, ⟨'\'', rfl, rfl⟩, [c, '\''], ⟨[c], .inl ⟨c, by simp [h₁, h₂, h₃], rfl⟩, _,
        ⟨'\'', rfl, rfl⟩, rfl⟩, rfl⟩
    · exact ⟨_, ⟨'\'', rfl, rfl⟩, ['\\', d, '\''], ⟨['\\', d], .inr ⟨['\\'], ⟨'\\', rfl, rfl⟩, [d],
        ⟨d, bne_iff_ne.mpr hd, rfl⟩, rfl⟩, _, ⟨'\'', rfl, rfl⟩, rfl⟩, rfl⟩

theorem longest_byte {w : List Char} (hw : w ∈ byteRule.pat.lang) (u : List Char) :
    byteRule.pat.longest (w ++ u) = some w.length := by
  refine Pattern.longest_eq_some (by simp) (by rwa [List.take_left]) fun m hm hmem => ?_
  have hsplit := List.take_append_drop m (w ++ u)
  have hlen : ((w ++ u).take m).length = m := by rw [List.length_take, Nat.min_eq_left hm]
  rcases mem_byte.mp hw with ⟨c, h₁, h₂, -, rfl⟩ | ⟨d, -, rfl⟩
  · rcases mem_byte.mp hmem with ⟨c', -, -, -, ht⟩ | ⟨d', -, ht⟩
    · rw [ht] at hlen
      exact hlen.symm.le
    · rw [ht] at hsplit
      exact absurd (List.cons.inj (List.cons.inj hsplit).2).1.symm h₂
  · rcases mem_byte.mp hmem with ⟨c', -, h₂, -, ht⟩ | ⟨d', -, ht⟩
    · rw [ht] at hsplit
      exact absurd (List.cons.inj (List.cons.inj hsplit).2).1 h₂
    · rw [ht] at hlen
      exact hlen.symm.le

theorem nextPiece_byte {w : List Char} {v : UInt8} (hw : w ∈ byteRule.pat.lang) (hv : unescapeByte w = some v)
    (u : List Char) : nextPiece (w ++ u) = some (w.length, .token (.byte v)) := by
  have hbest : best rules (w ++ u) = some (w.length, byteRule.act) := by
    have hnone : ∀ rule ∈ rules.take 45 ++ rules.drop 46, rule.pat.longest (w ++ u) = none := by
      intro rule hrule
      have hdead := List.all_eq_true.mp ruleTables.quote_dead rule hrule
      rcases mem_byte.mp hw with ⟨c, -, -, -, rfl⟩ | ⟨d, -, rfl⟩
      · exact longest_dead (mem_sides hrule) hdead _
      · exact longest_dead (mem_sides hrule) hdead _
    rw [rules_byte, List.append_cons, List.append_assoc, Pattern.best_between]
    · simp [best, longest_byte hw u]
    · exact fun rule hrule => hnone rule (List.mem_append_left _ hrule)
    · exact fun rule hrule => hnone rule (List.mem_append_right _ hrule)
  rw [nextPiece, pieceOf, hbest]
  simp only [byteRule, List.take_left, hv]
  rfl

end Bytes

section Literals

theorem prints_int {n : Nat} (hn : n < 2 ^ 127) (b : Bool) : Prints (decimal n) b true [.int n] NumEnd :=
  prints_token Nat.toDigits_ne_nil (by simp) fun _ hrest => nextPiece_int hn hrest

theorem float_head {s : String} (hs : FloatText s) : ∃ c t, s.toList = c :: t ∧ digit c = true := by
  have hdec {q : Pat Char} (h : s.toList ∈ (Pat.seq decPat q).lang) :
      ∃ c t, s.toList = c :: t ∧ digit c = true := by
    obtain ⟨d, hd, v, -, hdv⟩ := Pattern.mem_seq.mp h
    obtain ⟨c, t, rfl, hc, -⟩ := mem_dec.mp hd
    exact ⟨c, t ++ v, hdv.symm, hc⟩
  exact hs.2.elim hdec hdec

theorem prints_float {s : String} (hs : FloatText s) (b : Bool) :
    Prints s.toList b true [.float s] NumEnd := by
  obtain ⟨c, t, hhead, -⟩ := float_head hs
  exact prints_token (by simp [hhead]) (by simp) fun _ hrest => nextPiece_float hs hrest

theorem prints_byte {w : List Char} {v : UInt8} (hw : w ∈ byteRule.pat.lang) (hv : unescapeByte w = some v)
    (b : Bool) : Prints w b true [.byte v] (fun _ => True) := by
  refine prints_token ?_ (by simp) fun u _ => nextPiece_byte hw hv u
  rintro rfl
  rcases mem_byte.mp hw with ⟨c, -, -, -, h⟩ | ⟨d, -, h⟩ <;> cases h

theorem prints_str (s : String) (b : Bool) : Prints (escapeStr s) b true [.str s] (fun _ => True) := by
  have hne : escapeStr s ≠ [] := by simp [escapeStr]
  have hlen : (escapeStr s).length = (escapeBody s.toList).length + 2 := by simp [escapeStr]
  refine prints_token (t := .str s) hne (by simp) fun u _ => ?_
  have hbest : best rules (escapeStr s ++ u) = some ((escapeStr s).length, strRule.act) := by
    rw [hlen]
    exact best_str (unbroken_escapeBody s.toList) u
  rw [nextPiece, pieceOf, hbest]
  simp only [strRule, List.take_left, unescapeStr_escapeStr]
  rfl

end Literals

end BetLang.Lexer
