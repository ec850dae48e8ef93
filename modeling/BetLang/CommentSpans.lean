import BetLang.BlockComments

/-! The comments that are read back from the gaps between the tokens are those the scan skipped. -/

namespace BetLang.Lexer

open Pattern (Pat Rule best)

section Bytes

theorem utf8_high {c : Char} (h : 0x7f < c.val.toNat) {b : UInt8}
    (hb : b ∈ String.utf8EncodeChar c) : 0x80 ≤ b.toNat := by
  have hv : ¬ c.val.toNat ≤ 0x7f := by omega
  simp only [String.utf8EncodeChar, hv, if_false] at hb
  split at hb
  · simp only [List.mem_cons, List.not_mem_nil, or_false] at hb
    rcases hb with rfl | rfl <;> simp only [UInt8.toNat_ofNat'] <;> omega
  · split at hb
    · simp only [List.mem_cons, List.not_mem_nil, or_false] at hb
      rcases hb with rfl | rfl | rfl <;> simp only [UInt8.toNat_ofNat'] <;> omega
    · simp only [List.mem_cons, List.not_mem_nil, or_false] at hb
      rcases hb with rfl | rfl | rfl | rfl <;> simp only [UInt8.toNat_ofNat'] <;> omega

theorem utf8_low {c : Char} (h : c.val.toNat ≤ 0x7f) :
    String.utf8EncodeChar c = [UInt8.ofNat c.val.toNat] := by
  simp only [String.utf8EncodeChar, if_pos h]

theorem toUInt8_low {c a : Char} (hc : c.val.toNat ≤ 0x7f) (ha : a.val.toNat ≤ 0x7f) :
    UInt8.ofNat c.val.toNat = a.toUInt8 ↔ c = a := by
  have hbyte : a.toUInt8 = UInt8.ofNat a.val.toNat := rfl
  constructor
  · intro h
    have := congrArg UInt8.toNat (h.trans hbyte)
    simp only [UInt8.toNat_ofNat'] at this
    exact Char.ext (UInt32.toNat_inj.mp (by omega))
  · intro h
    rw [h, hbyte]

@[simp] theorem utf8_nil : utf8 [] = [] := rfl

theorem utf8_cons (c : Char) (t : List Char) : utf8 (c :: t) = String.utf8EncodeChar c ++ utf8 t := rfl

theorem utf8_append (s t : List Char) : utf8 (s ++ t) = utf8 s ++ utf8 t := List.flatMap_append

theorem length_le_utf8 (t : List Char) : t.length ≤ (utf8 t).length := by
  induction t with
  | nil => simp
  | cons c t ih =>
    have hpos : 0 < (String.utf8EncodeChar c).length :=
      List.length_pos_iff.mpr String.utf8EncodeChar_ne_nil
    simp only [utf8_cons, List.length_cons, List.length_append]
    omega

/-- Another character has no byte of an ASCII character. -/
theorem ne_of_mem_utf8 {c a : Char} (ha : a.val.toNat ≤ 0x7f) (hne : c ≠ a) {b : UInt8}
    (hb : b ∈ String.utf8EncodeChar c) : b ≠ a.toUInt8 := by
  by_cases hc : c.val.toNat ≤ 0x7f
  · rw [utf8_low hc, List.mem_singleton] at hb
    rw [hb]
    exact fun h => hne ((toUInt8_low hc ha).mp h)
  · intro h
    have hhigh := utf8_high (by omega) hb
    have hbyte : a.toUInt8 = UInt8.ofNat a.val.toNat := rfl
    rw [h, hbyte, UInt8.toNat_ofNat'] at hhigh
    omega

theorem utf8_ascii {a : Char} (ha : a.val.toNat ≤ 0x7f) (t : List Char) :
    utf8 (a :: t) = a.toUInt8 :: utf8 t := by
  rw [utf8_cons, utf8_low ha]
  rfl

theorem head_utf8 {a : Char} (ha : a.val.toNat ≤ 0x7f) {t : List Char} (h : t.head? ≠ some a) :
    (utf8 t).head? ≠ some a.toUInt8 := by
  cases t with
  | nil => simp
  | cons c t =>
    have hne : c ≠ a := by simpa using h
    obtain ⟨b, bs, hbytes⟩ := List.exists_cons_of_ne_nil (String.utf8EncodeChar_ne_nil (c := c))
    have hb := ne_of_mem_utf8 ha hne (b := b) (by simp [hbytes])
    simpa [utf8_cons, hbytes] using hb

theorem takeWhile_utf8 (t : List Char) :
    (utf8 t).takeWhile (· != '\n'.toUInt8) = utf8 (t.takeWhile (· != '\n')) := by
  induction t with
  | nil => rfl
  | cons c t ih =>
    by_cases hc : c = '\n'
    · subst hc
      simp [utf8_ascii (a := '\n') (by decide)]
    · have hbytes : ∀ b ∈ String.utf8EncodeChar c, (b != '\n'.toUInt8) = true := by
        intro b hb
        simpa using ne_of_mem_utf8 (a := '\n') (by decide) hc hb
      rw [utf8_cons, List.takeWhile_append_of_pos hbytes, ih, List.takeWhile_cons]
      simp [hc, utf8_cons]

theorem blockLen_cons (b : UInt8) (rest : List UInt8) : blockLen (b :: rest) =
    if b = '*'.toUInt8 ∧ rest.head? = some '/'.toUInt8 then 2 else 1 + blockLen rest := by
  cases rest with
  | nil => simp [blockLen]
  | cons b' rest => simp [blockLen]

theorem blockLen_append {bs : List UInt8} (h : ∀ b ∈ bs, b ≠ '*'.toUInt8) (rest : List UInt8) :
    blockLen (bs ++ rest) = bs.length + blockLen rest := by
  induction bs with
  | nil => simp
  | cons b bs ih =>
    have hb : b ≠ '*'.toUInt8 := h b (by simp)
    have hbs := ih fun b' hb' => h b' (by simp [hb'])
    rw [List.cons_append, blockLen_cons, if_neg (fun hclose => hb hclose.1), hbs, List.length_cons]
    omega

theorem blockLen_utf8 {t : List Char} {n : Nat} (h : firstClose t = some n) :
    blockLen (utf8 t) = (utf8 (t.take n)).length := by
  induction t generalizing n with
  | nil => cases h
  | cons c t ih =>
    by_cases hclose : c = '*' ∧ t.head? = some '/'
    · obtain ⟨rfl, hhead⟩ := hclose
      obtain ⟨t, rfl⟩ := List.head?_eq_some_iff.mp hhead
      simp only [firstClose, List.head?_cons, and_self, if_true, Option.some.injEq] at h
      subst h
      simp [utf8_ascii (a := '*') (by decide), utf8_ascii (a := '/') (by decide), blockLen]
    · simp only [firstClose, if_neg hclose, Option.map_eq_some_iff] at h
      obtain ⟨m, hm, rfl⟩ := h
      have hrest := ih hm
      simp only [List.take_succ_cons, utf8_cons, List.length_append]
      by_cases hc : c = '*'
      · subst hc
        have hhead := head_utf8 (a := '/') (by decide) (t := t) fun hh => hclose ⟨rfl, hh⟩
        rw [utf8_low (c := '*') (by decide), List.singleton_append, blockLen_cons,
          if_neg (fun hh => hhead hh.2), hrest]
        rfl
      · rw [blockLen_append (fun b hb => ne_of_mem_utf8 (a := '*') (by decide) hc hb), hrest]

end Bytes

section Pieces

theorem rules_nullable : rules.all (fun rule => !rule.pat.nullable) = true := rfl

theorem nextPiece_pos {s : List Char} {n : Nat} {piece : Piece} (h : nextPiece s = some (n, piece)) :
    0 < n := by
  obtain ⟨-, rule, hmem, hlong, -⟩ := pieceOf_some h
  have hnull := List.all_eq_true.mp rules_nullable rule hmem
  by_contra hzero
  have hn : n = 0 := by omega
  have hnil := (Pattern.mem_of_longest hlong).2
  rw [hn, List.take_zero] at hnil
  simp [(Pattern.nullable_iff _).mpr hnil] at hnull

/-- A piece that is no token is the match of the one rule that skips it. -/
theorem longest_skipped {s : List Char} {n : Nat} {piece : Piece} {r : Rule Char Act}
    (htok : tokenRules.all (fun rule => !rule.act.gives piece) = true)
    (honly : ∀ rule ∈ skipRules, rule.act.gives piece = true → rule = r)
    (h : nextPiece s = some (n, piece)) : r.pat.longest s = some n := by
  obtain ⟨-, rule, hmem, hlong, hgives⟩ := pieceOf_some h
  rcases List.mem_append.mp hmem with hskip | htoken
  · rw [← honly rule hskip hgives]
    exact hlong
  · have hno := List.all_eq_true.mp htok rule htoken
    simp [hgives] at hno

theorem longest_blank {s : List Char} {n : Nat} (h : nextPiece s = some (n, .blank)) :
    blankPat.longest s = some n := by
  refine longest_skipped (r := ⟨blankPat, .blank⟩) rfl ?_ h
  simp [skipRules, Act.gives]

theorem longest_line {s : List Char} {n : Nat} (h : nextPiece s = some (n, .line)) :
    linePat.longest s = some n := by
  refine longest_skipped (r := ⟨linePat, .line⟩) rfl ?_ h
  simp [skipRules, Act.gives]

theorem blank_chars {s : List Char} {n : Nat} (h : nextPiece s = some (n, .blank)) :
    ∀ c ∈ s.take n, c = ' ' ∨ c = '\t' := by
  have hmem := (Pattern.mem_of_longest (longest_blank h)).2
  obtain ⟨t, ht, u, hu, htu⟩ := Pattern.mem_seq.mp hmem
  obtain ⟨b, hb, rfl⟩ := Pattern.mem_sat.mp ht
  have hrest := Pattern.mem_star_sat.mp hu
  rw [← htu]
  intro c hc
  rcases List.mem_append.mp hc with hc | hc
  · rw [List.mem_singleton.mp hc]
    simpa using hb
  · simpa using hrest c hc

theorem mem_line {s : List Char} : s ∈ linePat.lang ↔
    ∃ u, (∀ c ∈ u, c ≠ '\n') ∧ s = '/' :: '/' :: u := by
  simp only [linePat, Pattern.mem_seq, Pattern.mem_lit, Pattern.mem_star_sat, bne_iff_ne]
  constructor
  · intro h
    obtain ⟨t, rfl, u, hu, rfl⟩ := h
    exact ⟨u, hu, rfl⟩
  · intro h
    obtain ⟨u, hu, rfl⟩ := h
    exact ⟨_, rfl, u, hu, rfl⟩

/-- A line comment runs up to the next newline. -/
theorem line_take {s : List Char} {n : Nat} (h : nextPiece s = some (n, .line)) :
    ∃ t, s = '/' :: '/' :: t ∧ s.take n = '/' :: '/' :: t.takeWhile (· != '\n') := by
  have hlong := longest_line h
  obtain ⟨hn, hmem⟩ := Pattern.mem_of_longest hlong
  obtain ⟨u, hu, htake⟩ := mem_line.mp hmem
  have hs : s = '/' :: '/' :: (u ++ s.drop n) := by
    have := List.take_append_drop n s
    rw [htake] at this
    exact this.symm
  refine ⟨u ++ s.drop n, hs, ?_⟩
  have hlen : n = u.length + 2 := by
    have := congrArg List.length htake
    simp only [List.length_take, List.length_cons] at this
    omega
  -- a longer part of the line would match as well
  have hstop : (s.drop n).head?.all (· == '\n') = true := by
    cases hd : s.drop n with
    | nil => rfl
    | cons c rest =>
      by_contra hc
      have hne : c ≠ '\n' := by simpa using hc
      have hlonger : s.take (n + 1) ∈ linePat.lang := by
        refine mem_line.mpr ⟨u ++ [c], ?_, ?_⟩
        · intro d hd
          rcases List.mem_append.mp hd with hd | hd
          · exact hu d hd
          · rwa [List.mem_singleton.mp hd]
        · rw [List.take_add, htake, hd]
          simp
      have hbound : n + 1 ≤ s.length := by
        have := congrArg List.length hd
        simp only [List.length_drop, List.length_cons] at this
        omega
      obtain ⟨m, hm, hle⟩ := Pattern.longest_of_mem hbound hlonger
      rw [hlong] at hm
      cases hm
      omega
  rw [htake, List.takeWhile_append_of_pos (by simpa using hu)]
  have hnone : (s.drop n).takeWhile (· != '\n') = [] := by
    cases hd : s.drop n with
    | nil => rfl
    | cons c rest =>
      rw [hd] at hstop
      simp only [List.head?_cons, Option.all_some, beq_iff_eq] at hstop
      simp [hstop]
  rw [hnone, List.append_nil]

end Pieces

section Gaps

theorem commentAt_blank {c : Char} (h : c = ' ' ∨ c = '\t') (t : List Char) :
    commentAt (utf8 (c :: t)) = none := by
  have hbyte : ∃ b, utf8 (c :: t) = b :: utf8 t ∧ b ≠ '/'.toUInt8 := by
    rcases h with rfl | rfl
    · exact ⟨' '.toUInt8, utf8_ascii (by decide) t, by decide⟩
    · exact ⟨'\t'.toUInt8, utf8_ascii (by decide) t, by decide⟩
  obtain ⟨b, hb, hne⟩ := hbyte
  rw [hb]
  cases utf8 t with
  | nil => rfl
  | cons b' rest => simp [commentAt, hne]

theorem commentAt_line {s : List Char} {n : Nat} (h : nextPiece s = some (n, .line)) :
    commentAt (utf8 s) = some (.line, (utf8 (s.take n)).length) := by
  obtain ⟨t, rfl, htake⟩ := line_take h
  have hslash (t : List Char) := utf8_ascii (a := '/') (by decide) t
  rw [htake]
  simp only [hslash, commentAt, and_self, if_true, takeWhile_utf8, List.length_cons]
  simp only [Option.some.injEq, Prod.mk.injEq, true_and]
  omega

theorem commentAt_block {s : List Char} {n : Nat} (h : intendedBlock s = some n) :
    commentAt (utf8 s) = some (.block, (utf8 (s.take n)).length) := by
  unfold intendedBlock at h
  split at h
  · rename_i t
    obtain ⟨m, hm, rfl⟩ := Option.map_eq_some_iff.mp h
    have hslash (t : List Char) := utf8_ascii (a := '/') (by decide) t
    have hstar (t : List Char) := utf8_ascii (a := '*') (by decide) t
    have hne : '*'.toUInt8 ≠ '/'.toUInt8 := by decide
    simp only [hslash, hstar, commentAt, hne, and_false, and_self, if_false, if_true,
      List.take_succ_cons, List.length_cons, blockLen_utf8 hm]
    simp only [Option.some.injEq, Prod.mk.injEq, true_and]
    omega
  · cases h

theorem dropWhile_olds {i : Nat} {olds toks : List Spanned} (holds : ∀ t ∈ olds, t.span.fin ≤ i)
    (htoks : ∀ t ∈ toks, i < t.span.fin) :
    (olds ++ toks).dropWhile (·.span.fin ≤ i) = toks := by
  rw [List.dropWhile_append_of_pos (by simpa using holds)]
  cases toks with
  | nil => rfl
  | cons t toks => simp [htoks t (by simp)]

/-- One step in a gap: the next token starts further on. -/
theorem commentsFrom_gap {bytes : List UInt8} {fuel i : Nat} {olds toks : List Spanned}
    (hi : i < bytes.length) (holds : ∀ t ∈ olds, t.span.fin ≤ i)
    (htoks : ∀ t ∈ toks, i < t.span.start ∧ t.span.start < t.span.fin) :
    commentsFrom bytes (fuel + 1) i (olds ++ toks) =
      ((commentAt (bytes.drop i)).elim (commentsFrom bytes fuel (i + 1) toks) fun found =>
        ⟨⟨u32 i, u32 (i + found.2)⟩, (bytes.drop i).take found.2, found.1⟩ ::
          commentsFrom bytes fuel (i + found.2) toks) := by
  have hdrop := dropWhile_olds holds fun t ht => (htoks t ht).1.trans (htoks t ht).2
  have hhead : toks.head?.filter (·.span.start ≤ i) = none := by
    cases toks with
    | nil => rfl
    | cons t toks =>
      have := (htoks t (by simp)).1
      simp [Option.filter]
      omega
  rw [commentsFrom, if_pos hi]
  simp only [hdrop, hhead]
  cases commentAt (bytes.drop i) <;> rfl

/-- One step over a token. -/
theorem commentsFrom_token {bytes : List UInt8} {fuel i : Nat} {olds toks : List Spanned}
    {tok : Spanned} (hi : i < bytes.length) (holds : ∀ t ∈ olds, t.span.fin ≤ i)
    (hstart : tok.span.start ≤ i) (hfin : i < tok.span.fin) (htoks : ∀ t ∈ toks, i < t.span.fin) :
    commentsFrom bytes (fuel + 1) i (olds ++ tok :: toks) =
      commentsFrom bytes fuel tok.span.fin (tok :: toks) := by
  have hlater : ∀ t ∈ tok :: toks, i < t.span.fin := by simpa using ⟨hfin, htoks⟩
  have hdrop := dropWhile_olds holds hlater
  rw [commentsFrom, if_pos hi]
  simp [hdrop, hstart, Option.filter]

theorem commentsFrom_end {bytes : List UInt8} {fuel i : Nat} {toks : List Spanned}
    (hi : bytes.length ≤ i) : commentsFrom bytes fuel i toks = [] := by
  cases fuel with
  | zero => rfl
  | succ fuel => simp [commentsFrom, hi]

end Gaps

section Agreement

/-- The comment that the scan has skipped, with the span that a token there would have. -/
def Located.comment (l : Located) : Option (CommentKind × Span) :=
  match l.piece with
  | .line => some (.line, ⟨u32 l.start, u32 l.fin⟩)
  | .block => some (.block, ⟨u32 l.start, u32 l.fin⟩)
  | _ => none

/-- The comments that are read back are those that were skipped. -/
def CommentsAgree (src : List Char) : Prop :=
  ∀ pieces raw comments, scan src = .ok pieces → tokenizeWithTrivia src = .ok (raw, comments) →
    comments.map (fun c => (c.kind, c.span)) = pieces.filterMap Located.comment

/-- From the byte `pos` on, with tokens `olds` left behind, just the comments of `pieces` are
found. -/
def Finds (bytes : List UInt8) (pos : Nat) (pieces : List Located) : Prop :=
  ∀ olds fuel, (∀ t ∈ olds, t.span.fin ≤ pos) → bytes.length ≤ pos + fuel →
    (commentsFrom bytes fuel pos (olds ++ pieces.filterMap Located.spanned)).map
      (fun c => (c.kind, c.span)) = pieces.filterMap Located.comment

def Within (low high : Nat) (pieces : List Located) : Prop :=
  ∀ l ∈ pieces, low ≤ l.start ∧ l.start < l.fin ∧ l.fin ≤ high

/-- The bytes of the piece of `n` characters at the front of a text. -/
def taken (rest : List Char) (n : Nat) : Nat := (utf8 (rest.take n)).length

theorem taken_drop (rest : List Char) (n : Nat) :
    taken rest n + (utf8 (rest.drop n)).length = (utf8 rest).length := by
  rw [taken, ← List.length_append, ← utf8_append, List.take_append_drop]

theorem taken_pos {rest : List Char} {n : Nat} (hn : 0 < n) (hrest : rest ≠ []) :
    0 < taken rest n := by
  have hlong := length_le_utf8 (rest.take n)
  have := List.length_pos_iff.mpr hrest
  rw [List.length_take] at hlong
  rw [taken]
  omega

/-- A scan that goes through takes a piece, and goes on behind it. -/
theorem scanFrom_cons {fuel pos : Nat} {c : Char} {cs : List Char} {pieces : List Located}
    (h : scanFrom (fuel + 1) pos (c :: cs) = .ok pieces) : ∃ n piece later,
      nextPiece (c :: cs) = some (n, piece) ∧
      scanFrom fuel (pos + taken (c :: cs) n) ((c :: cs).drop n) = .ok later ∧
      pieces = ⟨piece, pos, pos + taken (c :: cs) n⟩ :: later := by
  cases hp : nextPiece (c :: cs) with
  | none => simp [scanFrom, hp] at h
  | some found =>
    obtain ⟨n, piece⟩ := found
    cases hs : scanFrom fuel (pos + taken (c :: cs) n) ((c :: cs).drop n) with
    | error e =>
      rw [taken] at hs
      simp [scanFrom, hp, hs, Except.map] at h
    | ok later =>
      refine ⟨n, piece, later, rfl, hs, ?_⟩
      rw [taken] at hs
      simp only [scanFrom, hp, hs, Except.map, Except.ok.injEq] at h
      exact h.symm

theorem scanFrom_within {fuel pos : Nat} {rest : List Char} {pieces : List Located}
    (h : scanFrom fuel pos rest = .ok pieces) : Within pos (pos + (utf8 rest).length) pieces := by
  induction fuel generalizing pos rest pieces with
  | zero =>
    cases rest with
    | nil =>
      cases h
      simp [Within]
    | cons c cs => cases h
  | succ fuel ih =>
    cases rest with
    | nil =>
      cases h
      simp [Within]
    | cons c cs =>
      obtain ⟨n, piece, later, hp, hlater, rfl⟩ := scanFrom_cons h
      have hlen := taken_drop (c :: cs) n
      have hpos := taken_pos (nextPiece_pos hp) (List.cons_ne_nil c cs)
      intro l hl
      rcases List.mem_cons.mp hl with rfl | hl
      · exact ⟨le_rfl, by simp only; omega, by simp only; omega⟩
      · have := ih hlater l hl
        exact ⟨by omega, this.2.1, by omega⟩

theorem u32_eq {n : Nat} (h : n < 2 ^ 32) : u32 n = n := Nat.mod_eq_of_lt h

theorem spanned_within {low high : Nat} {pieces : List Located} (h : Within low high pieces)
    (hhigh : high < 2 ^ 32) : ∀ t ∈ pieces.filterMap Located.spanned,
      low ≤ t.span.start ∧ t.span.start < t.span.fin := by
  intro t ht
  obtain ⟨l, hl, hspan⟩ := List.mem_filterMap.mp ht
  obtain ⟨hlow, hlt, hfin⟩ := h l hl
  cases hp : l.piece with
  | token tok =>
    simp only [Located.spanned, hp, Option.some.injEq] at hspan
    rw [← hspan]
    simp only [u32_eq (show l.start < 2 ^ 32 by omega), u32_eq (show l.fin < 2 ^ 32 by omega)]
    exact ⟨hlow, hlt⟩
  | blank => simp [Located.spanned, hp] at hspan
  | line => simp [Located.spanned, hp] at hspan
  | block => simp [Located.spanned, hp] at hspan

theorem Reached.head {next : List Char → Option Nat} {src rest : List Char} {n : Nat}
    (hn : next src = some n) (h : Reached next (src.drop n) rest) : Reached next src rest := by
  induction h with
  | start => exact .step .start hn
  | step _ hnext ih => exact .step ih hnext

variable {bytes : List UInt8} {pos : Nat} {pieces : List Located}

theorem finds_blank {gap rest : List Char} (hgap : ∀ c ∈ gap, c = ' ' ∨ c = '\t')
    (hbytes : bytes.drop pos = utf8 (gap ++ rest))
    (htoks : ∀ t ∈ pieces.filterMap Located.spanned,
      pos + gap.length ≤ t.span.start ∧ t.span.start < t.span.fin)
    (hlater : Finds bytes (pos + gap.length) pieces) : Finds bytes pos pieces := by
  induction gap generalizing pos with
  | nil => exact hlater
  | cons c gap ih =>
    intro olds fuel holds hfuel
    have hlow : c.val.toNat ≤ 0x7f := by
      rcases hgap c (by simp) with rfl | rfl <;> decide
    have hcons : bytes.drop pos = c.toUInt8 :: utf8 (gap ++ rest) := by
      rw [hbytes, List.cons_append, utf8_ascii hlow]
    have hpos : pos < bytes.length := by
      by_contra hge
      rw [List.drop_eq_nil_of_le (by omega)] at hcons
      cases hcons
    have hnext : Finds bytes (pos + 1) pieces := by
      refine ih (fun d hd => hgap d (by simp [hd])) ?_ ?_ ?_
      · rw [← List.drop_drop, hcons]
        rfl
      · intro t ht
        have := htoks t ht
        simp only [List.length_cons] at this
        omega
      · have hsum : pos + 1 + gap.length = pos + (c :: gap).length := by
          simp only [List.length_cons]
          omega
        rw [hsum]
        exact hlater
    obtain ⟨fuel, rfl⟩ : ∃ k, fuel = k + 1 := ⟨fuel - 1, by omega⟩
    have hnone : commentAt (bytes.drop pos) = none := by
      rw [hbytes]
      exact commentAt_blank (hgap c (by simp)) (gap ++ rest)
    rw [commentsFrom_gap hpos holds, hnone]
    · exact hnext [] fuel (by simp) (by omega)
    · intro t ht
      have := htoks t ht
      simp only [List.length_cons] at this
      omega

theorem blanks_length {gap : List Char} (hgap : ∀ c ∈ gap, c = ' ' ∨ c = '\t') :
    (utf8 gap).length = gap.length := by
  induction gap with
  | nil => rfl
  | cons c gap ih =>
    have hlow : c.val.toNat ≤ 0x7f := by
      rcases hgap c (by simp) with rfl | rfl <;> decide
    rw [utf8_ascii hlow, List.length_cons, List.length_cons, ih fun d hd => hgap d (by simp [hd])]

theorem finds_comment {kind : CommentKind} {n : Nat}
    (hat : commentAt (bytes.drop pos) = some (kind, n)) (hn : 0 < n)
    (htoks : ∀ t ∈ pieces.filterMap Located.spanned,
      pos + n ≤ t.span.start ∧ t.span.start < t.span.fin)
    (hlater : Finds bytes (pos + n) pieces) {l : Located} (hspan : l.spanned = none)
    (hcomment : l.comment = some (kind, ⟨u32 pos, u32 (pos + n)⟩)) :
    Finds bytes pos (l :: pieces) := by
  intro olds fuel holds hfuel
  have hpos : pos < bytes.length := by
    by_contra hge
    rw [List.drop_eq_nil_of_le (by omega)] at hat
    cases hat
  obtain ⟨fuel, rfl⟩ : ∃ k, fuel = k + 1 := ⟨fuel - 1, by omega⟩
  have hrest := hlater [] fuel (by simp) (by omega)
  rw [List.filterMap_cons_none hspan, List.filterMap_cons_some hcomment]
  rw [commentsFrom_gap hpos holds, hat]
  · simpa using hrest
  · intro t ht
    have := htoks t ht
    omega

theorem finds_run {fuel : Nat} {rest : List Char} (hshort : bytes.length < 2 ^ 32)
    (hscan : scanFrom fuel pos rest = .ok pieces)
    (hskips : ∀ s, Reached nextLength rest s → skippedBlock s = intendedBlock s)
    (hbytes : bytes.drop pos = utf8 rest) : Finds bytes pos pieces := by
  induction fuel generalizing pos rest pieces with
  | zero =>
    cases rest with
    | nil =>
      cases hscan
      intro olds k _ _
      rw [commentsFrom_end (List.drop_eq_nil_iff.mp hbytes)]
      rfl
    | cons c cs => cases hscan
  | succ fuel ih =>
    cases rest with
    | nil =>
      cases hscan
      intro olds k _ _
      rw [commentsFrom_end (List.drop_eq_nil_iff.mp hbytes)]
      rfl
    | cons c cs =>
      obtain ⟨n, piece, later, hp, hlater, rfl⟩ := scanFrom_cons hscan
      have hlen := taken_drop (c :: cs) n
      have hpos := taken_pos (nextPiece_pos hp) (List.cons_ne_nil c cs)
      have htotal : bytes.length = pos + (utf8 (c :: cs)).length := by
        have hdrop := congrArg List.length hbytes
        rw [List.length_drop] at hdrop
        omega
      have hbehind : bytes.drop (pos + taken (c :: cs) n) = utf8 ((c :: cs).drop n) := by
        have hsplit : utf8 (c :: cs) = utf8 ((c :: cs).take n) ++ utf8 ((c :: cs).drop n) := by
          rw [← utf8_append, List.take_append_drop]
        rw [← List.drop_drop, hbytes, hsplit, taken, List.drop_left]
      have hnext : nextLength (c :: cs) = some n := by simp [nextLength, hp]
      have hfinds := ih hlater (fun s hs => hskips s (hs.head hnext)) hbehind
      have htoks := spanned_within (scanFrom_within hlater) (by omega)
      cases piece with
      | blank =>
        have hgap := blank_chars hp
        have hgaplen := blanks_length hgap
        have hgapbytes : bytes.drop pos = utf8 ((c :: cs).take n ++ (c :: cs).drop n) := by
          rw [List.take_append_drop, hbytes]
        have hfound : Finds bytes pos later := by
          refine finds_blank hgap hgapbytes ?_ ?_
          · rw [← hgaplen]
            exact htoks
          · rw [← hgaplen]
            exact hfinds
        intro olds k holds hk
        rw [List.filterMap_cons_none rfl, List.filterMap_cons_none rfl]
        exact hfound olds k holds hk
      | line =>
        have hat : commentAt (bytes.drop pos) = some (.line, taken (c :: cs) n) := by
          rw [hbytes]
          exact commentAt_line hp
        exact finds_comment hat hpos htoks hfinds rfl rfl
      | block =>
        have hskip := hskips _ .start
        have hintended : intendedBlock (c :: cs) = some n := by
          rw [← hskip]
          simp [skippedBlock, hp]
        have hat : commentAt (bytes.drop pos) = some (.block, taken (c :: cs) n) := by
          rw [hbytes]
          exact commentAt_block hintended
        exact finds_comment hat hpos htoks hfinds rfl rfl
      | token tok =>
        intro olds k holds hk
        obtain ⟨k, rfl⟩ : ∃ j, k = j + 1 := ⟨k - 1, by omega⟩
        have hrest := hfinds [⟨tok, ⟨pos, pos + taken (c :: cs) n⟩⟩] k (by simp) (by omega)
        have hspan : (⟨.token tok, pos, pos + taken (c :: cs) n⟩ : Located).spanned =
            some ⟨tok, ⟨pos, pos + taken (c :: cs) n⟩⟩ := by
          simp only [Located.spanned, u32_eq (show pos < 2 ^ 32 by omega),
            u32_eq (show pos + taken (c :: cs) n < 2 ^ 32 by omega)]
        rw [List.filterMap_cons_some hspan, List.filterMap_cons_none rfl]
        rw [commentsFrom_token (by omega) holds le_rfl (by simp only; omega)]
        · exact hrest
        · intro t ht
          have := htoks t ht
          omega

theorem comments_agree {src : List Char} (hshort : (utf8 src).length < 2 ^ 32)
    (h : SkipsBlocks src) : CommentsAgree src := by
  intro pieces raw comments hscan htoken
  simp only [tokenizeWithTrivia, hscan, Except.map, Except.ok.injEq, Prod.mk.injEq] at htoken
  rw [← htoken.2]
  exact finds_run hshort hscan h rfl [] _ (by simp) (by omega)

end Agreement

/-- Every block comment is skipped from its `/*` to the first `*/` behind it, and what is read back
from the gaps is what has been skipped, just where an odd run of stars ends in that `*/`. -/
theorem block_comments_iff (src : List Char) :
    ((utf8 src).length < 2 ^ 32 → (SkipsBlocks src ∧ CommentsAgree src ↔ OddRuns src)) ∧
      (SkipsBlocks src ↔ OddRuns src) := by
  refine ⟨fun hshort => ?_, skipsBlocks_iff src⟩
  constructor
  · exact fun h => (skipsBlocks_iff src).mp h.1
  · intro h
    have hskips := (skipsBlocks_iff src).mpr h
    exact ⟨hskips, comments_agree hshort hskips⟩

/-- `/***/` is not skipped: its stars are taken in pairs, and the slash is one that no star is left
for. -/
theorem starred_not_skipped : ¬ SkipsBlocks ['/', '*', '*', '*', '/'] := by
  intro h
  have hodd := (skipped_iff _).mp (h _ .start) _ rfl
  exact absurd (hodd 2 rfl) (by decide)

end BetLang.Lexer
