import BetLang.Lexer

/-! Where a block comment ends: its rule takes the stars of the inside in pairs, so that it meets
the first `*/` only behind an odd run of stars. -/

namespace BetLang.Lexer

open Pattern (Pat Rule best)

section Closing

/-- The length of a text up to and with the first `*/` in it. -/
def firstClose : List Char → Option Nat
  | [] => none
  | c :: t => if c = '*' ∧ t.head? = some '/' then some 2 else (firstClose t).map (· + 1)

/-- How many stars the first `*/` ends, in a text that follows a run of them. -/
def closingStars (run : Nat) : List Char → Option Nat
  | [] => none
  | c :: t =>
    if c = '*' then closingStars (run + 1) t
    else if c = '/' ∧ 0 < run then some run
    else closingStars 0 t

/-- The first `/` behind a star, in a text that follows one or not. -/
def closeBehind (star : Bool) : List Char → Option Nat
  | [] => none
  | c :: t => if star ∧ c = '/' then some 1 else (closeBehind (c = '*') t).map (· + 1)

/-- The first `/` behind a star that is not itself taken by a star; `open` says whether the text
follows such a star. -/
def alignedClose (star : Bool) : List Char → Option Nat
  | [] => none
  | c :: t =>
    if star ∧ c = '/' then some 1 else (alignedClose (!star && c = '*') t).map (· + 1)

theorem closeBehind_eq (star : Bool) (t : List Char) : closeBehind star t =
    if star ∧ t.head? = some '/' then some 1 else firstClose t := by
  induction t generalizing star with
  | nil => simp [closeBehind, firstClose]
  | cons c t ih =>
    by_cases hclose : star = true ∧ c = '/'
    · simp [closeBehind, hclose]
    · rw [closeBehind, if_neg hclose, ih, firstClose]
      simp only [List.head?_cons, Option.some.injEq, if_neg hclose, decide_eq_true_eq]
      by_cases hstar : c = '*' ∧ t.head? = some '/'
      · simp [hstar]
      · simp [hstar]

theorem alignedClose_pos {star : Bool} {t : List Char} {n : Nat} (h : alignedClose star t = some n) :
    0 < n := by
  cases t with
  | nil => cases h
  | cons c t =>
    by_cases hclose : star = true ∧ c = '/'
    · simp only [alignedClose, if_pos hclose, Option.some.injEq] at h
      omega
    · simp only [alignedClose, if_neg hclose, Option.map_eq_some_iff] at h
      obtain ⟨m, -, hm⟩ := h
      omega

/-- Taking the stars in pairs finds the first `*/` just where an odd run ends in it. -/
theorem alignedClose_eq_iff (run : Nat) (t : List Char) :
    alignedClose (run % 2 = 1) t = closeBehind (0 < run) t ↔
      ∀ k, closingStars run t = some k → k % 2 = 1 := by
  induction t generalizing run with
  | nil => simp [alignedClose, closeBehind, closingStars]
  | cons c t ih =>
    by_cases hstar : c = '*'
    · subst hstar
      have hodd : (!decide (run % 2 = 1)) = decide ((run + 1) % 2 = 1) := by
        by_cases hrun : run % 2 = 1
        · simp [hrun, Nat.add_mod]
        · have hzero : run % 2 = 0 := by omega
          simp [hzero, Nat.add_mod]
      have hih := ih (run + 1)
      simp only [alignedClose, closeBehind, closingStars]
      simp only [Nat.succ_pos, decide_true] at hih
      simpa [hodd, Option.map_inj_right] using hih
    · by_cases hslash : c = '/' ∧ 0 < run
      · obtain ⟨rfl, hpos⟩ := hslash
        by_cases hrun : run % 2 = 1
        · simp [alignedClose, closeBehind, closingStars, hpos, hrun]
        · have hlate : alignedClose (decide (run % 2 = 1)) ('/' :: t) ≠ some 1 := by
            intro h
            have hback : (alignedClose false t).map (· + 1) = some 1 := by
              simpa [alignedClose, hrun] using h
            obtain ⟨m, hm, hone⟩ := Option.map_eq_some_iff.mp hback
            have := alignedClose_pos hm
            omega
          simp only [closeBehind, closingStars, hpos]
          simp [hrun]
          simpa [hrun] using hlate
      · have hne : ¬ ((decide (run % 2 = 1)) = true ∧ c = '/') := by
          intro h
          have : run % 2 = 1 := by simpa using h.1
          exact hslash ⟨h.2, by omega⟩
        have hne' : ¬ ((decide (0 < run)) = true ∧ c = '/') := by
          intro h
          exact hslash ⟨h.2, by simpa using h.1⟩
        have hih := ih 0
        simp only [alignedClose, closeBehind, closingStars, if_neg hne, if_neg hne', if_neg hstar,
          if_neg hslash]
        simpa [hstar, Option.map_inj_right] using hih

theorem alignedClose_first (t : List Char) : alignedClose false t = firstClose t ↔
    ∀ k, closingStars 0 t = some k → k % 2 = 1 := by
  have h := alignedClose_eq_iff 0 t
  rw [closeBehind_eq] at h
  simpa using h

end Closing

section Matching

theorem alignedClose_cons {c : Char} (h : c ≠ '*') (t : List Char) :
    alignedClose false (c :: t) = (alignedClose false t).map (· + 1) := by
  simp [alignedClose, h]

theorem alignedClose_close (t : List Char) : alignedClose false ('*' :: '/' :: t) = some 2 := by
  simp [alignedClose]

theorem alignedClose_pair {d : Char} (h : d ≠ '/') (t : List Char) :
    alignedClose false ('*' :: d :: t) = (alignedClose false t).map (· + 2) := by
  simp [alignedClose, h, Option.map_map, Function.comp_def]

theorem mem_inside {s : List Char} : s ∈ insidePat.lang ↔
    (∃ c, c ≠ '*' ∧ s = [c]) ∨ ∃ d, d ≠ '/' ∧ s = ['*', d] := by
  simp only [insidePat, Pattern.mem_alt, Pattern.mem_seq, Pattern.mem_sat]
  constructor
  · intro h
    rcases h with ⟨c, hc, rfl⟩ | ⟨t, ⟨b, hb, rfl⟩, u, ⟨d, hd, rfl⟩, rfl⟩
    · exact .inl ⟨c, by simpa using hc, rfl⟩
    · exact .inr ⟨d, by simpa using hd, by simpa using hb⟩
  · intro h
    rcases h with ⟨c, hc, rfl⟩ | ⟨d, hd, rfl⟩
    · exact .inl ⟨c, by simpa using hc, rfl⟩
    · exact .inr ⟨['*'], ⟨'*', by simp, rfl⟩, [d], ⟨d, by simpa using hd, rfl⟩, rfl⟩

/-- The inside of a comment, taken in pieces, reaches the `*/` behind it. -/
theorem alignedClose_of_inside {u : List Char} (h : u ∈ (Pat.star insidePat).lang) (v : List Char) :
    alignedClose false (u ++ '*' :: '/' :: v) = some (u.length + 2) := by
  induction hlen : u.length using Nat.strong_induction_on generalizing u with
  | _ len ih =>
    subst hlen
    rcases Pattern.mem_star.mp h with rfl | ⟨piece, hpiece, hne, u, hu, rfl⟩
    · simp [alignedClose_close]
    · rcases mem_inside.mp hpiece with ⟨c, hc, rfl⟩ | ⟨d, hd, rfl⟩
      · have hrest := ih u.length (by simp) hu rfl
        simp [alignedClose_cons hc, hrest]
      · have hless : u.length < (['*', d] ++ u).length := by
          rw [List.length_append]
          exact Nat.lt_add_of_pos_left (by simp)
        have hrest := ih u.length hless hu rfl
        simp [alignedClose_pair hd, hrest]

theorem inside_of_alignedClose {t : List Char} {n : Nat} (h : alignedClose false t = some n) :
    ∃ u v, t = u ++ '*' :: '/' :: v ∧ u ∈ (Pat.star insidePat).lang ∧ n = u.length + 2 := by
  induction hlen : t.length using Nat.strong_induction_on generalizing t n with
  | _ len ih =>
    subst hlen
    have grow {piece rest : List Char} {m : Nat} (hpiece : piece ∈ insidePat.lang)
        (hne : piece ≠ []) (hm : alignedClose false rest = some m)
        (ht : t = piece ++ rest) (hn : n = m + piece.length) :
        ∃ u v, t = u ++ '*' :: '/' :: v ∧ u ∈ (Pat.star insidePat).lang ∧ n = u.length + 2 := by
      have hpos : 0 < piece.length := List.length_pos_iff.mpr hne
      obtain ⟨u, v, rfl, hu, rfl⟩ := ih rest.length (by simp [ht]; omega) hm rfl
      exact ⟨piece ++ u, v, by simp [ht], Pattern.mem_star.mpr (.inr ⟨piece, hpiece, hne, u, hu, rfl⟩),
        by simp [hn]; omega⟩
    cases t with
    | nil => cases h
    | cons c t =>
      by_cases hc : c = '*'
      · subst hc
        cases t with
        | nil => simp [alignedClose] at h
        | cons d t =>
          by_cases hd : d = '/'
          · subst hd
            rw [alignedClose_close] at h
            cases h
            exact ⟨[], t, rfl, Pattern.nil_mem_star _, rfl⟩
          · rw [alignedClose_pair hd] at h
            obtain ⟨m, hm, hn⟩ := Option.map_eq_some_iff.mp h
            exact grow (mem_inside.mpr (.inr ⟨d, hd, rfl⟩)) (by simp) hm rfl hn.symm
      · rw [alignedClose_cons hc] at h
        obtain ⟨m, hm, hn⟩ := Option.map_eq_some_iff.mp h
        exact grow (mem_inside.mpr (.inl ⟨c, hc, rfl⟩)) (by simp) hm rfl hn.symm

/-- What the rule of block comments makes of a text. -/
def alignedBlock : List Char → Option Nat
  | '/' :: '*' :: t => (alignedClose false t).map (· + 2)
  | _ => none

theorem mem_block {s : List Char} : s ∈ blockPat.lang ↔
    ∃ u ∈ (Pat.star insidePat).lang, s = '/' :: '*' :: (u ++ ['*', '/']) := by
  simp only [blockPat, Pattern.mem_seq, Pattern.mem_lit]
  constructor
  · intro h
    obtain ⟨t, rfl, v, ⟨u, hu, w, rfl, rfl⟩, rfl⟩ := h
    exact ⟨u, hu, rfl⟩
  · intro h
    obtain ⟨u, hu, rfl⟩ := h
    exact ⟨_, rfl, _, ⟨u, hu, _, rfl, rfl⟩, rfl⟩

/-- The text that the rule matches is the only one, so that the longest match says no more. -/
theorem alignedBlock_of_mem {s : List Char} {n : Nat} (hn : n ≤ s.length)
    (h : s.take n ∈ blockPat.lang) : alignedBlock s = some n := by
  obtain ⟨u, hu, htake⟩ := mem_block.mp h
  have hs : s = '/' :: '*' :: (u ++ '*' :: '/' :: s.drop n) := by
    have := List.take_append_drop n s
    rw [htake] at this
    simpa using this.symm
  have hlen : n = u.length + 4 := by
    have := congrArg List.length htake
    simp at this
    omega
  rw [hs]
  simp [alignedBlock, alignedClose_of_inside hu, hlen]

theorem longest_block (s : List Char) : blockPat.longest s = alignedBlock s := by
  cases h : blockPat.longest s with
  | some n => exact (alignedBlock_of_mem (Pattern.mem_of_longest h).1 (Pattern.mem_of_longest h).2).symm
  | none =>
    cases ha : alignedBlock s with
    | none => rfl
    | some n =>
      unfold alignedBlock at ha
      split at ha
      · rename_i t
        obtain ⟨m, hm, hn⟩ := Option.map_eq_some_iff.mp ha
        obtain ⟨u, v, rfl, hu, rfl⟩ := inside_of_alignedClose hm
        have hle : u.length + 4 ≤ ('/' :: '*' :: (u ++ '*' :: '/' :: v)).length := by simp
        have htake : ('/' :: '*' :: (u ++ '*' :: '/' :: v)).take (u.length + 4) ∈ blockPat.lang :=
          mem_block.mpr ⟨u, hu, by simp [List.take_append]⟩
        obtain ⟨k, hk, -⟩ := Pattern.longest_of_mem hle htake
        rw [h] at hk
        cases hk
      · cases ha

end Matching

section Skipping

/-- What stands at a front the scan can come to, where `next` is the length of the piece it takes. -/
inductive Reached (next : List Char → Option Nat) (src : List Char) : List Char → Prop where
  | start : Reached next src src
  | step {rest : List Char} {n : Nat} : Reached next src rest → next rest = some n →
    Reached next src (rest.drop n)

def nextLength (rest : List Char) : Option Nat := (nextPiece rest).map Prod.fst

/-- The block comment that the scan skips at the front of a text. -/
def skippedBlock (rest : List Char) : Option Nat :=
  (nextPiece rest).bind fun found => if found.2 = .block then some found.1 else none

/-- The block comment that stands there: from `/*` to the first `*/` behind it. -/
def intendedBlock : List Char → Option Nat
  | '/' :: '*' :: t => (firstClose t).map (· + 2)
  | _ => none

def plainRules : List (Rule Char Act) := [⟨blankPat, .blank⟩, ⟨linePat, .line⟩] ++ tokenRules

/-- A block comment as it is meant, or the longest match of the other rules. -/
def intendedLength (rest : List Char) : Option Nat :=
  match intendedBlock rest with
  | some n => some n
  | none => (pieceOf plainRules rest).map Prod.fst

/-- Wherever the scan of a text comes to, it skips just the block comment that stands there. -/
def SkipsBlocks (src : List Char) : Prop :=
  ∀ rest, Reached nextLength src rest → skippedBlock rest = intendedBlock rest

/-- An odd run of stars ends in the first `*/` behind every `/*` that opens a comment. -/
def OddRuns (src : List Char) : Prop :=
  ∀ rest, Reached intendedLength src rest → ∀ t, rest = '/' :: '*' :: t →
    ∀ k, closingStars 0 t = some k → k % 2 = 1

theorem rules_eq : rules = [⟨blankPat, .blank⟩, ⟨linePat, .line⟩] ++ ⟨blockPat, .block⟩ :: tokenRules :=
  rfl

theorem plain_dead : plainRules.all (fun rule =>
    (['/', '*'].foldl (fun r a => r.deriv a) rule.pat).dead) = true := by decide

/-- The piece is of the kind that a rule makes of its match. -/
def Act.gives : Act → Piece → Bool
  | .blank, .blank => true
  | .line, .line => true
  | .block, .block => true
  | .token _, .token _ => true
  | _, _ => false

theorem plain_not_block : plainRules.all (fun rule => !rule.act.gives .block) = true := rfl

theorem pieceOf_some {rs : List (Rule Char Act)} {s : List Char} {n : Nat} {piece : Piece}
    (h : pieceOf rs s = some (n, piece)) : n ≤ s.length ∧ ∃ rule ∈ rs,
      rule.pat.longest s = some n ∧ rule.act.gives piece = true := by
  cases hb : best rs s with
  | none => simp [pieceOf, hb] at h
  | some found =>
    obtain ⟨m, act⟩ := found
    have hfound : m = n ∧ act.gives piece = true := by
      cases act with
      | blank =>
        simp only [pieceOf, hb, Option.some.injEq, Prod.mk.injEq] at h
        simp [h.1, ← h.2, Act.gives]
      | line =>
        simp only [pieceOf, hb, Option.some.injEq, Prod.mk.injEq] at h
        simp [h.1, ← h.2, Act.gives]
      | block =>
        simp only [pieceOf, hb, Option.some.injEq, Prod.mk.injEq] at h
        simp [h.1, ← h.2, Act.gives]
      | token read =>
        simp only [pieceOf, hb, Option.map_eq_some_iff, Prod.mk.injEq] at h
        obtain ⟨tok, -, hm, hp⟩ := h
        simp [hm, ← hp, Act.gives]
    obtain ⟨rule, hmem, hlong, hact⟩ := Pattern.best_mem hb
    obtain ⟨rfl, hgives⟩ := hfound
    exact ⟨Pattern.best_le hb, rule, hmem, hlong, by rw [hact]; exact hgives⟩

/-- Behind `/*` the other rules match at most the `/`. -/
theorem plain_short {rule : Rule Char Act} (h : rule ∈ plainRules) {t : List Char} {m : Nat}
    (hm : rule.pat.longest ('/' :: '*' :: t) = some m) : m < 2 :=
  Pattern.longest_lt_of_dead (List.all_eq_true.mp plain_dead rule h) hm

theorem nextPiece_block {s : List Char} {n : Nat} (h : alignedBlock s = some n) :
    nextPiece s = some (n, .block) := by
  have hlong : blockPat.longest s = some n := (longest_block s).trans h
  have hrule : (⟨blockPat, .block⟩ : Rule Char Act) ∈ rules := by simp [rules_eq]
  have hbest : best rules s = some (n, .block) := by
    refine Pattern.best_eq hrule hlong ?_
    intro other hother
    by_cases hblock : other = ⟨blockPat, .block⟩
    · exact .inl hblock
    · have hplain : other ∈ plainRules := by
        simp only [rules_eq, List.mem_append, List.mem_cons, hblock, false_or] at hother
        simpa [plainRules, or_assoc] using hother
      refine .inr fun m hm => ?_
      unfold alignedBlock at h
      split at h
      · obtain ⟨k, -, hn⟩ := Option.map_eq_some_iff.mp h
        have := plain_short hplain hm
        omega
      · cases h
  simp [nextPiece, pieceOf, hbest]

theorem nextPiece_plain {s : List Char} (h : alignedBlock s = none) :
    nextPiece s = pieceOf plainRules s := by
  have hlong : blockPat.longest s = none := (longest_block s).trans h
  rw [nextPiece, pieceOf, pieceOf, rules_eq, Pattern.best_without hlong]
  rfl

theorem pieceOf_plain {s : List Char} {n : Nat} : pieceOf plainRules s ≠ some (n, .block) := by
  intro h
  obtain ⟨-, rule, hmem, -, hgives⟩ := pieceOf_some h
  have hno := List.all_eq_true.mp plain_not_block rule hmem
  simp [hgives] at hno

theorem skippedBlock_eq (s : List Char) : skippedBlock s = alignedBlock s := by
  cases h : alignedBlock s with
  | some n => simp [skippedBlock, nextPiece_block h]
  | none =>
    cases hp : nextPiece s with
    | none => simp [skippedBlock, hp]
    | some found =>
      have hne : found.2 ≠ .block := by
        intro heq
        rw [nextPiece_plain h] at hp
        exact pieceOf_plain (hp.trans (by rw [← heq]))
      simp [skippedBlock, hp, hne]

example : skippedBlock "/* **/ */".toList = some 9 := by decide

/-- The scan and the scan as it is meant go on alike where the block comments are skipped right. -/
theorem nextLength_eq {s : List Char} (h : skippedBlock s = intendedBlock s) :
    nextLength s = intendedLength s := by
  rw [skippedBlock_eq] at h
  cases ha : alignedBlock s with
  | some n => simp [nextLength, nextPiece_block ha, intendedLength, ← h, ha]
  | none => simp [nextLength, nextPiece_plain ha, intendedLength, ← h, ha]

/-- At one place the right comment is skipped just where the run of stars is odd. -/
theorem skipped_iff (s : List Char) : skippedBlock s = intendedBlock s ↔
    ∀ t, s = '/' :: '*' :: t → ∀ k, closingStars 0 t = some k → k % 2 = 1 := by
  rw [skippedBlock_eq]
  by_cases hopen : ∃ t, s = '/' :: '*' :: t
  · obtain ⟨t, rfl⟩ := hopen
    have hfirst := alignedClose_first t
    simp only [alignedBlock, intendedBlock, List.cons.injEq, true_and, forall_eq', ← hfirst]
    exact Option.map_inj_right fun a b h => by simpa using h
  · have hno : ∀ t, s ≠ '/' :: '*' :: t := fun t h => hopen ⟨t, h⟩
    have ha : alignedBlock s = none := by
      unfold alignedBlock
      split
      · rename_i t
        exact absurd rfl (hno t)
      · rfl
    have hi : intendedBlock s = none := by
      unfold intendedBlock
      split
      · rename_i t
        exact absurd rfl (hno t)
      · rfl
    simp [ha, hi, hno]

theorem skipsBlocks_iff (src : List Char) : SkipsBlocks src ↔ OddRuns src := by
  constructor
  · intro h
    -- what the intended scan comes to the scan comes to as well
    have hreach (rest : List Char) (hr : Reached intendedLength src rest) :
        Reached nextLength src rest := by
      induction hr with
      | start => exact .start
      | step _ hnext ih => exact .step ih ((nextLength_eq (h _ ih)).trans hnext)
    exact fun rest hr => (skipped_iff rest).mp (h rest (hreach rest hr))
  · intro h
    have hreach (rest : List Char) (hr : Reached nextLength src rest) :
        Reached intendedLength src rest := by
      induction hr with
      | start => exact .start
      | @step rest n _ hnext ih =>
        exact .step ih ((nextLength_eq ((skipped_iff rest).mpr (h rest ih))).symm.trans hnext)
    exact fun rest hr => (skipped_iff rest).mpr (h rest (hreach rest hr))

end Skipping

end BetLang.Lexer
