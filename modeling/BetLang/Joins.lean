import Mathlib.Data.List.Basic
import Mathlib.Data.List.Infix

/-! Words put together with a separator between them. Words that hold no separator can be told
apart again; so can words of several parts, one of which is a number that tells what stands before
it. -/

namespace BetLang.Joins

variable {α : Type}

def joined (sep : α) (words : List (List α)) : List α := [sep].intercalate words

section Splitting

variable {sep : α}

@[simp] theorem joined_nil : joined sep [] = [] := rfl

@[simp] theorem joined_singleton (w : List α) : joined sep [w] = w := List.intercalate_singleton

theorem joined_cons {words : List (List α)} (w : List α) (h : words ≠ []) :
    joined sep (w :: words) = w ++ sep :: joined sep words := by
  rw [joined, List.intercalate_cons_of_ne_nil h]
  simp [joined]

theorem joined_append {words words' : List (List α)} (h : words ≠ []) (h' : words' ≠ []) :
    joined sep (words ++ words') = joined sep words ++ sep :: joined sep words' := by
  induction words with
  | nil => exact absurd rfl h
  | cons w words ih =>
    by_cases hw : words = []
    · subst hw
      rw [List.singleton_append, joined_cons w h', joined_singleton]
    · rw [List.cons_append, joined_cons w (by simp [hw]), ih hw, joined_cons w hw]
      simp

/-- Joining joined lists is joining what they hold. -/
theorem joined_flatten {lists : List (List (List α))} (h : ∀ words ∈ lists, words ≠ []) :
    joined sep (lists.map (joined sep)) = joined sep lists.flatten := by
  induction lists with
  | nil => rfl
  | cons words lists ih =>
    have hrest := ih fun w hw => h w (by simp [hw])
    have hwords : words ≠ [] := h words (by simp)
    by_cases hlists : lists = []
    · simp [hlists]
    · have hflat : lists.flatten ≠ [] := by
        obtain ⟨w, lists', rfl⟩ := List.exists_cons_of_ne_nil hlists
        simp [h w (by simp)]
      rw [List.map_cons, joined_cons _ (by simpa using hlists), hrest, List.flatten_cons,
        joined_append hwords hflat]

/-- Words with a separator behind each. -/
def ahead (sep : α) (words : List (List α)) : List α := (words.map (· ++ [sep])).flatten

@[simp] theorem ahead_nil : ahead sep [] = [] := rfl

theorem ahead_eq {words : List (List α)} (h : words ≠ []) :
    ahead sep words = joined sep words ++ [sep] := by
  induction words with
  | nil => exact absurd rfl h
  | cons w words ih =>
    by_cases hw : words = []
    · subst hw
      simp [ahead]
    · have hrest := ih hw
      simp only [ahead, List.map_cons, List.flatten_cons] at hrest ⊢
      rw [hrest, joined_cons w hw]
      simp

theorem joined_snoc (words : List (List α)) (w : List α) :
    joined sep (words ++ [w]) = ahead sep words ++ w := by
  by_cases h : words = []
  · simp [h]
  · rw [joined_append h (by simp), ahead_eq h]
    simp

/-- The last separator of a text tells it apart. -/
theorem split_last {a a' w w' : List α} (hw : sep ∉ w) (hw' : sep ∉ w')
    (h : a ++ sep :: w = a' ++ sep :: w') : a = a' ∧ w = w' := by
  rcases List.append_eq_append_iff.mp h with ⟨x, hx, hx'⟩ | ⟨x, hx, hx'⟩
  · cases x with
    | nil =>
      rw [List.nil_append, List.cons.injEq] at hx'
      exact ⟨by simp [hx], hx'.2⟩
    | cons b x =>
      rw [List.cons_append, List.cons.injEq] at hx'
      exact absurd (by simp [hx'.2]) hw
  · cases x with
    | nil =>
      rw [List.nil_append, List.cons.injEq] at hx'
      exact ⟨by simp [hx], hx'.2.symm⟩
    | cons b x =>
      rw [List.cons_append, List.cons.injEq] at hx'
      exact absurd (by simp [hx'.2]) hw'

theorem ahead_split {words words' : List (List α)} {w w' : List α} (hw : sep ∉ w) (hw' : sep ∉ w')
    (h : ahead sep words ++ w = ahead sep words' ++ w') :
    joined sep words = joined sep words' ∧ w = w' := by
  by_cases hwords : words = []
  · by_cases hwords' : words' = []
    · simpa [hwords, hwords'] using h
    · rw [hwords, ahead_eq hwords'] at h
      refine absurd ?_ hw
      simp only [ahead_nil, List.nil_append] at h
      simp [h]
  · by_cases hwords' : words' = []
    · rw [hwords', ahead_eq hwords] at h
      refine absurd ?_ hw'
      simp only [ahead_nil, List.nil_append] at h
      simp [← h]
    · rw [ahead_eq hwords, ahead_eq hwords'] at h
      exact split_last hw hw' (by simpa using h)

end Splitting

/-- A word without a separator, or one of three parts behind a `lead`, whose number tells its
stem. -/
inductive Piece (α : Type) where
  | plain (w : List α)
  | numbered (lead num name : List α)

section Pieces

variable (sep : α) (digit : α → Bool) (stem : List α → List α)

def Piece.text : Piece α → List α
  | .plain w => w
  | .numbered lead num name => lead ++ (stem num ++ sep :: (num ++ sep :: name))

/-- Only the stem may hold separators, and only the number is a number. -/
def Piece.Fine : Piece α → Prop
  | .plain w => sep ∉ w ∧ ∃ a ∈ w, digit a = false
  | .numbered lead num name => sep ∉ lead ∧ sep ∉ name ∧ (∀ a ∈ num, digit a = true) ∧
      ∃ a ∈ name, digit a = false

variable {sep digit stem}

theorem digits_no_sep (hsep : digit sep = false) {num : List α}
    (hnum : ∀ c ∈ num, digit c = true) : sep ∉ num := by
  intro hmem
  rw [hnum sep hmem] at hsep
  cases hsep

theorem text_ne_nil {p : Piece α} (h : p.Fine sep digit) : p.text sep stem ≠ [] := by
  cases p with
  | plain w =>
    obtain ⟨-, a, ha, -⟩ := h
    exact List.ne_nil_of_mem ha
  | numbered lead num name => simp [Piece.text]

/-- The words stop at no number, so that a number before the last part belongs to the last word. -/
theorem no_number_last {pieces : List (Piece α)} (hsep : digit sep = false)
    (hfine : ∀ p ∈ pieces, p.Fine sep digit) {a num : List α} (hnum : ∀ c ∈ num, digit c = true) :
    joined sep (pieces.map (Piece.text sep stem)) ≠ a ++ sep :: num := by
  intro h
  have hno := digits_no_sep hsep hnum
  rcases List.eq_nil_or_concat pieces with rfl | ⟨before, p, rfl⟩
  · simp at h
  · rw [List.concat_eq_append, List.map_append, List.map_singleton, joined_snoc] at h
    have hp : p.Fine sep digit := hfine p (by simp)
    cases p with
    | plain w =>
      obtain ⟨hw, c, hc, hdigit⟩ := hp
      by_cases hbefore : before = []
      · have hmem : sep ∈ w := by
          simp only [hbefore, List.map_nil, ahead_nil, List.nil_append, Piece.text] at h
          simp [h]
        exact hw hmem
      · rw [ahead_eq (by simpa using hbefore), List.append_assoc] at h
        have hsame := (split_last hw hno h).2
        rw [hnum c (hsame ▸ hc)] at hdigit
        cases hdigit
    | numbered lead n name =>
      obtain ⟨-, hname, -, c, hc, hdigit⟩ := hp
      have hback : (ahead sep (before.map (Piece.text sep stem)) ++ lead ++ stem n ++ sep :: n) ++
          sep :: name = a ++ sep :: num := by
        simpa [Piece.text] using h
      have hsame := (split_last hname hno hback).2
      rw [hnum c (hsame ▸ hc)] at hdigit
      cases hdigit

/-- A word without a separator does not end a text as a numbered one does. -/
theorem plain_ne_numbered {before : List (Piece α)} (hsep : digit sep = false)
    (hbefore : ∀ p ∈ before, p.Fine sep digit) {w : List α} (hw : sep ∉ w) {front num name : List α}
    (hnum : ∀ c ∈ num, digit c = true) (hname : sep ∉ name) :
    ahead sep (before.map (Piece.text sep stem)) ++ w ≠
      front ++ sep :: (num ++ sep :: name) := by
  intro h
  by_cases hempty : before = []
  · simp only [hempty, List.map_nil, ahead_nil, List.nil_append] at h
    exact hw (by simp [h])
  · rw [ahead_eq (by simpa using hempty)] at h
    have hback : joined sep (before.map (Piece.text sep stem)) ++ sep :: w =
        (front ++ sep :: num) ++ sep :: name := by
      simpa using h
    exact no_number_last hsep hbefore hnum (split_last hw hname hback).1

/-- Words of these forms are told apart again. -/
theorem joined_injective (hsep : digit sep = false) {pieces pieces' : List (Piece α)}
    (hfine : ∀ p ∈ pieces, p.Fine sep digit) (hfine' : ∀ p ∈ pieces', p.Fine sep digit)
    (h : joined sep (pieces.map (Piece.text sep stem)) =
      joined sep (pieces'.map (Piece.text sep stem))) : pieces = pieces' := by
  induction pieces using List.reverseRecOn generalizing pieces' with
  | nil =>
    rcases List.eq_nil_or_concat pieces' with rfl | ⟨before', p', rfl⟩
    · rfl
    · have hp' : p'.Fine sep digit := hfine' p' (by simp)
      rw [List.concat_eq_append, List.map_append, List.map_singleton, joined_snoc] at h
      have : p'.text sep stem ≠ [] := text_ne_nil hp'
      simp_all
  | append_singleton before p ih =>
    have hp : p.Fine sep digit := hfine p (by simp)
    have hbefore : ∀ q ∈ before, q.Fine sep digit := fun q hq => hfine q (by simp [hq])
    rw [List.map_append, List.map_singleton, joined_snoc] at h
    rcases List.eq_nil_or_concat pieces' with rfl | ⟨before', p', rfl⟩
    · have : p.text sep stem ≠ [] := text_ne_nil hp
      simp_all
    · have hp' : p'.Fine sep digit := hfine' p' (by simp)
      have hbefore' : ∀ q ∈ before', q.Fine sep digit := fun q hq => hfine' q (by simp [hq])
      rw [List.concat_eq_append] at *
      rw [List.map_append, List.map_singleton, joined_snoc] at h
      cases p with
      | plain w =>
        cases p' with
        | plain w' =>
          obtain ⟨hjoined, hw⟩ := ahead_split hp.1 hp'.1 h
          rw [ih hbefore hbefore' hjoined, hw]
        | numbered lead' num' name' =>
          have hclash : ahead sep (before.map (Piece.text sep stem)) ++ w =
              (ahead sep (before'.map (Piece.text sep stem)) ++ lead' ++ stem num') ++
                sep :: (num' ++ sep :: name') := by
            simpa [Piece.text] using h
          exact absurd hclash (plain_ne_numbered hsep hbefore hp.1 hp'.2.2.1 hp'.2.1)
      | numbered lead num name =>
        cases p' with
        | plain w' =>
          have hclash : ahead sep (before'.map (Piece.text sep stem)) ++ w' =
              (ahead sep (before.map (Piece.text sep stem)) ++ lead ++ stem num) ++
                sep :: (num ++ sep :: name) := by
            simpa [Piece.text] using h.symm
          exact absurd hclash (plain_ne_numbered hsep hbefore' hp'.1 hp.2.2.1 hp.2.1)
        | numbered lead' num' name' =>
          have hlast : (ahead sep (before.map (Piece.text sep stem)) ++ lead ++ stem num ++
              sep :: num) ++ sep :: name = (ahead sep (before'.map (Piece.text sep stem)) ++
              lead' ++ stem num' ++ sep :: num') ++ sep :: name' := by
            simpa [Piece.text] using h
          obtain ⟨hrest, hname⟩ := split_last hp.2.1 hp'.2.1 hlast
          obtain ⟨hfront, hnum⟩ := split_last (digits_no_sep hsep hp.2.2.1)
            (digits_no_sep hsep hp'.2.2.1) hrest
          rw [hnum] at hfront
          obtain ⟨hjoined, hlead⟩ := ahead_split hp.1 hp'.1 (List.append_cancel_right hfront)
          rw [ih hbefore hbefore' hjoined, hlead, hnum, hname]

end Pieces

end BetLang.Joins
