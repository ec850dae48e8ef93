import Mathlib.Data.List.TakeWhile

/-! Trees written one node on a line, each level further in, can be read back. -/

namespace BetLang.Outline

inductive Branch (α : Type) where
  | node (label : α) (children : List (Branch α))

variable {α : Type}

section Lines

mutual

/-- The nodes with their depths, a parent before its children. -/
def Branch.lines (d : Nat) : Branch α → List (Nat × α)
  | .node a ts => (d, a) :: forestLines (d + 1) ts

def forestLines (d : Nat) : List (Branch α) → List (Nat × α)
  | [] => []
  | t :: ts => t.lines d ++ forestLines d ts

end

@[simp] theorem lines_node (d : Nat) (a : α) (ts : List (Branch α)) :
    (Branch.node a ts).lines d = (d, a) :: forestLines (d + 1) ts := by rw [Branch.lines]

@[simp] theorem forestLines_nil (d : Nat) : forestLines d ([] : List (Branch α)) = [] := by
  rw [forestLines]

@[simp] theorem forestLines_cons (d : Nat) (t : Branch α) (ts : List (Branch α)) :
    forestLines d (t :: ts) = t.lines d ++ forestLines d ts := by rw [forestLines]

@[simp] theorem forestLines_append (d : Nat) (ts us : List (Branch α)) :
    forestLines d (ts ++ us) = forestLines d ts ++ forestLines d us := by
  induction ts with
  | nil => simp
  | cons t ts ih => simp [ih]

theorem forestLines_deep (n : Nat) : ∀ (d : Nat) (ts : List (Branch α)),
    (forestLines d ts).length ≤ n → ∀ l ∈ forestLines d ts, d ≤ l.1 := by
  induction n with
  | zero =>
    intro d ts hn l hl
    rw [List.length_eq_zero_iff.mp (Nat.le_zero.mp hn)] at hl
    cases hl
  | succ n ih =>
    intro d ts hn l hl
    cases ts with
    | nil => simp at hl
    | cons t ts =>
      obtain ⟨a, us⟩ := t
      simp only [forestLines_cons, lines_node, List.length_append, List.length_cons] at hn
      simp only [forestLines_cons, lines_node, List.mem_append, List.mem_cons] at hl
      rcases hl with (rfl | hl) | hl
      · exact Nat.le_refl d
      · exact Nat.le_of_succ_le (ih (d + 1) us (by omega) l hl)
      · exact ih d ts (by omega) l hl

/-- What is further in than the next tree of the forest belongs to the first. -/
theorem forestLines_split {d : Nat} (us vs : List (Branch α)) :
    (forestLines (d + 1) us ++ forestLines d vs).takeWhile (fun l => d < l.1) =
      forestLines (d + 1) us := by
  have hdeep : ∀ l ∈ forestLines (d + 1) us, d < l.1 := fun l hl =>
    forestLines_deep _ (d + 1) us (Nat.le_refl _) l hl
  rw [List.takeWhile_append_of_pos (by simpa using hdeep)]
  cases vs with
  | nil => simp
  | cons v vs =>
    obtain ⟨a, ws⟩ := v
    simp

theorem forestLines_injective_aux (n : Nat) : ∀ (d : Nat) (ts ts' : List (Branch α)),
    (forestLines d ts).length ≤ n → forestLines d ts = forestLines d ts' → ts = ts' := by
  induction n with
  | zero =>
    intro d ts ts' hn h
    have hnil := List.length_eq_zero_iff.mp (Nat.le_zero.mp hn)
    have empty (us : List (Branch α)) (hus : forestLines d us = []) : us = [] := by
      cases us with
      | nil => rfl
      | cons u us =>
        obtain ⟨a, ws⟩ := u
        simp at hus
    rw [empty ts hnil, empty ts' (h ▸ hnil)]
  | succ n ih =>
    intro d ts ts' hn h
    cases ts with
    | nil =>
      cases ts' with
      | nil => rfl
      | cons t' ts' =>
        obtain ⟨a', us'⟩ := t'
        simp at h
    | cons t ts =>
      obtain ⟨a, us⟩ := t
      cases ts' with
      | nil => simp at h
      | cons t' ts' =>
        obtain ⟨a', us'⟩ := t'
        simp only [forestLines_cons, lines_node, List.cons_append, List.length_cons,
          List.length_append] at hn
        simp only [forestLines_cons, lines_node, List.cons_append, List.cons.injEq,
          Prod.mk.injEq, true_and] at h
        have hfirst := congrArg (List.takeWhile fun l => d < l.1) h.2
        rw [forestLines_split, forestLines_split] at hfirst
        have hrest := h.2
        rw [hfirst] at hrest
        have hus := ih (d + 1) us us' (by omega) hfirst
        have hts := ih d ts ts' (by omega) (List.append_cancel_left hrest)
        rw [h.1, hus, hts]

theorem forestLines_injective {d : Nat} {ts ts' : List (Branch α)}
    (h : forestLines d ts = forestLines d ts') : ts = ts' :=
  forestLines_injective_aux _ d ts ts' (Nat.le_refl _) h

end Lines

section Text

variable (word : α → List Char)

/-- One line of the text: two blanks for each level, the label, and the end of the line. -/
def lineText (l : Nat × α) : List Char :=
  (List.replicate l.1 [' ', ' ']).flatten ++ (word l.2 ++ ['\n'])

def text (ls : List (Nat × α)) : List Char := ls.flatMap (lineText word)

/-- A label on one line that does not start as an indentation does. -/
def Visible (s : List Char) : Prop := '\n' ∉ s ∧ ∃ c, s.head? = some c ∧ c ≠ ' '

variable {word}

theorem indent_cancel {d d' : Nat} {s s' : List Char} (hs : ∃ c, s.head? = some c ∧ c ≠ ' ')
    (hs' : ∃ c, s'.head? = some c ∧ c ≠ ' ')
    (h : (List.replicate d [' ', ' ']).flatten ++ s =
      (List.replicate d' [' ', ' ']).flatten ++ s') : d = d' ∧ s = s' := by
  induction d generalizing d' with
  | zero =>
    cases d' with
    | zero => exact ⟨rfl, by simpa using h⟩
    | succ d' =>
      obtain ⟨c, hc, hne⟩ := hs
      have hs0 : s = ' ' :: ' ' :: ((List.replicate d' [' ', ' ']).flatten ++ s') := by
        simpa [List.replicate_succ] using h
      rw [hs0] at hc
      exact absurd (Option.some.inj hc).symm hne
  | succ d ih =>
    cases d' with
    | zero =>
      obtain ⟨c, hc, hne⟩ := hs'
      have hs0 : ' ' :: ' ' :: ((List.replicate d [' ', ' ']).flatten ++ s) = s' := by
        simpa [List.replicate_succ] using h
      rw [← hs0] at hc
      exact absurd (Option.some.inj hc).symm hne
    | succ d' =>
      have hcut : (List.replicate d [' ', ' ']).flatten ++ s =
          (List.replicate d' [' ', ' ']).flatten ++ s' := by
        simpa [List.replicate_succ] using h
      have hrest := ih hcut
      exact ⟨congrArg (· + 1) hrest.1, hrest.2⟩

/-- Nothing, or what the mark `x` starts. -/
def Marked (x : Char) (r : List Char) : Prop := r = [] ∨ ∃ q, r = x :: q

theorem takeWhile_mark {x : Char} {w r : List Char} (hw : x ∉ w) (hr : Marked x r) :
    (w ++ r).takeWhile (fun c => c != x) = w := by
  rw [List.takeWhile_append_of_pos]
  · rcases hr with rfl | ⟨q, rfl⟩ <;> simp
  · intro c hc
    simp only [bne_iff_ne, ne_eq]
    exact fun heq => hw (heq ▸ hc)

/-- Texts without the mark are found before it. -/
theorem mark_cancel {x : Char} {w w' r r' : List Char} (hw : x ∉ w) (hw' : x ∉ w')
    (hr : Marked x r) (hr' : Marked x r') (h : w ++ r = w' ++ r') : w = w' ∧ r = r' := by
  have hfirst := congrArg (List.takeWhile fun c => c != x) h
  rw [takeWhile_mark hw hr, takeWhile_mark hw' hr'] at hfirst
  subst hfirst
  exact ⟨rfl, List.append_cancel_left h⟩

theorem text_injective (hvis : ∀ a, Visible (word a)) (hinj : Function.Injective word)
    {ls ls' : List (Nat × α)} (h : text word ls = text word ls') : ls = ls' := by
  induction ls generalizing ls' with
  | nil =>
    cases ls' with
    | nil => rfl
    | cons l' ls' => simp [text, lineText] at h
  | cons l ls ih =>
    cases ls' with
    | nil => simp [text, lineText] at h
    | cons l' ls' =>
      obtain ⟨d, a⟩ := l
      obtain ⟨d', a'⟩ := l'
      simp only [text, lineText, List.flatMap_cons, List.append_assoc, List.singleton_append] at h
      have shown (b : α) (r : List Char) : ∃ c, (word b ++ '\n' :: r).head? = some c ∧ c ≠ ' ' := by
        obtain ⟨-, c, hc, hne⟩ := hvis b
        exact ⟨c, by rw [List.head?_append, hc]; rfl, hne⟩
      have hcut := indent_cancel (shown a _) (shown a' _) h
      have hline := mark_cancel (hvis a).1 (hvis a').1 (.inr ⟨_, rfl⟩) (.inr ⟨_, rfl⟩) hcut.2
      rw [hcut.1, hinj hline.1, ih (List.cons.inj hline.2).2]

end Text

/-- A forest is found in its text. -/
theorem forest_text_injective {word : α → List Char} (hvis : ∀ a, Visible (word a))
    (hinj : Function.Injective word) {d : Nat} {ts ts' : List (Branch α)}
    (h : text word (forestLines d ts) = text word (forestLines d ts')) : ts = ts' :=
  forestLines_injective (text_injective hvis hinj h)

end BetLang.Outline
