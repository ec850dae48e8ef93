import Mathlib.Computability.Language

/-! Regular expressions over classes of letters, their derivatives, and lexing by the longest
match. -/

namespace BetLang.Pattern

open Computability

inductive Pat (α : Type) where
  | none
  | eps
  | sat (p : α → Bool)
  | seq (r q : Pat α)
  | alt (r q : Pat α)
  | star (r : Pat α)

variable {α β : Type}

namespace Pat

def lang : Pat α → Language α
  | none => 0
  | eps => 1
  | sat p => {s | ∃ a, p a = true ∧ s = [a]}
  | seq r q => r.lang * q.lang
  | alt r q => r.lang + q.lang
  | star r => r.lang∗

def plus (r : Pat α) : Pat α := seq r (star r)

def opt (r : Pat α) : Pat α := alt r eps

def lit [BEq α] : List α → Pat α
  | [] => eps
  | a :: s => seq (sat (· == a)) (lit s)

def nullable : Pat α → Bool
  | none => false
  | eps => true
  | sat _ => false
  | seq r q => r.nullable && q.nullable
  | alt r q => r.nullable || q.nullable
  | star _ => true

/-- Matches `s` where the expression matches `a :: s`. -/
def deriv (a : α) : Pat α → Pat α
  | none => none
  | eps => none
  | sat p => if p a then eps else none
  | seq r q => if r.nullable then alt (seq (r.deriv a) q) (q.deriv a) else seq (r.deriv a) q
  | alt r q => alt (r.deriv a) (q.deriv a)
  | star r => seq (r.deriv a) (star r)

/-- The length of the longest part at the front that matches. -/
def longest (r : Pat α) : List α → Option Nat
  | [] => if r.nullable then some 0 else Option.none
  | a :: s =>
    match (r.deriv a).longest s with
    | some n => some (n + 1)
    | Option.none => if r.nullable then some 0 else Option.none

/-- Nothing matches, as far as the form of the expression tells. -/
def dead : Pat α → Bool
  | none => true
  | seq r q => r.dead || q.dead
  | alt r q => r.dead && q.dead
  | _ => false

end Pat

section Matching

open Pat

@[simp] theorem mem_none (s : List α) : s ∉ (Pat.none : Pat α).lang := id

@[simp] theorem mem_eps {s : List α} : s ∈ (Pat.eps : Pat α).lang ↔ s = [] := Iff.rfl

@[simp] theorem mem_sat {p : α → Bool} {s : List α} :
    s ∈ (Pat.sat p).lang ↔ ∃ a, p a = true ∧ s = [a] := Iff.rfl

theorem mem_seq {r q : Pat α} {s : List α} :
    s ∈ (Pat.seq r q).lang ↔ ∃ t ∈ r.lang, ∃ u ∈ q.lang, t ++ u = s := Language.mem_mul

@[simp] theorem mem_alt {r q : Pat α} {s : List α} :
    s ∈ (Pat.alt r q).lang ↔ s ∈ r.lang ∨ s ∈ q.lang := Iff.rfl

theorem nil_mem_star (r : Pat α) : [] ∈ (Pat.star r).lang := Language.nil_mem_kstar _

theorem mem_star {r : Pat α} {s : List α} :
    s ∈ (Pat.star r).lang ↔ s = [] ∨ ∃ t ∈ r.lang, t ≠ [] ∧ ∃ u ∈ (Pat.star r).lang, t ++ u = s := by
  have hone (s : List α) : s ∈ (Pat.star r).lang ↔
      ∃ parts : List (List α), s = parts.flatten ∧ ∀ t ∈ parts, t ∈ r.lang ∧ t ≠ [] :=
    Language.mem_kstar_iff_exists_nonempty
  constructor
  · intro h
    obtain ⟨parts, rfl, hparts⟩ := (hone s).mp h
    cases parts with
    | nil => exact .inl rfl
    | cons t parts =>
      have ht := hparts t (by simp)
      have hrest : parts.flatten ∈ (Pat.star r).lang :=
        (hone _).mpr ⟨parts, rfl, fun u hu => hparts u (by simp [hu])⟩
      exact .inr ⟨t, ht.1, ht.2, parts.flatten, hrest, by simp⟩
  · intro h
    rcases h with rfl | ⟨t, ht, hne, u, hu, rfl⟩
    · exact nil_mem_star r
    · obtain ⟨parts, rfl, hparts⟩ := (hone u).mp hu
      exact (hone _).mpr ⟨t :: parts, by simp, by simpa [ht, hne] using hparts⟩

theorem mem_star_sat {p : α → Bool} {s : List α} :
    s ∈ (Pat.star (Pat.sat p)).lang ↔ ∀ a ∈ s, p a = true := by
  induction s with
  | nil => simp [nil_mem_star]
  | cons a s ih =>
    rw [mem_star]
    constructor
    · intro h
      rcases h with h | ⟨t, ⟨b, hb, rfl⟩, -, u, hu, htu⟩
      · cases h
      · simp only [List.cons_append, List.nil_append, List.cons.injEq] at htu
        obtain ⟨rfl, rfl⟩ := htu
        simpa [hb] using ih.mp hu
    · intro h
      have hs : s ∈ (Pat.star (Pat.sat p)).lang := ih.mpr (fun b hb => h b (by simp [hb]))
      exact .inr ⟨[a], ⟨a, h a (by simp), rfl⟩, by simp, s, hs, rfl⟩

theorem mem_lit [BEq α] [LawfulBEq α] {w s : List α} : s ∈ (Pat.lit w).lang ↔ s = w := by
  induction w generalizing s with
  | nil => exact mem_eps
  | cons a w ih =>
    simp only [lit, mem_seq, mem_sat]
    constructor
    · intro h
      obtain ⟨t, ⟨b, hb, rfl⟩, u, hu, rfl⟩ := h
      simp [ih.mp hu, eq_of_beq hb]
    · intro h
      exact ⟨[a], ⟨a, by simp, rfl⟩, w, ih.mpr rfl, by simp [h]⟩

theorem nullable_iff (r : Pat α) : r.nullable = true ↔ [] ∈ r.lang := by
  induction r with
  | none => simp [nullable]
  | eps => simp [nullable]
  | sat p => simp [nullable]
  | seq r q ihr ihq => simp [nullable, mem_seq, ihr, ihq]
  | alt r q ihr ihq => simp [nullable, ihr, ihq]
  | star r => simp [nullable, nil_mem_star]

theorem mem_deriv (a : α) (r : Pat α) (s : List α) : s ∈ (r.deriv a).lang ↔ a :: s ∈ r.lang := by
  induction r generalizing s with
  | none => simp [Pat.deriv]
  | eps => simp [Pat.deriv]
  | sat p =>
    by_cases hp : p a = true
    · simp [Pat.deriv, hp]
    · simp only [Pat.deriv, hp, mem_sat]
      simp [hp]
  | alt r q ihr ihq => simp [Pat.deriv, ihr, ihq]
  | seq r q ihr ihq =>
    -- a word that starts with `a` splits before the `a` or behind it
    have hsplit : a :: s ∈ (Pat.seq r q).lang ↔
        ([] ∈ r.lang ∧ a :: s ∈ q.lang) ∨ ∃ t, a :: t ∈ r.lang ∧ ∃ u ∈ q.lang, t ++ u = s := by
      rw [mem_seq]
      constructor
      · intro h
        obtain ⟨t, ht, u, hu, htu⟩ := h
        cases t with
        | nil =>
          have hus : u = a :: s := htu
          exact .inl ⟨ht, hus ▸ hu⟩
        | cons b t =>
          simp only [List.cons_append, List.cons.injEq] at htu
          obtain ⟨rfl, rfl⟩ := htu
          exact .inr ⟨t, ht, u, hu, rfl⟩
      · intro h
        rcases h with ⟨hr, hq⟩ | ⟨t, ht, u, hu, rfl⟩
        · exact ⟨[], hr, a :: s, hq, rfl⟩
        · exact ⟨a :: t, ht, u, hu, rfl⟩
    rw [hsplit]
    by_cases hr : r.nullable = true
    · have hnil := (nullable_iff r).mp hr
      simp only [Pat.deriv, hr, if_true, mem_alt, mem_seq, ihr, ihq, hnil, true_and]
      exact Or.comm
    · have hnil : [] ∉ r.lang := fun h => hr ((nullable_iff r).mpr h)
      simp only [Pat.deriv, hr, hnil, false_and, false_or]
      simp [mem_seq, ihr]
  | star r ih =>
    have hstep : a :: s ∈ (Pat.star r).lang ↔
        ∃ t, a :: t ∈ r.lang ∧ ∃ u ∈ (Pat.star r).lang, t ++ u = s := by
      rw [mem_star]
      constructor
      · intro h
        rcases h with h | ⟨t, ht, hne, u, hu, htu⟩
        · cases h
        · obtain ⟨b, t, rfl⟩ := List.exists_cons_of_ne_nil hne
          simp only [List.cons_append, List.cons.injEq] at htu
          obtain ⟨rfl, rfl⟩ := htu
          exact ⟨t, ht, u, hu, rfl⟩
      · intro h
        obtain ⟨t, ht, u, hu, rfl⟩ := h
        exact .inr ⟨a :: t, ht, by simp, u, hu, rfl⟩
    rw [hstep]
    simp only [Pat.deriv, mem_seq, ih]

end Matching

section Longest

open Pat

theorem mem_of_longest {r : Pat α} {s : List α} {n : Nat} (h : r.longest s = some n) :
    n ≤ s.length ∧ s.take n ∈ r.lang := by
  induction s generalizing r n with
  | nil =>
    by_cases hr : r.nullable = true
    · simp only [longest, hr, if_true, Option.some.injEq] at h
      simpa [← h] using (nullable_iff r).mp hr
    · simp [longest, hr] at h
  | cons a s ih =>
    cases hd : (r.deriv a).longest s with
    | some m =>
      have hm := ih hd
      simp only [longest, hd, Option.some.injEq] at h
      subst h
      exact ⟨by simpa using hm.1, by simpa using (mem_deriv a r _).mp hm.2⟩
    | none =>
      by_cases hr : r.nullable = true
      · simp only [longest, hd, hr, if_true, Option.some.injEq] at h
        simpa [← h] using (nullable_iff r).mp hr
      · simp [longest, hd, hr] at h

/-- A part that matches is not longer than the longest. -/
theorem longest_of_mem {r : Pat α} {s : List α} {n : Nat} (hn : n ≤ s.length)
    (h : s.take n ∈ r.lang) : ∃ m, r.longest s = some m ∧ n ≤ m := by
  induction s generalizing r n with
  | nil =>
    have hzero : n = 0 := by simpa using hn
    have hr : r.nullable = true := (nullable_iff r).mpr (by simpa using h)
    exact ⟨0, by simp [longest, hr], by omega⟩
  | cons a s ih =>
    cases n with
    | zero =>
      have hr : r.nullable = true := (nullable_iff r).mpr (by simpa using h)
      cases hd : (r.deriv a).longest s with
      | some m => exact ⟨m + 1, by simp [longest, hd], by omega⟩
      | none => exact ⟨0, by simp [longest, hd, hr], by omega⟩
    | succ n =>
      have hmem : s.take n ∈ (r.deriv a).lang := (mem_deriv a r _).mpr (by simpa using h)
      obtain ⟨m, hm, hle⟩ := ih (by simpa using hn) hmem
      exact ⟨m + 1, by simp [longest, hm], by omega⟩

theorem longest_eq_some {r : Pat α} {s : List α} {n : Nat} (hn : n ≤ s.length)
    (h : s.take n ∈ r.lang) (hmax : ∀ m ≤ s.length, s.take m ∈ r.lang → m ≤ n) :
    r.longest s = some n := by
  obtain ⟨m, hm, hle⟩ := longest_of_mem hn h
  have hback := hmax m (mem_of_longest hm).1 (mem_of_longest hm).2
  rw [hm, le_antisymm hback hle]

theorem dead_lang {r : Pat α} (h : r.dead = true) (s : List α) : s ∉ r.lang := by
  induction r generalizing s with
  | none => exact mem_none s
  | eps => simp [dead] at h
  | sat p => simp [dead] at h
  | star r => simp [dead] at h
  | alt r q ihr ihq =>
    simp only [dead, Bool.and_eq_true] at h
    simp [ihr h.1, ihq h.2]
  | seq r q ihr ihq =>
    simp only [dead, Bool.or_eq_true] at h
    simp only [mem_seq, not_exists, not_and]
    intro t ht u hu
    rcases h with h | h
    · exact absurd ht (ihr h t)
    · exact absurd hu (ihq h u)

/-- What an expression that is dead behind `w` matches at the front of `w ++ s` is shorter
than `w`. -/
theorem longest_lt_of_dead {r : Pat α} {w s : List α} (h : (w.foldl (fun r a => r.deriv a) r).dead)
    {n : Nat} (hn : r.longest (w ++ s) = some n) : n < w.length := by
  by_contra hge
  obtain ⟨hlen, hmem⟩ := mem_of_longest hn
  have hfold (w t : List α) (r : Pat α) :
      w ++ t ∈ r.lang → t ∈ (w.foldl (fun r a => r.deriv a) r).lang := by
    induction w generalizing r with
    | nil => exact id
    | cons a w ih => exact fun h => ih (r.deriv a) ((mem_deriv a r _).mpr h)
  have hsplit : (w ++ s).take n = w ++ s.take (n - w.length) := by
    rw [List.take_append, List.take_of_length_le (by omega)]
  exact dead_lang h _ (hfold w _ r (hsplit ▸ hmem))

end Longest

/-- An expression and what becomes of the text that it matches. -/
structure Rule (α β : Type) where
  pat : Pat α
  act : β

/-- The longest match of a list of rules; of several that are as long, the first. -/
def best : List (Rule α β) → List α → Option (Nat × β)
  | [], _ => none
  | rule :: rules, s =>
    match rule.pat.longest s, best rules s with
    | some n, some (m, act) => if m ≤ n then some (n, rule.act) else some (m, act)
    | some n, none => some (n, rule.act)
    | none, found => found

section Rules

variable {rules : List (Rule α β)} {s : List α}

theorem best_cons (rule : Rule α β) (rules : List (Rule α β)) (s : List α) :
    best (rule :: rules) s = best rules s ∧ (∀ n, rule.pat.longest s = some n →
      ∃ m act, best rules s = some (m, act) ∧ n < m) ∨
    ∃ n, rule.pat.longest s = some n ∧ best (rule :: rules) s = some (n, rule.act) ∧
      ∀ m act, best rules s = some (m, act) → m ≤ n := by
  cases hl : rule.pat.longest s with
  | none => exact .inl ⟨by simp [best, hl], by simp⟩
  | some n =>
    cases hb : best rules s with
    | none => exact .inr ⟨n, rfl, by simp [best, hl, hb], by simp⟩
    | some found =>
      by_cases hle : found.1 ≤ n
      · refine .inr ⟨n, rfl, by simp [best, hl, hb, hle], ?_⟩
        intro m act h
        cases h
        exact hle
      · refine .inl ⟨by simp [best, hl, hb, hle], ?_⟩
        intro k hk
        exact ⟨found.1, found.2, rfl, by simp at hk; omega⟩

theorem best_mem {n : Nat} {act : β} (h : best rules s = some (n, act)) :
    ∃ rule ∈ rules, rule.pat.longest s = some n ∧ rule.act = act := by
  induction rules with
  | nil => cases h
  | cons rule rules ih =>
    rcases best_cons rule rules s with ⟨heq, -⟩ | ⟨m, hm, heq, -⟩
    · obtain ⟨found, hmem, hf⟩ := ih (heq ▸ h)
      exact ⟨found, by simp [hmem], hf⟩
    · rw [heq] at h
      cases h
      exact ⟨rule, by simp, hm, rfl⟩

theorem longest_le_best {rule : Rule α β} (hrule : rule ∈ rules) {n : Nat}
    (h : rule.pat.longest s = some n) : ∃ m act, best rules s = some (m, act) ∧ n ≤ m := by
  induction rules with
  | nil => cases hrule
  | cons first rules ih =>
    rcases best_cons first rules s with ⟨heq, hlt⟩ | ⟨m, hm, heq, hle⟩
    · rw [heq]
      rcases List.mem_cons.mp hrule with rfl | hmem
      · obtain ⟨m, act, hb, hnm⟩ := hlt n h
        exact ⟨m, act, hb, hnm.le⟩
      · exact ih hmem
    · refine ⟨m, first.act, heq, ?_⟩
      rcases List.mem_cons.mp hrule with rfl | hmem
      · rw [hm] at h
        cases h
        exact le_rfl
      · obtain ⟨k, act, hk, hnk⟩ := ih hmem
        exact hnk.trans (hle k act hk)

/-- A rule whose match is longer than those of all the others is the one that is taken. -/
theorem best_eq {rule : Rule α β} (hrule : rule ∈ rules) {n : Nat}
    (h : rule.pat.longest s = some n)
    (hother : ∀ other ∈ rules, other = rule ∨ ∀ m, other.pat.longest s = some m → m < n) :
    best rules s = some (n, rule.act) := by
  obtain ⟨m, act, hb, hle⟩ := longest_le_best hrule h
  obtain ⟨found, hmem, hfound, hact⟩ := best_mem hb
  rcases hother found hmem with rfl | hlt
  · rw [hfound] at h
    cases h
    rw [hb, hact]
  · have := hlt m hfound
    omega

theorem best_le {n : Nat} {act : β} (h : best rules s = some (n, act)) : n ≤ s.length := by
  obtain ⟨rule, -, hl, -⟩ := best_mem h
  exact (mem_of_longest hl).1

/-- A rule that does not match could as well be left out. -/
theorem best_without {before after : List (Rule α β)} {rule : Rule α β}
    (h : rule.pat.longest s = none) : best (before ++ rule :: after) s = best (before ++ after) s := by
  induction before with
  | nil => simp [best, h]
  | cons first before ih =>
    simp only [List.cons_append]
    rw [best, best, ih]

end Rules

section Prefixes

variable {α β : Type} {r : Pat α} {w s : List α}

theorem longest_none (h : ∀ m ≤ s.length, s.take m ∉ r.lang) : r.longest s = none := by
  cases hl : r.longest s with
  | none => rfl
  | some n =>
    obtain ⟨hn, hmem⟩ := mem_of_longest hl
    exact absurd hmem (h n hn)

/-- What is behind a text makes no longer match of it. -/
theorem longest_append (h : ∀ m, w.length < m → m ≤ (w ++ s).length → (w ++ s).take m ∉ r.lang) :
    r.longest (w ++ s) = r.longest w := by
  have hshort {n : Nat} (hn : r.longest (w ++ s) = some n) : n ≤ w.length := by
    by_contra hlong
    obtain ⟨hlen, hmem⟩ := mem_of_longest hn
    exact h n (by omega) hlen hmem
  cases hw : r.longest w with
  | some m =>
    obtain ⟨hm, hmem⟩ := mem_of_longest hw
    have hmem' : (w ++ s).take m ∈ r.lang := by rwa [List.take_append_of_le_length hm]
    obtain ⟨n, hn, hle⟩ := longest_of_mem (by simp; omega) hmem'
    have hback := (mem_of_longest hn).2
    rw [List.take_append_of_le_length (hshort hn)] at hback
    obtain ⟨k, hk, hnk⟩ := longest_of_mem (hshort hn) hback
    rw [hw] at hk
    cases hk
    rw [hn, le_antisymm hnk hle]
  | none =>
    cases hn : r.longest (w ++ s) with
    | none => rfl
    | some n =>
      have hmem := (mem_of_longest hn).2
      rw [List.take_append_of_le_length (hshort hn)] at hmem
      obtain ⟨k, hk, -⟩ := longest_of_mem (hshort hn) hmem
      rw [hw] at hk
      cases hk

theorem mem_fold_deriv {t : List α} (h : w ++ t ∈ r.lang) :
    t ∈ (w.foldl (fun r a => r.deriv a) r).lang := by
  induction w generalizing r with
  | nil => exact h
  | cons a w ih => exact ih ((mem_deriv a r _).mpr h)

/-- Nothing goes on behind `w` with what `s` starts with. -/
theorem longest_append_of_dead
    (h : ∀ a, s.head? = some a → ((w.foldl (fun r a => r.deriv a) r).deriv a).dead = true) :
    r.longest (w ++ s) = r.longest w := by
  refine longest_append fun m hm hlen hmem => ?_
  cases s with
  | nil => simp at hlen; omega
  | cons a s =>
    obtain ⟨k, hk⟩ : ∃ k, m - w.length = k + 1 := ⟨m - w.length - 1, by omega⟩
    rw [List.take_append, List.take_of_length_le (by omega), hk, List.take_succ_cons] at hmem
    exact dead_lang (h a rfl) _ ((mem_deriv a _ _).mpr (mem_fold_deriv hmem))

theorem best_congr {rules : List (Rule α β)} {s s' : List α}
    (h : ∀ rule ∈ rules, rule.pat.longest s = rule.pat.longest s') : best rules s = best rules s' := by
  induction rules with
  | nil => rfl
  | cons rule rules ih =>
    obtain ⟨hrule, hrules⟩ := List.forall_mem_cons.mp h
    rw [best, best, hrule, ih hrules]

theorem best_none {rules : List (Rule α β)} (h : ∀ rule ∈ rules, rule.pat.longest s = none) :
    best rules s = none := by
  induction rules with
  | nil => rfl
  | cons rule rules ih =>
    obtain ⟨hrule, hrules⟩ := List.forall_mem_cons.mp h
    rw [best, hrule, ih hrules]

/-- Rules that do not match could as well be left out. -/
theorem best_between {before rules after : List (Rule α β)}
    (hbefore : ∀ rule ∈ before, rule.pat.longest s = none)
    (hafter : ∀ rule ∈ after, rule.pat.longest s = none) :
    best (before ++ (rules ++ after)) s = best rules s := by
  induction before with
  | nil =>
    induction rules with
    | nil => exact best_none hafter
    | cons rule rules ih =>
      simp only [List.nil_append] at ih
      rw [List.nil_append, List.cons_append, best, best, ih]
  | cons rule before ih =>
    obtain ⟨hrule, hrules⟩ := List.forall_mem_cons.mp hbefore
    rw [List.cons_append, best, hrule, ih hrules]

/-- A run of letters of one kind ends where the kind ends. -/
theorem run_unique {p : α → Bool} {t x y : List α} (ht : ∀ a ∈ t, p a = true) (hw : ∀ a ∈ w, p a = true)
    (hx : ∀ a, x.head? = some a → p a = false) (hy : ∀ a, y.head? = some a → p a = false)
    (h : t ++ x = w ++ y) : t = w ∧ x = y := by
  have hrun {u v : List α} (hu : ∀ a ∈ u, p a = true) (hv : ∀ a, v.head? = some a → p a = false) :
      (u ++ v).takeWhile p = u := by
    rw [List.takeWhile_append_of_pos hu]
    cases v with
    | nil => simp
    | cons a v => simp [hv a rfl]
  have hsame : t = w := by rw [← hrun ht hx, h, hrun hw hy]
  subst hsame
  exact ⟨rfl, List.append_cancel_left h⟩

end Prefixes

section Runs

variable {p : α → Bool} {r q : Pat α} {d u s : List α}

theorem run_le {t y : List α} (ht : ∀ a ∈ t, p a = true) (hu : ∀ a, u.head? = some a → p a = false)
    (h : d ++ u = t ++ y) : t.length ≤ d.length := by
  rcases List.append_eq_append_iff.mp h with ⟨v, rfl, rfl⟩ | ⟨v, rfl, rfl⟩
  · cases v with
    | nil => simp
    | cons a v =>
      have hp := ht a (by simp)
      rw [hu a rfl] at hp
      cases hp
  · simp

/-- Behind a run that stops, the rest of the expression decides. -/
theorem longest_seq_run (hr : ∀ s ∈ r.lang, ∀ a ∈ s, p a = true) (hd : d ∈ r.lang)
    (hu : ∀ a, u.head? = some a → p a = false) (hq : ∀ a s, a :: s ∈ q.lang → p a = false) :
    (Pat.seq r q).longest (d ++ u) = (q.longest u).map (d.length + ·) := by
  have hback {m : Nat} (hm : m ≤ (d ++ u).length) (hmem : (d ++ u).take m ∈ (Pat.seq r q).lang) :
      ∃ k ≤ u.length, u.take k ∈ q.lang ∧ m ≤ d.length + k := by
    obtain ⟨t, ht, x, hx, htx⟩ := mem_seq.mp hmem
    have hsplit : d ++ u = t ++ (x ++ (d ++ u).drop m) := by
      rw [← List.append_assoc, htx, List.take_append_drop]
    have hlen : m = t.length + x.length := by
      rw [← List.length_append, htx, List.length_take, Nat.min_eq_left hm]
    cases x with
    | nil =>
      have := run_le (hr t ht) hu hsplit
      exact ⟨0, by simp, by simpa using hx, by simp at hlen; omega⟩
    | cons a x =>
      have ha : ∀ b, (a :: x ++ (d ++ u).drop m).head? = some b → p b = false := by
        rintro b ⟨⟩
        exact hq a x hx
      obtain ⟨rfl, hux⟩ := run_unique (hr d hd) (hr t ht) hu ha hsplit
      have htake : u.take (a :: x).length = a :: x := by
        rw [hux]
        exact List.take_left
      refine ⟨(a :: x).length, ?_, by rwa [htake], by omega⟩
      rw [hux, List.length_append]
      omega
  cases hl : q.longest u with
  | none =>
    refine longest_none fun m hm hmem => ?_
    obtain ⟨k, hk, hmemk, -⟩ := hback hm hmem
    obtain ⟨n, hn, -⟩ := longest_of_mem hk hmemk
    rw [hl] at hn
    cases hn
  | some n =>
    obtain ⟨hn, hmemn⟩ := mem_of_longest hl
    rw [Option.map_some]
    refine longest_eq_some (by simp; omega) ?_ fun m hm hmem => ?_
    · rw [List.take_append, List.take_of_length_le (by omega), Nat.add_sub_cancel_left]
      exact mem_seq.mpr ⟨d, hd, _, hmemn, rfl⟩
    · obtain ⟨k, hk, hmemk, hle⟩ := hback hm hmem
      obtain ⟨n', hn', hkn⟩ := longest_of_mem hk hmemk
      rw [hl] at hn'
      cases hn'
      omega

theorem longest_congr {r q : Pat α} {s : List α}
    (h : ∀ m ≤ s.length, s.take m ∈ r.lang ↔ s.take m ∈ q.lang) : r.longest s = q.longest s := by
  cases hl : q.longest s with
  | none =>
    refine longest_none fun m hm hmem => ?_
    obtain ⟨n, hn, -⟩ := longest_of_mem hm ((h m hm).mp hmem)
    rw [hl] at hn
    cases hn
  | some n =>
    obtain ⟨hn, hmem⟩ := mem_of_longest hl
    refine longest_eq_some hn ((h n hn).mpr hmem) fun m hm hmemm => ?_
    obtain ⟨n', hn', hle⟩ := longest_of_mem hm ((h m hm).mp hmemm)
    rw [hl] at hn'
    cases hn'
    exact hle

theorem mem_seq_sat {a : α} {s : List α} :
    a :: s ∈ (Pat.seq (.sat p) q).lang ↔ p a = true ∧ s ∈ q.lang := by
  rw [mem_seq]
  constructor
  · rintro ⟨t, ⟨b, hb, rfl⟩, u, hu, h⟩
    simp only [List.cons_append, List.nil_append, List.cons.injEq] at h
    obtain ⟨rfl, rfl⟩ := h
    exact ⟨hb, hu⟩
  · exact fun h => ⟨[a], ⟨a, h.1, rfl⟩, s, h.2, rfl⟩

theorem longest_sat (p : α → Bool) (q : Pat α) (a : α) (s : List α) :
    (Pat.seq (.sat p) q).longest (a :: s) = if p a then (q.longest s).map (· + 1) else none := by
  have hnull : (Pat.seq (.sat p) q).nullable = false := rfl
  have hderiv (m : Nat) : s.take m ∈ ((Pat.seq (.sat p) q).deriv a).lang ↔ p a = true ∧ s.take m ∈ q.lang := by
    rw [mem_deriv, mem_seq_sat]
  rw [Pat.longest, hnull]
  by_cases hp : p a = true
  · rw [if_pos hp, longest_congr fun m _ => (hderiv m).trans (and_iff_right hp)]
    cases q.longest s <;> rfl
  · rw [if_neg hp, longest_none fun m _ hmem => hp ((hderiv m).mp hmem).1]
    rfl

/-- A sign before a run, or none. -/
theorem longest_opt (hq : ∀ b t, b :: t ∈ q.lang → p b = false) (hnil : [] ∉ q.lang) (a : α) (s : List α) :
    (Pat.seq (.opt (.sat p)) q).longest (a :: s) =
      if p a then (q.longest s).map (· + 1) else q.longest (a :: s) := by
  have hopt (t : List α) : t ∈ (Pat.seq (.opt (.sat p)) q).lang ↔
      t ∈ (Pat.seq (.sat p) q).lang ∨ t ∈ q.lang := by
    simp only [Pat.opt, mem_seq, mem_alt, mem_eps]
    constructor
    · rintro ⟨x, hx | rfl, u, hu, rfl⟩
      · exact .inl ⟨x, hx, u, hu, rfl⟩
      · exact .inr hu
    · rintro (⟨x, hx, u, hu, rfl⟩ | h)
      · exact ⟨x, .inl hx, u, hu, rfl⟩
      · exact ⟨[], .inr rfl, t, h, rfl⟩
  have hnone : [] ∉ (Pat.seq (.sat p) q).lang := by
    rw [mem_seq]
    rintro ⟨x, ⟨b, hb, rfl⟩, u, hu, h⟩
    cases h
  by_cases hp : p a = true
  · rw [if_pos hp]
    have hsat := longest_sat p q a s
    rw [if_pos hp] at hsat
    rw [← hsat]
    refine longest_congr fun m _ => (hopt _).trans ⟨fun h => h.resolve_right fun hmem => ?_, .inl⟩
    cases m with
    | zero => exact hnil hmem
    | succ m =>
      rw [List.take_succ_cons] at hmem
      rw [hq a _ hmem] at hp
      cases hp
  · rw [if_neg hp]
    refine longest_congr fun m _ => (hopt _).trans ⟨fun h => h.resolve_left fun hmem => ?_, .inr⟩
    cases m with
    | zero => exact hnone hmem
    | succ m =>
      rw [List.take_succ_cons] at hmem
      exact hp (mem_seq_sat.mp hmem).1

theorem longest_optional (r : Pat α) (s : List α) :
    (Pat.opt r).longest s = some ((r.longest s).getD 0) := by
  have hnil {m : Nat} (hm : m ≤ s.length) (h : s.take m = []) : m = 0 := by
    have := congrArg List.length h
    rw [List.length_take, Nat.min_eq_left hm] at this
    exact this
  cases hl : r.longest s with
  | none =>
    refine longest_eq_some (Nat.zero_le _) (.inr rfl) fun m hm hmem => ?_
    rcases hmem with h | h
    · obtain ⟨n, hn, -⟩ := longest_of_mem hm h
      rw [hl] at hn
      cases hn
    · exact (hnil hm h).le
  | some n =>
    obtain ⟨hn, hmemn⟩ := mem_of_longest hl
    refine longest_eq_some hn (.inl hmemn) fun m hm hmem => ?_
    rcases hmem with h | h
    · obtain ⟨k, hk, hle⟩ := longest_of_mem hm h
      rw [hl] at hk
      cases hk
      exact hle
    · rw [hnil hm h]
      exact Nat.zero_le _

end Runs

end BetLang.Pattern
