import BetLang.Dominance
import BetLang.Dominators
import Mathlib.Data.Finset.Card
import Mathlib.Data.Finset.Prod
import Mathlib.Order.Interval.Finset.Nat

/-! The dominator iteration ends, and what it computes are the dominators from the entry and from
every block without predecessors. -/

namespace BetLang.Validate

open Dominance Ir

def Leads (f : Func) (i j : Nat) : Prop :=
  ∃ block, f.blocks[i]? = some block ∧ j ∈ successors block.term

section Iteration

variable {n entry : Nat} {preds : Nat → List Nat}

/-- The rows still have whatever their equations give. -/
def Above (n entry : Nat) (preds : Nat → List Nat) (dom : DomMatrix) : Prop :=
  ∀ b < n, b ≠ entry → ∀ a, newRow preds dom b a = true → dom b a = true

def Below (dom dom' : DomMatrix) : Prop := ∀ b a, dom b a = true → dom' b a = true

theorem newRow_mono {dom dom' : DomMatrix} (h : Below dom dom') {b a : Nat}
    (hr : newRow preds dom b a = true) : newRow preds dom' b a = true := by
  simp only [newRow, Bool.or_eq_true, Bool.and_eq_true, List.all_eq_true] at hr ⊢
  rcases hr with hr | ⟨hne, hall⟩
  · exact .inl hr
  · exact .inr ⟨hne, fun p hp => h p a (hall p hp)⟩

theorem startMatrix_above (n entry : Nat) (preds : Nat → List Nat) :
    Above n entry preds (startMatrix entry) := by
  intro b _ hne a _
  rw [startMatrix, if_neg hne]

/-- Row `b` is replaced by what its equation gives, which is less. -/
theorem setRow_below {dom : DomMatrix} (h : Above n entry preds dom) {b : Nat} (hb : b < n)
    (hne : b ≠ entry) : Below (setRow dom b (newRow preds dom b)) dom := by
  intro b' a hr
  by_cases hb' : b' = b
  · subst hb'
    rw [setRow, if_pos rfl] at hr
    exact h b' hb hne a hr
  · rwa [setRow, if_neg hb'] at hr

theorem setRow_above {dom : DomMatrix} (h : Above n entry preds dom) {b : Nat} (hb : b < n)
    (hne : b ≠ entry) : Above n entry preds (setRow dom b (newRow preds dom b)) := by
  intro b' hb' hne' a hr
  have hold := newRow_mono (setRow_below h hb hne) hr
  by_cases heq : b' = b
  · subst heq
    rwa [setRow, if_pos rfl]
  · rw [setRow, if_neg heq]
    exact h b' hb' hne' a hold

/-- The places of the matrix that are set. -/
def marks (n : Nat) (dom : DomMatrix) : Finset (Nat × Nat) :=
  (Finset.range n ×ˢ Finset.range n).filter fun p => dom p.1 p.2 = true

theorem mem_marks {dom : DomMatrix} {b a : Nat} :
    (b, a) ∈ marks n dom ↔ (b < n ∧ a < n) ∧ dom b a = true := by
  rw [marks, Finset.mem_filter, Finset.mem_product, Finset.mem_range, Finset.mem_range]

theorem marks_subset {dom dom' : DomMatrix} (h : Below dom dom') :
    marks n dom ⊆ marks n dom' := by
  rintro ⟨b, a⟩ hmem
  rw [mem_marks] at hmem ⊢
  exact ⟨hmem.1, h b a hmem.2⟩

/-- A row that is new has fewer places set. -/
theorem marks_setRow {dom : DomMatrix} (h : Above n entry preds dom) {b : Nat} (hb : b < n)
    (hne : b ≠ entry) (hnew : ¬rowEq n (newRow preds dom b) (dom b) = true) :
    (marks n (setRow dom b (newRow preds dom b))).card < (marks n dom).card := by
  have hsub := marks_subset (n := n) (setRow_below h hb hne)
  refine Finset.card_lt_card (Finset.ssubset_iff_subset_ne.mpr ⟨hsub, fun heq => hnew ?_⟩)
  rw [rowEq, List.all_eq_true]
  intro a ha
  rw [List.mem_range] at ha
  rw [decide_eq_true_iff]
  cases hd : dom b a with
  | false =>
    cases hr : newRow preds dom b a with
    | false => rfl
    | true => exact absurd (h b hb hne a hr) (by simp [hd])
  | true =>
    have hmem : (b, a) ∈ marks n dom := mem_marks.mpr ⟨⟨hb, ha⟩, hd⟩
    rw [← heq, mem_marks, setRow, if_pos rfl] at hmem
    exact hmem.2

/-- A sweep keeps the rows above their equations, and a change leaves fewer places set. -/
structure Shrinks (n entry : Nat) (preds : Nat → List Nat) (s s' : DomMatrix × Bool) : Prop where
  above : Above n entry preds s'.1
  below : Below s'.1 s.1
  fewer : s'.2 = true → s.2 = true ∨ (marks n s'.1).card < (marks n s.1).card

theorem sweepRow_shrinks {s : DomMatrix × Bool} (h : Above n entry preds s.1) {b : Nat}
    (hb : b < n) : Shrinks n entry preds s (sweepRow n entry preds s b) := by
  rw [sweepRow]
  split
  · exact ⟨h, fun _ _ hd => hd, .inl⟩
  · rename_i hne
    split
    · exact ⟨h, fun _ _ hd => hd, .inl⟩
    · rename_i hnew
      exact ⟨setRow_above h hb hne, setRow_below h hb hne,
        fun _ => .inr (marks_setRow h hb hne hnew)⟩

theorem fold_shrinks {bs : List Nat} (hbs : ∀ b ∈ bs, b < n) {s : DomMatrix × Bool}
    (h : Above n entry preds s.1) :
    Shrinks n entry preds s (bs.foldl (sweepRow n entry preds) s) := by
  induction bs generalizing s with
  | nil => exact ⟨h, fun _ _ hd => hd, .inl⟩
  | cons b bs ih =>
    have hrow := sweepRow_shrinks h (hbs b List.mem_cons_self)
    have hrest := ih (fun b' hb' => hbs b' (List.mem_cons_of_mem _ hb')) hrow.above
    rw [List.foldl_cons]
    refine ⟨hrest.above, fun b' a hd => hrow.below b' a (hrest.below b' a hd), fun hchanged => ?_⟩
    rcases hrest.fewer hchanged with hchanged | hlt
    · rcases hrow.fewer hchanged with hchanged | hlt
      · exact .inl hchanged
      · exact .inr (Nat.lt_of_le_of_lt (Finset.card_le_card (marks_subset hrest.below)) hlt)
    · exact .inr (Nat.lt_of_lt_of_le hlt (Finset.card_le_card (marks_subset hrow.below)))

theorem sweep_shrinks {dom : DomMatrix} (h : Above n entry preds dom) :
    Shrinks n entry preds (dom, false) (sweep n entry preds dom) :=
  fold_shrinks (fun _ hb => List.mem_range.mp hb) h

theorem sweeps_succ (n entry : Nat) (preds : Nat → List Nat) (fuel : Nat) (dom : DomMatrix) :
    sweeps n entry preds (fuel + 1) dom =
      if (sweep n entry preds dom).2 then sweeps n entry preds fuel (sweep n entry preds dom).1
      else some (sweep n entry preds dom).1 := rfl

/-- As many sweeps as there are places set, and one more. -/
theorem sweeps_end {fuel : Nat} {dom : DomMatrix} (h : Above n entry preds dom)
    (hfuel : (marks n dom).card < fuel) : ∃ dom', sweeps n entry preds fuel dom = some dom' := by
  induction fuel generalizing dom with
  | zero => omega
  | succ fuel ih =>
    have hsweep := sweep_shrinks h
    rw [sweeps_succ]
    by_cases hchanged : (sweep n entry preds dom).2 = true
    · have hlt : (marks n (sweep n entry preds dom).1).card < (marks n dom).card := by
        rcases hsweep.fewer hchanged with hfalse | hlt
        · cases hfalse
        · exact hlt
      rw [if_pos hchanged]
      exact ih hsweep.above (by omega)
    · rw [if_neg hchanged]
      exact ⟨_, rfl⟩

theorem computeDominators_ends (n entry : Nat) (preds : Nat → List Nat) :
    ∃ fuel dom, computeDominators fuel n entry preds = some dom := by
  obtain ⟨dom, hdom⟩ := sweeps_end (startMatrix_above n entry preds) (Nat.lt_succ_self _)
  exact ⟨_, dom, hdom⟩

end Iteration

section Paths

variable {f : Func}

/-- The blocks whose rows start out without a predecessor. -/
def iterationRoots (f : Func) : Set Nat :=
  {r | r = f.entry ∨ (r < f.blocks.length ∧ computePreds f r = [])}

/-- The rows have all dominators. -/
def Covers (f : Func) (dom : DomMatrix) : Prop :=
  ∀ b < f.blocks.length, ∀ a, Dominates (Leads f) (iterationRoots f) a b → dom b a = true

theorem newRow_covers {dom : DomMatrix} (h : Covers f dom) {b a : Nat} (hb : b < f.blocks.length)
    (ha : Dominates (Leads f) (iterationRoots f) a b) :
    newRow (computePreds f) dom b a = true := by
  rw [newRow, Bool.or_eq_true, decide_eq_true_iff]
  by_cases hpreds : computePreds f b = []
  · exact .inl (ha.root (.inr ⟨hb, hpreds⟩))
  · by_cases hab : a = b
    · exact .inl hab
    · refine .inr ?_
      rw [Bool.and_eq_true, List.all_eq_true]
      refine ⟨by simpa using hpreds, fun p hp => ?_⟩
      have hedge := mem_computePreds.mp hp
      obtain ⟨block, hblock, -⟩ := id hedge
      rcases ha.pred hedge with heq | hpred
      · exact absurd heq hab
      · exact h p (List.getElem?_eq_some_iff.mp hblock).1 a hpred

theorem startMatrix_covers (f : Func) : Covers f (startMatrix f.entry) := by
  intro b _ a ha
  rw [startMatrix]
  split
  · rename_i hb
    exact decide_eq_true (hb ▸ ha.root (.inl hb))
  · rfl

theorem sweepRow_covers {s : DomMatrix × Bool} (h : Covers f s.1) (b : Nat) :
    Covers f (sweepRow f.blocks.length f.entry (computePreds f) s b).1 := by
  rw [sweepRow]
  split
  · exact h
  · split
    · exact h
    · intro b' hb' a ha
      show setRow s.1 b (newRow (computePreds f) s.1 b) b' a = true
      by_cases heq : b' = b
      · subst heq
        rw [setRow, if_pos rfl]
        exact newRow_covers h hb' ha
      · rw [setRow, if_neg heq]
        exact h b' hb' a ha

theorem fold_covers {bs : List Nat} {s : DomMatrix × Bool} (h : Covers f s.1) :
    Covers f (bs.foldl (sweepRow f.blocks.length f.entry (computePreds f)) s).1 := by
  induction bs generalizing s with
  | nil => exact h
  | cons b bs ih => exact ih (sweepRow_covers h b)

theorem sweeps_covers {fuel : Nat} {dom dom' : DomMatrix} (h : Covers f dom)
    (hs : sweeps f.blocks.length f.entry (computePreds f) fuel dom = some dom') :
    Covers f dom' := by
  induction fuel generalizing dom with
  | zero => cases hs
  | succ fuel ih =>
    have hsweep : Covers f (sweep f.blocks.length f.entry (computePreds f) dom).1 := fold_covers h
    rw [sweeps_succ] at hs
    split at hs
    · exact ih hsweep hs
    · cases hs
      exact hsweep

/-- The iteration computes the dominators from its roots. -/
theorem computeDominators_iff {fuel : Nat} {dom : DomMatrix}
    (hdom : computeDominators fuel f.blocks.length f.entry (computePreds f) = some dom)
    {b a : Nat} (hb : b < f.blocks.length) (ha : a < f.blocks.length) :
    dom b a = true ↔ Dominates (Leads f) (iterationRoots f) a b := by
  have hclosed := computeDominators_closed hdom
  constructor
  · intro hd
    refine dominates_of_closed
      (fun b a => b < f.blocks.length ∧ a < f.blocks.length ∧ dom b a = true) ?_ ?_ ⟨hb, ha, hd⟩
    · rintro r (rfl | ⟨hr, hpreds⟩) a ⟨-, ha, hra⟩
      · exact hclosed.root a hra
      · by_cases hentry : r = f.entry
        · rw [hentry] at hra ⊢
          exact hclosed.root a hra
        · rw [hclosed.row r hr hentry a ha, newRow, hpreds] at hra
          simpa using hra
    · rintro b c a - hedge ⟨hc, ha, hca⟩
      obtain ⟨block, hblock, -⟩ := id hedge
      have hb := (List.getElem?_eq_some_iff.mp hblock).1
      exact (hclosed.pred hc ha (mem_computePreds.mpr hedge) hca).imp id fun hba => ⟨hb, ha, hba⟩
  · exact sweeps_covers (startMatrix_covers f) hdom b hb a

/-- The dominators of every block that is reachable from the entry. -/
def EntryDominators (f : Func) (dom : DomMatrix) : Prop :=
  ∀ b < f.blocks.length, Reachable (Leads f) {f.entry} b → ∀ a < f.blocks.length,
    (dom b a = true ↔ Dominates (Leads f) {f.entry} a b)

/-- No other block without predecessors leads to a reachable one past the entry. -/
def NoSideEntry (f : Func) : Prop :=
  ∀ r < f.blocks.length, r ≠ f.entry → computePreds f r = [] →
    ∀ b < f.blocks.length, Reachable (Leads f) {f.entry} b → Dominates (Leads f) {r} f.entry b

/-- Dominance from the entry is what the iteration computes where no other block without
predecessors leads past the entry. -/
theorem dominators_iff {fuel : Nat} (hentry : f.entry < f.blocks.length) {dom : DomMatrix}
    (hdom : computeDominators fuel f.blocks.length f.entry (computePreds f) = some dom) :
    EntryDominators f dom ↔ NoSideEntry f := by
  constructor
  · intro h r hr hne hpreds b hb hreach
    have hd := (h b hb hreach f.entry hentry).mpr (root_dominates f.entry b)
    have hall := (computeDominators_iff hdom hb hentry).mp hd
    exact hall.mono (Set.singleton_subset_iff.mpr (.inr ⟨hr, hpreds⟩))
  · intro h b hb hreach a ha
    rw [computeDominators_iff hdom hb ha]
    refine dominates_iff_of_through (Set.singleton_subset_iff.mpr (.inl rfl)) fun vs hvs => ?_
    refine ⟨f.entry, rfl, ?_⟩
    obtain ⟨r, hr, hwalk⟩ := hvs.start
    rcases hr with rfl | ⟨hr, hpreds⟩
    · exact root_dominates f.entry b vs hwalk
    · by_cases hne : r = f.entry
      · subst hne
        exact root_dominates f.entry b vs hwalk
      · exact h r hr hne hpreds b hb hreach vs hwalk

/-- The iteration ends, and what it computes are the dominators from the entry where no other block
without predecessors leads past the entry. -/
theorem compute_dominators_iff (hentry : f.entry < f.blocks.length) :
    (∃ fuel dom, computeDominators fuel f.blocks.length f.entry (computePreds f) = some dom) ∧
      ∀ fuel dom,
        computeDominators fuel f.blocks.length f.entry (computePreds f) = some dom →
          (EntryDominators f dom ↔ NoSideEntry f) :=
  ⟨computeDominators_ends _ _ _, fun _ _ hdom => dominators_iff hentry hdom⟩

/-- A branch to a block that leads back, and to one that loops. -/
def loops : Func where
  name := "loops"
  params := []
  rets := []
  locals := []
  blocks := [⟨0, [], .branch (.const (.bool true)) 1 2⟩, ⟨1, [], .goto 0⟩, ⟨2, [], .goto 2⟩]
  entry := 0

theorem loops_dominators :
    ∃ fuel dom, computeDominators fuel 3 0 (computePreds loops) = some dom ∧
      EntryDominators loops dom := by
  obtain ⟨⟨fuel, dom, hdom⟩, hiff⟩ := compute_dominators_iff (f := loops) (by decide)
  refine ⟨fuel, dom, hdom, (hiff fuel dom hdom).mpr fun r hr hne hpreds => ?_⟩
  have hr : r < 3 := hr
  have hne : r ≠ 0 := hne
  obtain rfl | rfl : r = 1 ∨ r = 2 := by omega
  · exact absurd hpreds (by decide)
  · exact absurd hpreds (by decide)

/-- Block 1 follows the entry, and block 2 that nothing leads to. -/
def sideEntry : Func where
  name := "side_entry"
  params := []
  rets := []
  locals := []
  blocks := [⟨0, [], .goto 1⟩, ⟨1, [], .ret []⟩, ⟨2, [], .goto 1⟩]
  entry := 0

/-- The entry dominates block 1, and its row does not say so. -/
theorem side_entry_lost :
    ∃ fuel dom, computeDominators fuel 3 0 (computePreds sideEntry) = some dom ∧
      ¬EntryDominators sideEntry dom := by
  obtain ⟨fuel, dom, hdom⟩ := computeDominators_ends 3 0 (computePreds sideEntry)
  refine ⟨fuel, dom, hdom, fun h => ?_⟩
  have hedge : Leads sideEntry 0 1 := ⟨_, rfl, by decide⟩
  have hside : Leads sideEntry 2 1 := ⟨_, rfl, by decide⟩
  have hno := (dominators_iff (f := sideEntry) (by decide) hdom).mp h
  have hall := hno 2 (by decide) (by decide) (by decide) 1 (by decide)
    ⟨_, .step (.root rfl) hedge⟩ _ (.step (.root rfl) hside)
  exact absurd hall (by decide)

end Paths

end BetLang.Validate
