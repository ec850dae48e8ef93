import BetLang.DowncastGuards
import Mathlib.Data.List.Basic

/-! What the dominator iteration leaves when it stops: rows that are closed under predecessors. -/

namespace BetLang.Validate

theorem mem_computePreds {f : Ir.Func} {i b : Nat} :
    i ∈ computePreds f b ↔ ∃ blk, f.blocks[i]? = some blk ∧ b ∈ successors blk.term := by
  rw [computePreds, List.mem_filter, List.mem_range]
  cases hblk : f.blocks[i]? with
  | none => simp
  | some blk =>
    have hi := (List.getElem?_eq_some_iff.mp hblk).1
    simp [hi]

/-- The equations of dominance over the blocks below `n`. -/
structure Closed (n entry : Nat) (preds : Nat → List Nat) (dom : DomMatrix) : Prop where
  root : ∀ a, dom entry a = true → a = entry
  row : ∀ b < n, b ≠ entry → ∀ a < n, dom b a = newRow preds dom b a

variable {n entry : Nat} {preds : Nat → List Nat}

theorem sweepRow_entry (s : DomMatrix × Bool) (b : Nat) :
    (sweepRow n entry preds s b).1 entry = s.1 entry := by
  unfold sweepRow
  by_cases hb : b = entry
  · rw [if_pos hb]
  · rw [if_neg hb]
    by_cases hr : rowEq n (newRow preds s.1 b) (s.1 b) = true
    · rw [if_pos hr]
    · rw [if_neg hr]
      exact if_neg (Ne.symm hb)

theorem sweep_entry (dom : DomMatrix) : (sweep n entry preds dom).1 entry = dom entry := by
  have hfold : ∀ (bs : List Nat) (s : DomMatrix × Bool),
      (bs.foldl (sweepRow n entry preds) s).1 entry = s.1 entry := by
    intro bs
    induction bs with
    | nil => exact fun s => rfl
    | cons b bs ih => exact fun s => (ih _).trans (sweepRow_entry s b)
  exact hfold _ _

/-- A row that a sweep leaves without a change is the one it computes. -/
theorem sweepRow_unchanged {s : DomMatrix × Bool} {b : Nat}
    (h : (sweepRow n entry preds s b).2 = false) :
    s.2 = false ∧ sweepRow n entry preds s b = s ∧
      (b ≠ entry → rowEq n (newRow preds s.1 b) (s.1 b) = true) := by
  unfold sweepRow at h ⊢
  by_cases hb : b = entry
  · rw [if_pos hb] at h ⊢
    exact ⟨h, rfl, fun hne => absurd hb hne⟩
  · rw [if_neg hb] at h ⊢
    by_cases hr : rowEq n (newRow preds s.1 b) (s.1 b) = true
    · rw [if_pos hr] at h ⊢
      exact ⟨h, rfl, fun _ => hr⟩
    · rw [if_neg hr] at h
      cases h

theorem fold_unchanged {bs : List Nat} {s : DomMatrix × Bool}
    (h : (bs.foldl (sweepRow n entry preds) s).2 = false) :
    s.2 = false ∧ bs.foldl (sweepRow n entry preds) s = s ∧
      ∀ b ∈ bs, b ≠ entry → rowEq n (newRow preds s.1 b) (s.1 b) = true := by
  induction bs generalizing s with
  | nil => exact ⟨h, rfl, by simp⟩
  | cons b bs ih =>
    rw [List.foldl_cons] at h ⊢
    obtain ⟨hs, heq, hrest⟩ := ih h
    obtain ⟨hs', heq', hb⟩ := sweepRow_unchanged hs
    rw [heq'] at heq hrest ⊢
    refine ⟨hs', heq, ?_⟩
    intro b' hb'
    rcases List.mem_cons.mp hb' with rfl | hb'
    · exact hb
    · exact hrest b' hb'

theorem sweeps_closed {fuel : Nat} {dom dom' : DomMatrix}
    (hentry : ∀ a, dom entry a = true → a = entry)
    (h : sweeps n entry preds fuel dom = some dom') : Closed n entry preds dom' := by
  induction fuel generalizing dom with
  | zero => cases h
  | succ fuel ih =>
    simp only [sweeps] at h
    cases hc : (sweep n entry preds dom).2 with
    | true =>
      rw [if_pos hc] at h
      refine ih ?_ h
      rw [sweep_entry]
      exact hentry
    | false =>
      rw [if_neg (by simp [hc])] at h
      cases h
      obtain ⟨_, heq, hrows⟩ := fold_unchanged hc
      have hsame : (sweep n entry preds dom).1 = dom := congrArg Prod.fst heq
      rw [hsame]
      refine ⟨hentry, fun b hb hne a ha => ?_⟩
      have hrow := List.all_eq_true.mp (hrows b (List.mem_range.mpr hb) hne) a
        (List.mem_range.mpr ha)
      exact (of_decide_eq_true hrow).symm

/-- What the source relies on: when the iteration stops, its rows satisfy the equations. -/
theorem computeDominators_closed {fuel : Nat} {dom : DomMatrix}
    (h : computeDominators fuel n entry preds = some dom) : Closed n entry preds dom :=
  sweeps_closed (fun a ha => by simpa [startMatrix] using ha) h

/-- A dominator of a block other than the entry dominates each of its predecessors, unless it is
the block. -/
theorem Closed.pred {dom : DomMatrix} (hc : Closed n entry preds dom) {b p a : Nat} (hb : b < n)
    (ha : a < n) (hp : p ∈ preds b) (hd : dom b a = true) : a = b ∨ dom p a = true := by
  by_cases hentry : b = entry
  · rw [hentry] at hd ⊢
    exact Or.inl (hc.root a hd)
  · rw [hc.row b hb hentry a ha, newRow, Bool.or_eq_true, decide_eq_true_iff, Bool.and_eq_true,
      List.all_eq_true] at hd
    rcases hd with hd | ⟨_, hd⟩
    · exact Or.inl hd
    · exact Or.inr (hd p hp)

end BetLang.Validate
