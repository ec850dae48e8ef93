import Mathlib.Logic.Relation
import Mathlib.Data.List.Basic
import Mathlib.Data.List.Nodup

/-! Depth-first search of a graph in post-order: what is listed, in which order, and that nothing in
the list is on a cycle. -/

namespace PostOrder

variable {α : Type} {succ : α → List α}

def Edge (succ : α → List α) (a b : α) : Prop := b ∈ succ a

/-- A search that goes through: from a stack of open nodes, a worklist, and the nodes that are done
already, to the nodes done after it. -/
inductive Visit (succ : α → List α) : List α → List α → List α → List α → Prop
  | nil {stack done : List α} : Visit succ stack [] done done
  | skip {stack rest done done' : List α} {n : α} (hdone : n ∈ done)
      (hrest : Visit succ stack rest done done') : Visit succ stack (n :: rest) done done'
  | node {stack rest done mid done' : List α} {n : α} (hdone : n ∉ done) (hstack : n ∉ stack)
      (hsucc : Visit succ (n :: stack) (succ n) done mid)
      (hrest : Visit succ stack rest (mid ++ [n]) done') : Visit succ stack (n :: rest) done done'

/-- Every node comes after its successors. -/
inductive Ordered (succ : α → List α) : List α → Prop
  | nil : Ordered succ []
  | snoc {l : List α} {n : α} (hl : Ordered succ l) (hn : ∀ m ∈ succ n, m ∈ l) :
      Ordered succ (l ++ [n])

section Order

variable {l : List α}

theorem Ordered.earlier (h : Ordered succ l) {i : Nat} {n m : α} (hi : l[i]? = some n)
    (hm : Edge succ n m) : ∃ j < i, l[j]? = some m := by
  induction h with
  | nil => cases hi
  | @snoc l k _ hk ih =>
    have hlt : i < (l ++ [k]).length := (List.getElem?_eq_some_iff.mp hi).1
    rw [List.length_append, List.length_singleton] at hlt
    by_cases hend : i < l.length
    · rw [List.getElem?_append_left hend] at hi
      obtain ⟨j, hj, hget⟩ := ih hi
      exact ⟨j, hj, by rw [List.getElem?_append_left (by omega), hget]⟩
    · have heq : i = l.length := by omega
      rw [heq, List.getElem?_concat_length] at hi
      cases hi
      obtain ⟨j, hj, hget⟩ := List.getElem_of_mem (hk m hm)
      exact ⟨j, by omega, by rw [List.getElem?_append_left hj, List.getElem?_eq_getElem hj, hget]⟩

theorem Ordered.closed (h : Ordered succ l) {n m : α} (hn : n ∈ l)
    (hreach : Relation.ReflTransGen (Edge succ) n m) : m ∈ l := by
  induction hreach with
  | refl => exact hn
  | tail _ hedge ih =>
    obtain ⟨i, hi, hget⟩ := List.getElem_of_mem ih
    obtain ⟨j, _, hj⟩ := h.earlier (List.getElem?_eq_some_iff.mpr ⟨hi, hget⟩) hedge
    exact List.mem_of_getElem? hj

theorem Ordered.before (h : Ordered succ l) {i : Nat} {n m : α} (hi : l[i]? = some n)
    (hpath : Relation.TransGen (Edge succ) n m) : ∃ j < i, l[j]? = some m := by
  induction hpath with
  | single hedge => exact h.earlier hi hedge
  | tail _ hedge ih =>
    obtain ⟨j, hj, hget⟩ := ih
    obtain ⟨k, hk, hget'⟩ := h.earlier hget hedge
    exact ⟨k, Nat.lt_trans hk hj, hget'⟩

/-- Nothing in the list is on a cycle. -/
theorem Ordered.acyclic (h : Ordered succ l) (hnodup : l.Nodup) {n : α} (hn : n ∈ l) :
    ¬Relation.TransGen (Edge succ) n n := by
  intro hcycle
  obtain ⟨i, hi, hget⟩ := List.getElem_of_mem hn
  have hsome : l[i]? = some n := List.getElem?_eq_some_iff.mpr ⟨hi, hget⟩
  obtain ⟨j, hj, hget'⟩ := h.before hsome hcycle
  have heq := (List.getElem?_inj (by omega) hnodup).mp (hget'.trans hsome.symm)
  omega

end Order

section Search

variable {stack work done done' : List α}

theorem Visit.keeps (h : Visit succ stack work done done') {n : α} (hn : n ∈ done) : n ∈ done' := by
  induction h with
  | nil => exact hn
  | skip _ _ ih => exact ih hn
  | node _ _ _ _ ih ih' => exact ih' (List.mem_append_left _ (ih hn))

theorem Visit.getElem? (h : Visit succ stack work done done') {i : Nat} {n : α}
    (hi : done[i]? = some n) : done'[i]? = some n := by
  induction h with
  | nil => exact hi
  | skip _ _ ih => exact ih hi
  | node _ _ _ _ ih ih' =>
    refine ih' ?_
    rw [List.getElem?_append_left (List.getElem?_eq_some_iff.mp (ih hi)).1, ih hi]

/-- A search goes on where the one before it stopped. -/
theorem Visit.andThen {work' mid : List α} (h : Visit succ stack work done mid)
    (h' : Visit succ stack work' mid done') : Visit succ stack (work ++ work') done done' := by
  induction h with
  | nil => exact h'
  | skip hdone _ ih => exact .skip hdone (ih h')
  | node hdone hstack hsucc _ _ ih' => exact .node hdone hstack hsucc (ih' h')

theorem Visit.work_mem (h : Visit succ stack work done done') : ∀ n ∈ work, n ∈ done' := by
  induction h with
  | nil => exact List.forall_mem_nil _
  | skip hdone hrest ih => exact List.forall_mem_cons.mpr ⟨hrest.keeps hdone, ih⟩
  | node _ _ _ hrest _ ih' =>
    exact List.forall_mem_cons.mpr ⟨hrest.keeps List.mem_concat_self, ih'⟩

/-- An open node is not listed by the search below it. -/
theorem Visit.stack_done (h : Visit succ stack work done done') {n : α} (hn : n ∈ stack)
    (hn' : n ∈ done') : n ∈ done := by
  induction h with
  | nil => exact hn'
  | skip _ _ ih => exact ih hn hn'
  | node _ hstack _ _ ih ih' =>
    rcases List.mem_append.mp (ih' hn hn') with hmid | hlast
    · exact ih (List.mem_cons_of_mem _ hn) hmid
    · cases List.mem_singleton.mp hlast
      exact absurd hn hstack

theorem Visit.nodup (h : Visit succ stack work done done') (hd : done.Nodup) : done'.Nodup := by
  induction h with
  | nil => exact hd
  | skip _ _ ih => exact ih hd
  | node hdone _ hsucc _ ih ih' =>
    refine ih' (List.nodup_append.mpr ⟨ih hd, List.nodup_singleton _, fun m hm k hk heq => ?_⟩)
    cases List.mem_singleton.mp hk
    subst heq
    exact hdone (hsucc.stack_done List.mem_cons_self hm)

theorem Visit.ordered (h : Visit succ stack work done done') (hd : Ordered succ done) :
    Ordered succ done' := by
  induction h with
  | nil => exact hd
  | skip _ _ ih => exact ih hd
  | node _ _ hsucc _ ih ih' => exact ih' ((ih hd).snoc hsucc.work_mem)

/-- Only what the worklist reaches is listed. -/
theorem Visit.reached (h : Visit succ stack work done done') {m : α} (hm : m ∈ done') :
    m ∈ done ∨ ∃ w ∈ work, Relation.ReflTransGen (Edge succ) w m := by
  induction h with
  | nil => exact .inl hm
  | skip _ _ ih =>
    exact (ih hm).imp_right fun ⟨w, hw, hreach⟩ => ⟨w, List.mem_cons_of_mem _ hw, hreach⟩
  | @node _ _ _ _ _ n _ _ _ _ ih ih' =>
    rcases ih' hm with hmid | ⟨w, hw, hreach⟩
    · rcases List.mem_append.mp hmid with hmid | hlast
      · refine (ih hmid).imp_right fun ⟨w, hw, hreach⟩ => ⟨n, List.mem_cons_self, ?_⟩
        exact hreach.head hw
      · cases List.mem_singleton.mp hlast
        exact .inr ⟨m, List.mem_cons_self, .refl⟩
    · exact .inr ⟨w, List.mem_cons_of_mem _ hw, hreach⟩

/-- From a root, exactly what it reaches is listed. -/
theorem Visit.mem_iff {root : α} (h : Visit succ [] [root] [] done') {m : α} :
    m ∈ done' ↔ Relation.ReflTransGen (Edge succ) root m := by
  constructor
  · intro hm
    obtain hnil | ⟨w, hw, hreach⟩ := h.reached hm
    · cases hnil
    · cases List.mem_singleton.mp hw
      exact hreach
  · intro hreach
    exact (h.ordered .nil).closed (h.work_mem root List.mem_cons_self) hreach

end Search

end PostOrder
