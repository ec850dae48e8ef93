import Mathlib.Data.List.FinRange
import Mathlib.Data.List.Induction
import Mathlib.Tactic.Common

/-! The keyboard of the window: raw transitions are replayed, then the state is reconciled with what
the platform says. -/

namespace BetLang.Input

def keyDown : UInt32 := 1

def keyUp : UInt32 := 2

/-- The code that each dense index reports. -/
def keyCodes : List UInt32 := [
  65, 66, 67, 68, 69, 70, 71, 72, 73, 74, 75, 76, 77, 78, 79, 80, 81, 82, 83, 84, 85, 86, 87, 88, 89,
  90,
  48, 49, 50, 51, 52, 53, 54, 55, 56, 57,
  32, 10, 27, 8, 9,
  39, 44, 45, 46, 47, 59, 61, 91, 92, 93, 96,
  256, 257, 258, 259,
  260, 261, 262, 263, 264, 265, 266,
  280, 281, 282, 283, 284, 285, 286, 287, 288, 289, 290, 291]

def keyCount : Nat := keyCodes.length

/-- An index in the table. -/
abbrev Key := Fin keyCodes.length

structure Event where
  kind : UInt32
  code : UInt32
  x : Int32
  y : Int32
  deriving DecidableEq, Repr

/-- What the window says at one pump: the transitions since the last one, in order of arrival, and
which keys are down by now. -/
structure KeySource where
  transitions : List (Nat × Bool)
  isDown : Key → Bool

structure Keyboard where
  down : Key → Bool

def Keyboard.new : Keyboard := ⟨fun _ => false⟩

def event (key : Key) (state : Bool) : Event :=
  ⟨if state then keyDown else keyUp, keyCodes.get key, 0, 0⟩

/-- A transition of a key in the table. -/
def Keyboard.edgeAt (kb : Keyboard) (key : Key) (state : Bool) (out : List Event) :
    Keyboard × List Event :=
  if kb.down key = state then (kb, out)
  else (⟨Function.update kb.down key state⟩, out ++ [event key state])

def Keyboard.edge (kb : Keyboard) (idx : Nat) (state : Bool) (out : List Event) :
    Keyboard × List Event :=
  if h : idx < keyCount then kb.edgeAt ⟨idx, h⟩ state out else (kb, out)

def Keyboard.replay (kb : Keyboard) (transitions : List (Nat × Bool)) (out : List Event) :
    Keyboard × List Event :=
  transitions.foldl (fun s t => s.1.edge t.1 t.2 s.2) (kb, out)

def Keyboard.reconcile (kb : Keyboard) (isDown : Key → Bool) (out : List Event) :
    Keyboard × List Event :=
  (List.finRange keyCodes.length).foldl (fun s (key : Key) => s.1.edge key.val (isDown key) s.2) (kb, out)

def Keyboard.pump (kb : Keyboard) (src : KeySource) (out : List Event) : Keyboard × List Event :=
  let (kb, out) := kb.replay src.transitions out
  kb.reconcile src.isDown out

/-- All events of a run of pumps, with the keyboard after it. -/
def Keyboard.pumps (kb : Keyboard) (srcs : List KeySource) (out : List Event) : Keyboard × List Event :=
  srcs.foldl (fun s src => s.1.pump src s.2) (kb, out)

section Purpose

/-- What is known of a key after some transitions: its last one, or else its state before them. -/
def Keyboard.tracked (kb : Keyboard) (transitions : List (Nat × Bool)) (key : Key) : Bool :=
  ((transitions.reverse.find? fun t => t.1 == key.val).map (·.2)).getD (kb.down key)

/-- The event of transition `n`: one if it is of a key in the table and changes what is known of it. -/
def Keyboard.changeAt (kb : Keyboard) (transitions : List (Nat × Bool)) (n : Nat) : Option Event := do
  let t ← transitions[n]?
  if h : t.1 < keyCount then
    if kb.tracked (transitions.take n) ⟨t.1, h⟩ = t.2 then none else some (event ⟨t.1, h⟩ t.2)
  else none

/-- The events of the transitions, in order of arrival. -/
def Keyboard.changes (kb : Keyboard) (transitions : List (Nat × Bool)) : List Event :=
  (List.range transitions.length).filterMap (kb.changeAt transitions)

/-- The events of the keys whose state is not the platform's. -/
def Keyboard.repairs (kb : Keyboard) (src : KeySource) : List Event :=
  (List.finRange keyCodes.length).filterMap fun key =>
    if kb.tracked src.transitions key = src.isDown key then none else some (event key (src.isDown key))

/-- A key-down first, then key-ups and key-downs in turn. -/
def alternating (n : Nat) : List UInt32 :=
  (List.range n).map fun j => if j % 2 = 0 then keyDown else keyUp

/-- The kinds of the events of a key. -/
def kindsOf (key : Key) (out : List Event) : List UInt32 :=
  (out.filter fun e => e.code == keyCodes.get key).map (·.kind)

end Purpose

section Replay

variable {kb : Keyboard} {out : List Event}

theorem edge_key (kb : Keyboard) (key : Key) (state : Bool) (out : List Event) :
    kb.edge key.val state out = kb.edgeAt key state out :=
  dif_pos key.isLt

/-- What is known of a key after one more transition. -/
theorem tracked_append (transitions : List (Nat × Bool)) (t : Nat × Bool) (key : Key) :
    kb.tracked (transitions ++ [t]) key = if t.1 = key.val then t.2 else kb.tracked transitions key := by
  by_cases h : t.1 = key.val <;> simp [Keyboard.tracked, h]

theorem changeAt_append {transitions : List (Nat × Bool)} (t : Nat × Bool) {n : Nat}
    (hn : n < transitions.length) :
    kb.changeAt (transitions ++ [t]) n = kb.changeAt transitions n := by
  simp [Keyboard.changeAt, List.getElem?_append_left hn, List.take_append_of_le_length (Nat.le_of_lt hn)]

/-- The last transition changes what was known before it, or nothing. -/
theorem changeAt_last (transitions : List (Nat × Bool)) (t : Nat × Bool) :
    kb.changeAt (transitions ++ [t]) transitions.length =
      if h : t.1 < keyCount then
        if kb.tracked transitions ⟨t.1, h⟩ = t.2 then none else some (event ⟨t.1, h⟩ t.2)
      else none := by
  simp [Keyboard.changeAt]

theorem changes_append (transitions : List (Nat × Bool)) (t : Nat × Bool) :
    kb.changes (transitions ++ [t]) =
      kb.changes transitions ++ (kb.changeAt (transitions ++ [t]) transitions.length).toList := by
  have hfront : (List.range transitions.length).filterMap (kb.changeAt (transitions ++ [t])) =
      kb.changes transitions :=
    List.filterMap_congr fun n hn => changeAt_append t (List.mem_range.mp hn)
  rw [Keyboard.changes, List.length_append, List.length_singleton, List.range_succ,
    List.filterMap_append, hfront]
  cases h : kb.changeAt (transitions ++ [t]) transitions.length <;> simp [h]

/-- The keyboard and the events after transitions: what is known of every key, and the changes. -/
theorem replay_eq (kb : Keyboard) (transitions : List (Nat × Bool)) (out : List Event) :
    kb.replay transitions out = (⟨kb.tracked transitions⟩, out ++ kb.changes transitions) := by
  induction transitions using List.reverseRecOn with
  | nil =>
    have hnone : kb.tracked [] = kb.down := rfl
    simp [Keyboard.replay, Keyboard.changes, hnone]
  | append_singleton transitions t ih =>
    have hstep : kb.replay (transitions ++ [t]) out =
        (kb.replay transitions out).1.edge t.1 t.2 (kb.replay transitions out).2 := by
      simp [Keyboard.replay]
    rw [hstep, ih, changes_append, changeAt_last]
    by_cases hkey : t.1 < keyCount
    · by_cases hsame : kb.tracked transitions ⟨t.1, hkey⟩ = t.2
      · have hkept : kb.tracked (transitions ++ [t]) = kb.tracked transitions := by
          funext key
          rw [tracked_append]
          split
          · rename_i heq
            rw [← hsame]
            exact congrArg _ (Fin.ext heq)
          · rfl
        simp [Keyboard.edge, Keyboard.edgeAt, hkey, hsame, hkept]
      · have hnew : kb.tracked (transitions ++ [t]) =
            Function.update (kb.tracked transitions) ⟨t.1, hkey⟩ t.2 := by
          funext key
          rw [tracked_append, Function.update_apply]
          by_cases heq : t.1 = key.val
          · simp [heq]
          · have hne : key ≠ ⟨t.1, hkey⟩ := fun h => heq (by rw [h])
            simp [heq, hne]
        simp [Keyboard.edge, Keyboard.edgeAt, hkey, hsame, hnew]
    · have hkept : kb.tracked (transitions ++ [t]) = kb.tracked transitions := by
        funext key
        rw [tracked_append, if_neg]
        rintro heq
        exact hkey (heq ▸ key.isLt)
      simp [Keyboard.edge, hkey, hkept]

/-- Keys that are reconciled once each. -/
theorem reconcile_keys (kb : Keyboard) (isDown : Key → Bool) (out : List Event) {keys : List Key}
    (hkeys : keys.Nodup) :
    keys.foldl (fun s (key : Key) => s.1.edge key.val (isDown key) s.2) (kb, out) =
      (⟨fun key => if key ∈ keys then isDown key else kb.down key⟩,
        out ++ keys.filterMap fun key =>
          if kb.down key = isDown key then none else some (event key (isDown key))) := by
  induction keys generalizing kb out with
  | nil => simp
  | cons key keys ih =>
    obtain ⟨hnot, hkeys⟩ := List.nodup_cons.mp hkeys
    rw [List.foldl_cons, edge_key]
    dsimp only
    by_cases hsame : kb.down key = isDown key
    · rw [Keyboard.edgeAt, if_pos hsame, ih kb out hkeys]
      simp only [List.filterMap_cons, hsame, if_true, List.mem_cons]
      congr 2
      funext other
      by_cases heq : other = key
      · simp [heq, hsame]
      · simp [heq]
    · rw [Keyboard.edgeAt, if_neg hsame, ih _ _ hkeys]
      have hother : ∀ other ∈ keys, Function.update kb.down key (isDown key) other = kb.down other := by
        intro other hmem
        have hne : other ≠ key := by
          rintro rfl
          exact hnot hmem
        exact Function.update_of_ne hne _ _
      have hrest : keys.filterMap (fun other => if Function.update kb.down key (isDown key) other =
            isDown other then none else some (event other (isDown other))) =
          keys.filterMap fun other => if kb.down other = isDown other then none
            else some (event other (isDown other)) :=
        List.filterMap_congr fun other hmem => by rw [hother other hmem]
      simp only [hrest, List.filterMap_cons, hsame, if_false, List.append_assoc, List.singleton_append]
      congr 2
      funext other
      by_cases heq : other = key
      · simp [heq, hnot]
      · simp [heq]

/-- A pump: the changes in order of arrival, then the repairs; and the platform's state. -/
theorem pump_eq (kb : Keyboard) (src : KeySource) (out : List Event) :
    kb.pump src out = (⟨src.isDown⟩, out ++ kb.changes src.transitions ++ kb.repairs src) := by
  simp only [Keyboard.pump, replay_eq, Keyboard.reconcile,
    reconcile_keys _ _ _ (List.nodup_finRange _), List.mem_finRange, if_true]
  rfl

end Replay

section Alternation

variable {kb : Keyboard} {out : List Event}

/-- The state of a key is down after an odd number of events, which alternate. -/
def Alternates (kb : Keyboard) (out : List Event) : Prop :=
  ∀ key, ∃ n, kindsOf key out = alternating n ∧ (kb.down key = true ↔ n % 2 = 1)

theorem keyCodes_nodup : keyCodes.Nodup := by decide

theorem kindsOf_append (key other : Key) (state : Bool) (out : List Event) :
    kindsOf key (out ++ [event other state]) =
      kindsOf key out ++ if other = key then [if state then keyDown else keyUp] else [] := by
  by_cases h : other = key
  · simp [kindsOf, event, h]
  · have hcode : keyCodes.get other ≠ keyCodes.get key := fun heq => h (keyCodes_nodup.injective_get heq)
    have hcode' : keyCodes[other.val] ≠ keyCodes[key.val] := hcode
    simp [kindsOf, event, h, hcode']

theorem alternating_succ (n : Nat) :
    alternating (n + 1) = alternating n ++ [if n % 2 = 0 then keyDown else keyUp] := by
  simp [alternating, List.range_succ]

theorem Alternates.edgeAt (h : Alternates kb out) (other : Key) (state : Bool) :
    Alternates (kb.edgeAt other state out).1 (kb.edgeAt other state out).2 := by
  unfold Keyboard.edgeAt
  by_cases hsame : kb.down other = state
  · rw [if_pos hsame]
    exact h
  · rw [if_neg hsame]
    intro key
    obtain ⟨n, hkinds, hdown⟩ := h key
    rw [kindsOf_append, hkinds]
    by_cases hkey : other = key
    · subst hkey
      refine ⟨n + 1, ?_, ?_⟩
      · rw [if_pos rfl, alternating_succ]
        cases state with
        | true =>
          have hup : ¬n % 2 = 1 := fun hodd => hsame (hdown.mpr hodd)
          have heven : n % 2 = 0 := by omega
          simp [heven]
        | false =>
          have hodd : n % 2 = 1 := hdown.mp (by simpa using hsame)
          simp [hodd]
      · dsimp only
        rw [Function.update_self]
        cases state with
        | true =>
          have hup : ¬n % 2 = 1 := fun hodd => hsame (hdown.mpr hodd)
          simp only [true_iff]
          omega
        | false =>
          have hodd : n % 2 = 1 := hdown.mp (by simpa using hsame)
          simp only [Bool.false_eq_true, false_iff]
          omega
    · refine ⟨n, ?_, ?_⟩
      · simp [hkey]
      · dsimp only
        rw [Function.update_of_ne (Ne.symm hkey)]
        exact hdown

theorem Alternates.edge (h : Alternates kb out) (idx : Nat) (state : Bool) :
    Alternates (kb.edge idx state out).1 (kb.edge idx state out).2 := by
  unfold Keyboard.edge
  split
  · exact h.edgeAt _ state
  · exact h

theorem alternates_fold {α : Type} (l : List α) (idx : α → Nat) (state : α → Bool) (h : Alternates kb out) :
    Alternates (l.foldl (fun s a => s.1.edge (idx a) (state a) s.2) (kb, out)).1
      (l.foldl (fun s a => s.1.edge (idx a) (state a) s.2) (kb, out)).2 := by
  induction l generalizing kb out with
  | nil => exact h
  | cons a l ih => exact ih (h.edge (idx a) (state a))

theorem Alternates.replay (h : Alternates kb out) (transitions : List (Nat × Bool)) :
    Alternates (kb.replay transitions out).1 (kb.replay transitions out).2 :=
  alternates_fold transitions (·.1) (·.2) h

theorem Alternates.reconcile (h : Alternates kb out) (isDown : Key → Bool) :
    Alternates (kb.reconcile isDown out).1 (kb.reconcile isDown out).2 := by
  unfold Keyboard.reconcile
  generalize List.finRange keyCodes.length = keys
  exact alternates_fold keys (fun key => key.val) isDown h

theorem pump_steps (kb : Keyboard) (src : KeySource) (out : List Event) :
    kb.pump src out =
      (kb.replay src.transitions out).1.reconcile src.isDown (kb.replay src.transitions out).2 := rfl

theorem Alternates.pump (h : Alternates kb out) (src : KeySource) :
    Alternates (kb.pump src out).1 (kb.pump src out).2 := by
  rw [pump_steps]
  exact (h.replay src.transitions).reconcile src.isDown

theorem pumps_cons (kb : Keyboard) (src : KeySource) (srcs : List KeySource) (out : List Event) :
    kb.pumps (src :: srcs) out = (kb.pump src out).1.pumps srcs (kb.pump src out).2 := by
  simp [Keyboard.pumps]

theorem Alternates.pumps (h : Alternates kb out) (srcs : List KeySource) :
    Alternates (kb.pumps srcs out).1 (kb.pumps srcs out).2 := by
  induction srcs generalizing kb out with
  | nil => exact h
  | cons src srcs ih =>
    rw [pumps_cons]
    exact ih (h.pump src)

theorem alternates_new : Alternates .new [] := by
  intro key
  exact ⟨0, rfl, by simp [Keyboard.new]⟩

/-- After every run of pumps the events of each key alternate, a key-down first; and one more pump
adds one event for each transition that changes what is known of its key, in order of arrival, then
one for each key that the platform says otherwise of, and leaves the platform's state. -/
theorem keyboard_edges (srcs : List KeySource) :
    (∀ key, ∃ n, kindsOf key (Keyboard.new.pumps srcs []).2 = alternating n) ∧
    ∀ src, Keyboard.new.pumps (srcs ++ [src]) [] =
      (⟨src.isDown⟩, (Keyboard.new.pumps srcs []).2 ++
        (Keyboard.new.pumps srcs []).1.changes src.transitions ++
        (Keyboard.new.pumps srcs []).1.repairs src) := by
  constructor
  · intro key
    obtain ⟨n, hkinds, _⟩ := (alternates_new.pumps srcs) key
    exact ⟨n, hkinds⟩
  · intro src
    rw [← pump_eq]
    simp [Keyboard.pumps]

/-- A tap within one frame, with a repeat and an index out of range. -/
example : (Keyboard.new.changes [(22, true), (22, true), (75, true), (22, false)]).map (·.kind) =
    [keyDown, keyUp] := by decide

end Alternation

end BetLang.Input
