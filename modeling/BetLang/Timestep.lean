import Mathlib.Tactic.Common
import Mathlib.Algebra.Group.Nat.Defs

/-! The fixed-timestep accumulator: how many simulation steps a frame is owed, and when the steps of a
run add up to the time that has passed. -/

namespace BetLang.Timestep

/-- What stops `advance`: a division by a zero step, or an accumulator past `u64::MAX`. -/
inductive Fault where
  | divideByZero
  | overflow
  deriving DecidableEq, Repr

structure FixedTimestep where
  stepNs : Nat
  accumNs : Nat
  lastNs : Option UInt64
  deriving DecidableEq, Repr

def maxCatchUp : Nat := 8

def FixedTimestep.new (hz : UInt32) : FixedTimestep := ⟨1000000000 / max hz.toNat 1, 0, none⟩

/-- A clock that goes back contributes no time. -/
def saturatingSub (now last : UInt64) : Nat := now.toNat - last.toNat

def FixedTimestep.advance (t : FixedTimestep) (now : UInt64) : Except Fault (Nat × FixedTimestep) :=
  match t.lastNs with
  | none => .ok (0, { t with lastNs := some now })
  | some last =>
    let accum := t.accumNs + saturatingSub now last
    if 2 ^ 64 ≤ accum then .error .overflow
    else if t.stepNs = 0 then .error .divideByZero
    else
      let steps := min (accum / t.stepNs) maxCatchUp
      let left := if steps = maxCatchUp then 0 else accum - steps * t.stepNs
      .ok (steps, { t with accumNs := left, lastNs := some now })

/-- The steps of each call of a run, and the timestep after it. -/
def FixedTimestep.advances (t : FixedTimestep) : List UInt64 → Except Fault (List Nat × FixedTimestep)
  | [] => .ok ([], t)
  | now :: times => do
    let (steps, t') ← t.advance now
    let (rest, last) ← t'.advances times
    return (steps :: rest, last)

/-- The states in which a run calls `advance`, with the time of the call. -/
def FixedTimestep.calls (t : FixedTimestep) : List UInt64 → List (FixedTimestep × UInt64)
  | [] => []
  | now :: times =>
    (t, now) :: match t.advance now with
      | .ok (_, t') => t'.calls times
      | .error _ => []

section Purpose

def total (steps : List Nat) : Nat := steps.foldr (· + ·) 0

/-- The positive increments of a sequence of timestamps. -/
def elapsed : List UInt64 → Nat
  | a :: b :: times => saturatingSub b a + elapsed (b :: times)
  | _ => 0

/-- The time that a call has to turn into steps. -/
def FixedTimestep.owedNs (t : FixedTimestep) (now : UInt64) : Nat :=
  t.lastNs.elim 0 fun last => t.accumNs + saturatingSub now last

/-- After the first call, there is a step to divide by and room in the accumulator. -/
def FixedTimestep.Sound (t : FixedTimestep) (now : UInt64) : Prop :=
  t.lastNs.isSome → 0 < t.stepNs ∧ t.owedNs now < 2 ^ 64

/-- The call is owed more than it may return. -/
def FixedTimestep.Overloaded (t : FixedTimestep) (now : UInt64) : Prop :=
  maxCatchUp < t.owedNs now / t.stepNs

/-- The call is owed as many steps as it may return, and a part of the next one. -/
def FixedTimestep.AtClamp (t : FixedTimestep) (now : UInt64) : Prop :=
  t.owedNs now / t.stepNs = maxCatchUp ∧ t.owedNs now % t.stepNs ≠ 0

instance (t : FixedTimestep) (now : UInt64) : Decidable (t.Overloaded now) :=
  inferInstanceAs (Decidable (_ < _))

/-- The run goes through with at most `maxCatchUp` steps a call; and if no call is owed more than
that, the steps are those of the time elapsed, and what is left of it is carried. -/
def Meets (hz : UInt32) (times : List UInt64) : Prop :=
  ∃ steps t, (FixedTimestep.new hz).advances times = .ok (steps, t) ∧ (∀ n ∈ steps, n ≤ maxCatchUp) ∧
    ((∀ c ∈ (FixedTimestep.new hz).calls times, ¬c.1.Overloaded c.2) →
      total steps = elapsed times / t.stepNs ∧ t.accumNs = elapsed times % t.stepNs)

end Purpose

section Calls

variable {t t' : FixedTimestep} {now last : UInt64} {steps : Nat}

theorem advance_some (hlast : t.lastNs = some last) :
    t.advance now =
      if 2 ^ 64 ≤ t.owedNs now then .error .overflow
      else if t.stepNs = 0 then .error .divideByZero
      else .ok (min (t.owedNs now / t.stepNs) maxCatchUp,
        { t with
          accumNs := if min (t.owedNs now / t.stepNs) maxCatchUp = maxCatchUp then 0
            else t.owedNs now - min (t.owedNs now / t.stepNs) maxCatchUp * t.stepNs
          lastNs := some now }) := by
  simp [FixedTimestep.advance, FixedTimestep.owedNs, hlast]

theorem advance_none (hlast : t.lastNs = none) :
    t.advance now = .ok (0, { t with lastNs := some now }) := by
  simp [FixedTimestep.advance, hlast]

/-- A call goes through exactly when it is sound. -/
theorem advance_ok_iff : (∃ r, t.advance now = .ok r) ↔ t.Sound now := by
  cases hlast : t.lastNs with
  | none => simp [advance_none hlast, FixedTimestep.Sound, hlast]
  | some last =>
    rw [advance_some hlast]
    simp only [FixedTimestep.Sound, hlast, Option.isSome_some, forall_const]
    by_cases hover : 2 ^ 64 ≤ t.owedNs now
    · rw [if_pos hover]
      constructor
      · rintro ⟨_, h⟩
        cases h
      · intro h
        exact absurd h.2 (Nat.not_lt.mpr hover)
    · have hlt : t.owedNs now < 2 ^ 64 := Nat.lt_of_not_le hover
      rw [if_neg hover]
      by_cases hzero : t.stepNs = 0
      · simp [hzero]
      · have hpos : 0 < t.stepNs := Nat.pos_of_ne_zero hzero
        rw [if_neg hzero]
        exact ⟨fun _ => ⟨hpos, hlt⟩, fun _ => ⟨_, rfl⟩⟩

/-- What a call after the first one leaves. -/
structure Advanced (t : FixedTimestep) (now : UInt64) (steps : Nat) (t' : FixedTimestep) : Prop where
  stepNs : t'.stepNs = t.stepNs
  lastNs : t'.lastNs = some now
  bound : steps ≤ maxCatchUp
  rest : t'.accumNs < t.stepNs
  balance : ¬t.Overloaded now → steps * t.stepNs + t'.accumNs ≤ t.owedNs now
  exact_iff : ¬t.Overloaded now →
    (steps * t.stepNs + t'.accumNs = t.owedNs now ↔ ¬t.AtClamp now)

theorem advanced (hlast : t.lastNs = some last) (h : t.advance now = .ok (steps, t')) :
    Advanced t now steps t' := by
  rw [advance_some hlast] at h
  by_cases hover : 2 ^ 64 ≤ t.owedNs now
  · rw [if_pos hover] at h
    cases h
  · rw [if_neg hover] at h
    by_cases hzero : t.stepNs = 0
    · rw [if_pos hzero] at h
      cases h
    · rw [if_neg hzero] at h
      cases h
      have hpos : 0 < t.stepNs := Nat.pos_of_ne_zero hzero
      have hdiv := Nat.div_add_mod' (t.owedNs now) t.stepNs
      have hmod := Nat.mod_lt (t.owedNs now) hpos
      by_cases hclamp : maxCatchUp ≤ t.owedNs now / t.stepNs
      · have hmin : min (t.owedNs now / t.stepNs) maxCatchUp = maxCatchUp := Nat.min_eq_right hclamp
        have hall : ¬t.Overloaded now → t.owedNs now / t.stepNs = maxCatchUp := fun hload =>
          Nat.le_antisymm (Nat.le_of_not_lt hload) hclamp
        refine ⟨rfl, rfl, Nat.min_le_right _ _, by simpa [hmin] using hpos, ?_, ?_⟩
        · intro hload
          rw [hall hload] at hdiv
          simp only [hmin, if_true]
          omega
        · intro hload
          have heq := hall hload
          rw [heq] at hdiv
          simp only [FixedTimestep.AtClamp, heq, Nat.min_self, if_true, true_and, not_not]
          omega
      · have hlt : t.owedNs now / t.stepNs < maxCatchUp := Nat.lt_of_not_le hclamp
        have hmin : min (t.owedNs now / t.stepNs) maxCatchUp = t.owedNs now / t.stepNs :=
          Nat.min_eq_left (Nat.le_of_lt hlt)
        have hne : t.owedNs now / t.stepNs ≠ maxCatchUp := Nat.ne_of_lt hlt
        have hsum : t.owedNs now / t.stepNs * t.stepNs +
            (t.owedNs now - t.owedNs now / t.stepNs * t.stepNs) = t.owedNs now := by omega
        refine ⟨rfl, rfl, Nat.min_le_right _ _, ?_, ?_, ?_⟩
        · simp only [hmin, hne, if_false]
          omega
        · intro _
          simp only [hmin, hne, if_false, hsum, Nat.le_refl]
        · intro _
          simp only [hmin, hne, if_false, hsum, FixedTimestep.AtClamp, false_and, not_false_eq_true]

end Calls

section Runs

variable {t t' : FixedTimestep} {now last : UInt64} {times : List UInt64} {steps : List Nat}

theorem advances_cons_ok (h : t.advances (now :: times) = .ok (steps, t')) :
    ∃ n mid rest, t.advance now = .ok (n, mid) ∧ mid.advances times = .ok (rest, t') ∧
      steps = n :: rest := by
  cases hnow : t.advance now with
  | error fault => simp [FixedTimestep.advances, hnow, bind, Except.bind] at h
  | ok r =>
    cases hrest : r.2.advances times with
    | error fault => simp [FixedTimestep.advances, hnow, hrest, bind, Except.bind] at h
    | ok r' =>
      simp only [FixedTimestep.advances, hnow, hrest, bind, Except.bind, pure, Except.pure,
        Except.ok.injEq, Prod.mk.injEq] at h
      exact ⟨r.1, r.2, r'.1, rfl, by rw [hrest, ← h.2], h.1.symm⟩

theorem calls_cons_ok {n : Nat} {mid : FixedTimestep} (h : t.advance now = .ok (n, mid)) :
    t.calls (now :: times) = (t, now) :: mid.calls times := by
  simp [FixedTimestep.calls, h]

theorem mem_calls_cons : (t, now) ∈ t.calls (now :: times) := by
  simp [FixedTimestep.calls]

/-- A run goes through exactly when each of its calls is sound. -/
theorem advances_ok_iff :
    (∃ r, t.advances times = .ok r) ↔ ∀ c ∈ t.calls times, c.1.Sound c.2 := by
  induction times generalizing t with
  | nil => simp [FixedTimestep.advances, FixedTimestep.calls]
  | cons now times ih =>
    constructor
    · rintro ⟨⟨steps, t'⟩, h⟩
      obtain ⟨n, mid, rest, hnow, hrest, _⟩ := advances_cons_ok h
      rw [calls_cons_ok hnow]
      intro c hc
      rcases List.mem_cons.mp hc with rfl | hc
      · exact advance_ok_iff.mp ⟨_, hnow⟩
      · exact ih.mp ⟨_, hrest⟩ c hc
    · intro h
      obtain ⟨⟨n, mid⟩, hnow⟩ := advance_ok_iff.mpr (h _ mem_calls_cons)
      rw [calls_cons_ok hnow] at h
      obtain ⟨r, hrest⟩ := ih.mpr fun c hc => h c (List.mem_cons_of_mem _ hc)
      exact ⟨(n :: r.1, r.2), by simp [FixedTimestep.advances, hnow, hrest, bind, Except.bind, pure, Except.pure]⟩

/-- What the calls after the first one leave: the balance of a run. -/
structure Balanced (t : FixedTimestep) (last : UInt64) (times : List UInt64) (steps : List Nat)
    (t' : FixedTimestep) : Prop where
  stepNs : t'.stepNs = t.stepNs
  bound : ∀ n ∈ steps, n ≤ maxCatchUp
  rest : t.accumNs < t.stepNs → t'.accumNs < t.stepNs
  balance : (∀ c ∈ t.calls times, ¬c.1.Overloaded c.2) →
    total steps * t.stepNs + t'.accumNs ≤ t.accumNs + elapsed (last :: times)
  exact_iff : (∀ c ∈ t.calls times, ¬c.1.Overloaded c.2) →
    (total steps * t.stepNs + t'.accumNs = t.accumNs + elapsed (last :: times) ↔
      ∀ c ∈ t.calls times, ¬c.1.AtClamp c.2)

theorem owedNs_some (hlast : t.lastNs = some last) :
    t.owedNs now = t.accumNs + saturatingSub now last := by
  simp [FixedTimestep.owedNs, hlast]

theorem total_cons (n : Nat) : total (n :: steps) = n + total steps := rfl

theorem balanced (hlast : t.lastNs = some last) (h : t.advances times = .ok (steps, t')) :
    Balanced t last times steps t' := by
  induction times generalizing t last steps with
  | nil =>
    cases h
    refine ⟨rfl, by simp, fun h => h, ?_, ?_⟩
    · intro _
      simp [total, elapsed]
    · intro _
      simp [total, elapsed, FixedTimestep.calls]
  | cons now times ih =>
    obtain ⟨n, mid, rest, hnow, hrest, rfl⟩ := advances_cons_ok h
    have hfirst := advanced hlast hnow
    have hlater := ih hfirst.lastNs hrest
    have howed : t.owedNs now = t.accumNs + saturatingSub now last := owedNs_some hlast
    have hsum : total (n :: rest) * t.stepNs = n * t.stepNs + total rest * t.stepNs := by
      rw [total_cons, Nat.add_mul]
    have helapsed : elapsed (last :: now :: times) = saturatingSub now last + elapsed (now :: times) := rfl
    have hstep := hfirst.stepNs
    refine ⟨hlater.stepNs.trans hstep, ?_, ?_, ?_, ?_⟩
    · intro k hk
      rcases List.mem_cons.mp hk with rfl | hk
      · exact hfirst.bound
      · exact hlater.bound k hk
    · intro _
      have hrest := hlater.rest (by rw [hstep]; exact hfirst.rest)
      rwa [hstep] at hrest
    · rw [calls_cons_ok hnow]
      intro hload
      obtain ⟨hload, hloads⟩ := List.forall_mem_cons.mp hload
      have hone := hfirst.balance hload
      have hmore := hlater.balance hloads
      rw [hstep] at hmore
      omega
    · rw [calls_cons_ok hnow]
      intro hload
      obtain ⟨hload, hloads⟩ := List.forall_mem_cons.mp hload
      have hone := hfirst.balance hload
      have hmore := hlater.balance hloads
      have hone' := hfirst.exact_iff hload
      have hmore' := hlater.exact_iff hloads
      rw [hstep] at hmore hmore'
      rw [List.forall_mem_cons, ← hone', ← hmore']
      constructor
      · intro heq
        exact ⟨by omega, by omega⟩
      · rintro ⟨heq, heq'⟩
        omega

theorem steps_le {hz : UInt32} (h : (FixedTimestep.new hz).advances times = .ok (steps, t')) :
    ∀ n ∈ steps, n ≤ maxCatchUp := by
  cases times with
  | nil =>
    cases h
    exact List.forall_mem_nil _
  | cons now times =>
    obtain ⟨n, mid, rest, hnow, hrest, rfl⟩ := advances_cons_ok h
    rw [advance_none rfl] at hnow
    cases hnow
    exact List.forall_mem_cons.mpr ⟨Nat.zero_le _, (balanced rfl hrest).bound⟩

/-- A number of steps and a rest are the quotient and the remainder exactly when they add up. -/
theorem quotient_iff {n step rest time : Nat} (h : rest < step) :
    (n = time / step ∧ rest = time % step) ↔ n * step + rest = time := by
  constructor
  · rintro ⟨rfl, rfl⟩
    exact Nat.div_add_mod' time step
  · rintro rfl
    have hpos : 0 < step := by omega
    constructor
    · rw [Nat.mul_comm, Nat.mul_add_div hpos, Nat.div_eq_of_lt h, Nat.add_zero]
    · rw [Nat.mul_comm, Nat.mul_add_mod, Nat.mod_eq_of_lt h]

/-- The first call only sets the baseline. -/
theorem calls_new (hz : UInt32) :
    (FixedTimestep.new hz).calls (now :: times) = (FixedTimestep.new hz, now) ::
      ({ FixedTimestep.new hz with lastNs := some now } : FixedTimestep).calls times := by
  simp [FixedTimestep.calls, advance_none (t := FixedTimestep.new hz) rfl]

theorem new_not_atClamp (hz : UInt32) (now : UInt64) : ¬(FixedTimestep.new hz).AtClamp now := by
  simp [FixedTimestep.AtClamp, FixedTimestep.owedNs, FixedTimestep.new]

/-- A run that goes through keeps to the time elapsed exactly when it drops no part of a step. -/
theorem keeps_iff {hz : UInt32} (h : (FixedTimestep.new hz).advances times = .ok (steps, t'))
    (hload : ∀ c ∈ (FixedTimestep.new hz).calls times, ¬c.1.Overloaded c.2) :
    (total steps = elapsed times / t'.stepNs ∧ t'.accumNs = elapsed times % t'.stepNs) ↔
      ∀ c ∈ (FixedTimestep.new hz).calls times, ¬c.1.AtClamp c.2 := by
  cases times with
  | nil =>
    cases h
    simp [total, elapsed, FixedTimestep.new, FixedTimestep.calls]
  | cons now times =>
    obtain ⟨n, mid, rest, hnow, hrest, rfl⟩ := advances_cons_ok h
    rw [advance_none rfl] at hnow
    cases hnow
    rw [calls_new, List.forall_mem_cons] at hload ⊢
    have hbal := balanced rfl hrest
    have hexact := hbal.exact_iff hload.2
    have hstep : t'.stepNs = (FixedTimestep.new hz).stepNs := hbal.stepNs
    rw [and_iff_right (new_not_atClamp hz now), ← hexact, total_cons, Nat.zero_add]
    cases times with
    | nil =>
      cases hrest
      simp [total, elapsed, FixedTimestep.new]
    | cons later times =>
      have hsound := advances_ok_iff.mp ⟨_, hrest⟩ _ mem_calls_cons
      have hpos : 0 < (FixedTimestep.new hz).stepNs := (hsound rfl).1
      have hsmall : t'.accumNs < (FixedTimestep.new hz).stepNs := hbal.rest hpos
      have hzero : (FixedTimestep.new hz).accumNs = 0 := rfl
      rw [hstep, quotient_iff hsmall]
      simp [hzero]

/-- The claim of `advance`: it goes through on every sequence of times, and the rate does not drift
in a run without a backlog, exactly when the step is not zero, the accumulator has room, and no call
is owed its most steps and a part of the next one. -/
theorem timestep_exact_iff (hz : UInt32) (times : List UInt64) :
    Meets hz times ↔ (∀ c ∈ (FixedTimestep.new hz).calls times, c.1.Sound c.2) ∧
      ((∀ c ∈ (FixedTimestep.new hz).calls times, ¬c.1.Overloaded c.2) →
        ∀ c ∈ (FixedTimestep.new hz).calls times, ¬c.1.AtClamp c.2) := by
  constructor
  · rintro ⟨steps, t, hrun, _, hkeeps⟩
    exact ⟨advances_ok_iff.mp ⟨_, hrun⟩, fun hload => (keeps_iff hrun hload).mp (hkeeps hload)⟩
  · rintro ⟨hsound, hclamp⟩
    obtain ⟨⟨steps, t⟩, hrun⟩ := advances_ok_iff.mpr hsound
    refine ⟨steps, t, hrun, ?_, fun hload => (keeps_iff hrun hload).mpr (hclamp hload)⟩
    exact steps_le hrun

/-- A rate of two billion has a zero step; and at one step a second, the half second that comes with
eight steps is dropped, so that nine seconds are eight steps. -/
theorem timestep_drifts : ¬Meets 2000000000 [0, 1] ∧ ¬Meets 1 [0, 8500000000, 9000000000] := by
  constructor
  · rintro ⟨_, _, hrun, _⟩
    cases hrun
  · rintro ⟨_, _, hrun, _, hkeeps⟩
    cases hrun
    exact absurd (hkeeps (by decide)) (by decide)

end Runs

end BetLang.Timestep
