import Mathlib.Data.List.Basic

/-! A program as a choice of the next operation from what it has observed so far, run on two
machines: while every step keeps a relation and observes the same, the two runs are one. -/

namespace Lockstep

variable {S T Op Obs : Type}

/-- One step: the next state and what the program observes. -/
abbrev Machine (S Op Obs : Type) := S → Op → S × Obs

abbrev Strategy (Op Obs : Type) := List Obs → Op

/-- The state after `n` steps and the observations, oldest first. -/
def drive (step : Machine S Op Obs) (prog : Strategy Op Obs) (start : S) : Nat → S × List Obs
  | 0 => (start, [])
  | n + 1 =>
    let (s, seen) := drive step prog start n
    let (s', o) := step s (prog seen)
    (s', seen ++ [o])

theorem drive_succ (step : Machine S Op Obs) (prog : Strategy Op Obs) (start : S) (n : Nat) :
    drive step prog start (n + 1) =
      ((step (drive step prog start n).1 (prog (drive step prog start n).2)).1,
        (drive step prog start n).2 ++
          [(step (drive step prog start n).1 (prog (drive step prog start n).2)).2]) := rfl

/-- Every step taken before step `n` meets `ok`. -/
def StepsOk (step : Machine S Op Obs) (ok : S → Op → Prop) (prog : Strategy Op Obs) (start : S)
    (n : Nat) : Prop :=
  ∀ m < n, ok (drive step prog start m).1 (prog (drive step prog start m).2)

theorem drive_rel {step : Machine S Op Obs} {step' : Machine T Op Obs} {R : S → T → Prop}
    {ok : S → Op → Prop} {s : S} {t : T} (h0 : R s t)
    (hstep : ∀ s t op, R s t → ok s op → R (step s op).1 (step' t op).1 ∧
      (step s op).2 = (step' t op).2)
    (prog : Strategy Op Obs) (n : Nat) (hok : StepsOk step ok prog s n) :
    R (drive step prog s n).1 (drive step' prog t n).1 ∧
      (drive step prog s n).2 = (drive step' prog t n).2 := by
  induction n with
  | zero => exact ⟨h0, rfl⟩
  | succ n ih =>
    obtain ⟨hr, ho⟩ := ih fun m hm => hok m (Nat.lt_succ_of_lt hm)
    obtain ⟨hr', ho'⟩ := hstep _ _ _ hr (hok n (Nat.lt_succ_self n))
    rw [drive_succ, drive_succ, ← ho]
    exact ⟨hr', by rw [ho']⟩

/-- A machine that a view of its state makes into another has the other's runs. -/
theorem drive_view {step : Machine S Op Obs} {step' : Machine T Op Obs} {view : S → T}
    (h : ∀ s op, step' (view s) op = (view (step s op).1, (step s op).2))
    (prog : Strategy Op Obs) (s : S) (n : Nat) :
    drive step' prog (view s) n = (view (drive step prog s n).1, (drive step prog s n).2) := by
  induction n with
  | zero => rfl
  | succ n ih => rw [drive_succ, drive_succ, ih, h]

section Trace

variable {Obs' : Type}

/-- The observations of a list of operations. -/
def trace (step : Machine S Op Obs) (s : S) : List Op → List Obs
  | [] => []
  | op :: ops => (step s op).2 :: trace step (step s op).1 ops

/-- Every step of the list meets `ok`. -/
def TraceOk (step : Machine S Op Obs) (ok : S → Op → Prop) (s : S) : List Op → Prop
  | [] => True
  | op :: ops => ok s op ∧ TraceOk step ok (step s op).1 ops

theorem trace_rel {step : Machine S Op Obs} {step' : Machine T Op Obs'} {R : S → T → Prop}
    {Q : Obs → Obs' → Prop} {ok : S → Op → Prop} {s : S} {t : T} (h0 : R s t)
    (hstep : ∀ s t op, R s t → ok s op → R (step s op).1 (step' t op).1 ∧
      Q (step s op).2 (step' t op).2)
    (ops : List Op) (hok : TraceOk step ok s ops) :
    List.Forall₂ Q (trace step s ops) (trace step' t ops) := by
  induction ops generalizing s t with
  | nil => exact .nil
  | cons op ops ih =>
    obtain ⟨hr, hq⟩ := hstep s t op h0 hok.1
    exact .cons hq (ih hr hok.2)

theorem TraceOk.imp {step : Machine S Op Obs} {ok ok' : S → Op → Prop} (h : ∀ s op, ok s op → ok' s op)
    {s : S} {ops : List Op} (hok : TraceOk step ok s ops) : TraceOk step ok' s ops := by
  induction ops generalizing s with
  | nil => trivial
  | cons op ops ih => exact ⟨h s op hok.1, ih hok.2⟩

/-- While the steps of both machines meet what is asked of them anyway, two runs observe the same
exactly when every step meets `ok`. -/
theorem trace_eq_iff {step : Machine S Op Obs} {step' : Machine T Op Obs} {R : S → T → Prop}
    {pre ok : S → Op → Prop} {pre' : T → Op → Prop}
    (hstep : ∀ s t op, R s t → pre s op → pre' t op → ok s op →
      R (step s op).1 (step' t op).1 ∧ (step s op).2 = (step' t op).2)
    (hbad : ∀ s t op, R s t → ¬ ok s op → (step s op).2 ≠ (step' t op).2)
    {s : S} {t : T} (h0 : R s t) (ops : List Op) (hpre : TraceOk step pre s ops)
    (hpre' : TraceOk step' pre' t ops) :
    trace step s ops = trace step' t ops ↔ TraceOk step ok s ops := by
  induction ops generalizing s t with
  | nil => exact iff_of_true rfl trivial
  | cons op ops ih =>
    rw [trace, trace, List.cons.injEq, TraceOk]
    by_cases hok : ok s op
    · obtain ⟨hr, ho⟩ := hstep s t op h0 hpre.1 hpre'.1 hok
      rw [ih hr hpre.2 hpre'.2]
      exact ⟨fun h => ⟨hok, h.2⟩, fun h => ⟨ho, h.2⟩⟩
    · exact iff_of_false (fun h => hbad s t op h0 hok h.1) fun h => hok h.1

/-- The state after a list of operations. -/
def after (step : Machine S Op Obs) (s : S) : List Op → S
  | [] => s
  | op :: ops => after step (step s op).1 ops

theorem after_append (step : Machine S Op Obs) (s : S) (xs ys : List Op) :
    after step s (xs ++ ys) = after step (after step s xs) ys := by
  induction xs generalizing s with
  | nil => rfl
  | cons op xs ih => exact ih _

theorem trace_append (step : Machine S Op Obs) (s : S) (xs ys : List Op) :
    trace step s (xs ++ ys) = trace step s xs ++ trace step (after step s xs) ys := by
  induction xs generalizing s with
  | nil => rfl
  | cons op xs ih => exact congrArg (_ :: ·) (ih _)

theorem trace_getLast? (step : Machine S Op Obs) (s : S) (ops : List Op) (op : Op) :
    (trace step s (ops ++ [op])).getLast? = some (step (after step s ops) op).2 := by
  rw [trace_append, trace, trace, List.getLast?_append, List.getLast?_singleton, Option.some_or]

end Trace

end Lockstep
