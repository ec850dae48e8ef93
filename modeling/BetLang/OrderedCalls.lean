import Mathlib.Data.Fintype.Card
import Mathlib.Data.Set.Finite.Basic
import Mathlib.Logic.Relation
import Mathlib.Order.WellFounded
import Mathlib.Tactic.Common

/-! Recursion where a call makes its inner calls in order and stops at the first that fails: what a
run with enough fuel returns, and when there is enough. -/

namespace OrderedCalls

variable {X ε R α β : Type}

/-- `none` is a call that has not come back. -/
abbrev Fueled (ε α : Type) := Option (Except ε α)

def andThen (o : Fueled ε α) (f : α → Fueled ε β) : Fueled ε β :=
  match o with
  | none => none
  | some (.error e) => some (.error e)
  | some (.ok a) => f a

@[simp] theorem andThen_none (f : α → Fueled ε β) : andThen none f = none := rfl

@[simp] theorem andThen_error (e : ε) (f : α → Fueled ε β) :
    andThen (some (.error e)) f = some (.error e) := rfl

@[simp] theorem andThen_ok (a : α) (f : α → Fueled ε β) : andThen (some (.ok a)) f = f a := rfl

theorem andThen_eq_ok {o : Fueled ε α} {f : α → Fueled ε β} {b : β}
    (h : andThen o f = some (.ok b)) : ∃ a, o = some (.ok a) ∧ f a = some (.ok b) := by
  cases o with
  | none => cases h
  | some r =>
    cases r with
    | error e => cases h
    | ok a => exact ⟨a, rfl, h⟩

theorem andThen_assoc {γ : Type} (o : Fueled ε α) (f : α → Fueled ε β) (g : β → Fueled ε γ) :
    andThen (andThen o f) g = andThen o fun a => andThen (f a) g := by
  cases o with
  | none => rfl
  | some r => cases r <;> rfl

theorem andThen_return (o : Fueled ε α) : andThen o (fun a => some (.ok a)) = o := by
  cases o with
  | none => rfl
  | some r => cases r <;> rfl

/-- The calls in order, up to the first that fails. -/
def inOrder (f : X → Fueled ε R) : List X → Fueled ε (List R)
  | [] => some (.ok [])
  | x :: xs => andThen (f x) fun r => andThen (inOrder f xs) fun rs => some (.ok (r :: rs))

theorem inOrder_map {Y : Type} (f : Y → Fueled ε R) (g : X → Y) (xs : List X) :
    inOrder f (xs.map g) = inOrder (fun x => f (g x)) xs := by
  induction xs with
  | nil => rfl
  | cons x xs ih => rw [List.map_cons, inOrder, inOrder, ih]

theorem inOrder_singleton (f : X → Fueled ε R) (x : X) :
    inOrder f [x] = andThen (f x) fun r => some (.ok [r]) := rfl

theorem inOrder_mono {f g : X → Fueled ε R} (h : ∀ x r, f x = some r → g x = some r) {xs : List X}
    {r : Except ε (List R)} (hr : inOrder f xs = some r) : inOrder g xs = some r := by
  induction xs generalizing r with
  | nil => exact hr
  | cons x xs ih =>
    simp only [inOrder] at hr ⊢
    cases hx : f x with
    | none =>
      rw [hx] at hr
      cases hr
    | some rx =>
      rw [hx] at hr
      rw [h x rx hx]
      cases rx with
      | error e => exact hr
      | ok a =>
        rw [andThen_ok] at hr ⊢
        cases hxs : inOrder f xs with
        | none =>
          rw [hxs] at hr
          cases hr
        | some rxs =>
          rw [hxs] at hr
          rw [ih hxs]
          exact hr

/-- What a call calls, in order, and what it makes of the results. -/
structure Plan (X ε R : Type) where
  calls : X → List X
  combine : X → List R → Except ε R

variable (p : Plan X ε R)

def Plan.run : Nat → X → Fueled ε R
  | 0, _ => none
  | n + 1, x => andThen (inOrder (Plan.run n) (p.calls x)) fun rs => some (p.combine x rs)

mutual

/-- A call that comes back with a result. -/
inductive Returns : X → R → Prop where
  | intro {x : X} {rs : List R} {r : R} (hcalls : ReturnsAll (p.calls x) rs)
    (hcombine : p.combine x rs = .ok r) : Returns x r

inductive ReturnsAll : List X → List R → Prop where
  | nil : ReturnsAll [] []
  | cons {x : X} {xs : List X} {r : R} {rs : List R} (hx : Returns x r) (hxs : ReturnsAll xs rs) :
    ReturnsAll (x :: xs) (r :: rs)

end

variable {p}

theorem run_succ_mono {n : Nat} {x : X} {r : Except ε R} (h : p.run n x = some r) :
    p.run (n + 1) x = some r := by
  induction n generalizing x r with
  | zero => cases h
  | succ n ih =>
    rw [Plan.run] at h ⊢
    cases hc : inOrder (p.run n) (p.calls x) with
    | none =>
      rw [hc] at h
      cases h
    | some rs =>
      rw [hc] at h
      rw [inOrder_mono (fun y r hy => ih hy) hc]
      exact h

theorem run_mono {n m : Nat} {x : X} {r : Except ε R} (hnm : n ≤ m) (h : p.run n x = some r) :
    p.run m x = some r := by
  induction hnm with
  | refl => exact h
  | step _ ih => exact run_succ_mono ih

theorem run_unique {n m : Nat} {x : X} {r r' : Except ε R} (h : p.run n x = some r)
    (h' : p.run m x = some r') : r = r' := by
  have hn := run_mono (Nat.le_max_left n m) h
  have hm := run_mono (Nat.le_max_right n m) h'
  exact Option.some.inj (hn.symm.trans hm)

theorem inOrder_append {f : X → Fueled ε R} {xs ys : List X} {rs : List R}
    (h : inOrder f xs = some (.ok rs)) :
    inOrder f (xs ++ ys) = andThen (inOrder f ys) fun rs' => some (.ok (rs ++ rs')) := by
  induction xs generalizing rs with
  | nil =>
    cases h
    simp only [List.nil_append]
    cases inOrder f ys with
    | none => rfl
    | some r => cases r <;> rfl
  | cons x xs ih =>
    obtain ⟨r, hr, h⟩ := andThen_eq_ok h
    obtain ⟨rs', hrs', h⟩ := andThen_eq_ok h
    cases h
    rw [List.cons_append, inOrder, hr, andThen_ok, ih hrs']
    cases inOrder f ys with
    | none => rfl
    | some r => cases r <;> rfl

mutual

theorem Returns.exists_run {x : X} {r : R} : Returns p x r → ∃ n, p.run n x = some (.ok r)
  | .intro hcalls hcombine => by
    obtain ⟨n, hn⟩ := hcalls.exists_run
    exact ⟨n + 1, by rw [Plan.run, hn, andThen_ok, hcombine]⟩

theorem ReturnsAll.exists_run {xs : List X} {rs : List R} :
    ReturnsAll p xs rs → ∃ n, inOrder (p.run n) xs = some (.ok rs)
  | .nil => ⟨0, rfl⟩
  | .cons hx hxs => by
    obtain ⟨n, hn⟩ := hx.exists_run
    obtain ⟨m, hm⟩ := hxs.exists_run
    refine ⟨max n m, ?_⟩
    have hm' := inOrder_mono (fun y r hy => run_mono (Nat.le_max_right n m) hy) hm
    rw [inOrder, run_mono (Nat.le_max_left n m) hn, andThen_ok, hm', andThen_ok]

end

theorem returnsAll_of_inOrder {n : Nat} (ih : ∀ x r, p.run n x = some (.ok r) → Returns p x r)
    {xs : List X} {rs : List R} (h : inOrder (p.run n) xs = some (.ok rs)) :
    ReturnsAll p xs rs := by
  induction xs generalizing rs with
  | nil =>
    cases h
    exact .nil
  | cons x xs ihxs =>
    obtain ⟨r, hr, h⟩ := andThen_eq_ok h
    obtain ⟨rs', hrs', h⟩ := andThen_eq_ok h
    cases h
    exact .cons (ih x r hr) (ihxs hrs')

theorem returns_of_run {n : Nat} {x : X} {r : R} (h : p.run n x = some (.ok r)) :
    Returns p x r := by
  induction n generalizing x r with
  | zero => cases h
  | succ n ih =>
    obtain ⟨rs, hrs, h⟩ := andThen_eq_ok h
    exact .intro (returnsAll_of_inOrder (fun x r => ih) hrs) (Option.some.inj h)

variable (p) in
/-- A call that is made: all calls before it come back with a result. -/
def Reached (y x : X) : Prop :=
  ∃ pre suf rs, p.calls x = pre ++ y :: suf ∧ ReturnsAll p pre rs

theorem ReturnsAll.append {xs ys : List X} {rs rs' : List R} (h : ReturnsAll p xs rs)
    (h' : ReturnsAll p ys rs') : ReturnsAll p (xs ++ ys) (rs ++ rs') := by
  induction xs generalizing rs with
  | nil =>
    cases h
    exact h'
  | cons x xs ih =>
    cases h with
    | cons hx hxs => exact .cons hx (ih hxs)

/-- Calls that come back come back at every fuel at which all the calls do. -/
theorem inOrder_of_returnsAll {n : Nat} {pre : List X} {rs : List R} {ys : List X}
    {r : Except ε (List R)} (hpre : ReturnsAll p pre rs)
    (h : inOrder (p.run n) (pre ++ ys) = some r) : inOrder (p.run n) pre = some (.ok rs) := by
  induction pre generalizing rs r with
  | nil =>
    cases hpre
    rfl
  | cons x xs ih =>
    cases hpre with
    | cons hx hxs =>
      obtain ⟨m, hm⟩ := hx.exists_run
      rw [List.cons_append, inOrder] at h
      cases hr : p.run n x with
      | none =>
        rw [hr] at h
        cases h
      | some rx =>
        obtain rfl := run_unique hr hm
        rw [hr, andThen_ok] at h
        cases hrest : inOrder (p.run n) (xs ++ ys) with
        | none =>
          rw [hrest] at h
          cases h
        | some rrest => rw [inOrder, hr, andThen_ok, ih hxs hrest, andThen_ok]

theorem acc_of_run {n : Nat} {x : X} {r : Except ε R} (h : p.run n x = some r) :
    Acc (Reached p) x := by
  induction n generalizing x r with
  | zero => cases h
  | succ n ih =>
    refine .intro x fun y ⟨pre, suf, rs, hcalls, hpre⟩ => ?_
    rw [Plan.run, hcalls] at h
    cases hall : inOrder (p.run n) (pre ++ y :: suf) with
    | none =>
      rw [hall] at h
      cases h
    | some rall =>
      rw [inOrder_append (inOrder_of_returnsAll hpre hall), inOrder] at hall
      cases hy : p.run n y with
      | none =>
        rw [hy] at hall
        cases hall
      | some ry => exact ih hy

theorem inOrder_terminates {pre suf : List X} {rs : List R} {x : X}
    (hx : ∀ y, Reached p y x → ∃ n r, p.run n y = some r) (hcalls : p.calls x = pre ++ suf)
    (hpre : ReturnsAll p pre rs) : ∃ n r, inOrder (p.run n) suf = some r := by
  induction suf generalizing pre rs with
  | nil => exact ⟨0, _, rfl⟩
  | cons y suf ih =>
    obtain ⟨n, r, hn⟩ := hx y ⟨pre, suf, rs, hcalls, hpre⟩
    cases r with
    | error e => exact ⟨n, .error e, by rw [inOrder, hn]; rfl⟩
    | ok a =>
      have hcalls' : p.calls x = (pre ++ [y]) ++ suf := by rw [hcalls, List.append_assoc]; rfl
      obtain ⟨m, rm, hm⟩ := ih hcalls' (hpre.append (.cons (returns_of_run hn) .nil))
      have hn' := run_mono (Nat.le_max_left n m) hn
      have hm' := inOrder_mono (fun y r hy => run_mono (Nat.le_max_right n m) hy) hm
      refine ⟨max n m, ?_⟩
      rw [inOrder, hn', andThen_ok, hm']
      cases rm with
      | error e => exact ⟨_, rfl⟩
      | ok rs' => exact ⟨_, rfl⟩

theorem Reached.mem_calls {x y : X} (h : Reached p y x) : y ∈ p.calls x := by
  obtain ⟨pre, suf, rs, hcalls, _⟩ := h
  rw [hcalls]
  exact List.mem_append_right _ (List.mem_cons_self ..)

/-- A call stays in a set that has all that its elements call. -/
theorem finite_below {s : Set X} (hs : s.Finite) (hclosed : ∀ x ∈ s, ∀ y ∈ p.calls x, y ∈ s)
    {x : X} (hx : x ∈ s) : {y | Relation.ReflTransGen (Reached p) y x}.Finite := by
  refine hs.subset fun y hy => ?_
  induction hy using Relation.ReflTransGen.head_induction_on with
  | refl => exact hx
  | head hab _ ih => exact hclosed _ ih _ hab.mem_calls

/-- Some fuel is enough exactly where no chain of calls that are made is infinite. -/
theorem terminates_iff {x : X} : (∃ n r, p.run n x = some r) ↔ Acc (Reached p) x := by
  constructor
  · rintro ⟨n, r, h⟩
    exact acc_of_run h
  · intro h
    induction h with
    | intro x _ ih =>
      obtain ⟨n, r, hn⟩ := inOrder_terminates ih (List.nil_append _).symm .nil
      cases r with
      | error e => exact ⟨n + 1, .error e, by rw [Plan.run, hn]; rfl⟩
      | ok rs => exact ⟨n + 1, p.combine x rs, by rw [Plan.run, hn]; rfl⟩

section Cycles

variable {r : X → X → Prop} {x : X}

theorem not_rel_self_of_acc (h : Acc r x) : ¬r x x := by
  induction h with
  | intro x _ ih =>
    intro hx
    exact ih x hx hx

/-- The descent between what is below an element. -/
def DescendsBelow (r : X → X → Prop) (x : X) (a b : {y | Relation.ReflTransGen r y x}) : Prop :=
  Relation.TransGen r a.1 b.1

/-- Below finitely many, a relation descends exactly where it has no cycle. -/
theorem acc_iff_no_cycle (hfin : {y | Relation.ReflTransGen r y x}.Finite) :
    Acc r x ↔ ∀ y, Relation.ReflTransGen r y x → ¬Relation.TransGen r y y := by
  constructor
  · intro h y hy
    have hacc : Acc r y := by
      induction hy using Relation.ReflTransGen.head_induction_on with
      | refl => exact h
      | head hab _ ih => exact ih.inv hab
    exact not_rel_self_of_acc hacc.transGen
  · intro h
    have : Finite {y | Relation.ReflTransGen r y x} := hfin
    have : IsTrans _ (DescendsBelow r x) := ⟨fun _ _ _ => Relation.TransGen.trans⟩
    have : Std.Irrefl (DescendsBelow r x) := ⟨fun a => h a.1 a.2⟩
    have hwf := Finite.wellFounded_of_trans_of_irrefl (DescendsBelow r x)
    have hbelow (a : {y | Relation.ReflTransGen r y x}) : Acc r a.1 := by
      induction a using hwf.induction with
      | h a ih =>
        refine .intro a.1 fun y hy => ?_
        exact ih ⟨y, .head hy a.2⟩ (.single hy)
    exact hbelow ⟨x, .refl⟩

end Cycles

end OrderedCalls
