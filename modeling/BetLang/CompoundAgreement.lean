import BetLang.CompoundWalked
import BetLang.CompoundLower

/-! Both implementations of a compound assignment against what it is meant to do. -/

namespace BetLang.Compound

open Traced
open Interp (Value RunError)

section

variable {I : Type} {sc : Scope}

theorem lowerPlace_code {p : Target I} {code : List I} {place : Place I}
    (h : lowerPlace sc p = .ok (code, place)) : code = p.indexes := by
  induction p generalizing code place with
  | name x =>
    rw [lowerPlace] at h
    split at h
    · cases h
      rfl
    · cases h
  | field b f ih =>
    obtain ⟨⟨code', base⟩, hb, h⟩ := except_bind_ok h
    obtain ⟨⟨sid, place'⟩, hf, h⟩ := except_bind_ok h
    dsimp only at h
    split at h
    · cases h
    · split at h
      · cases h
        exact ih hb
      · cases h
  | index b i ih =>
    obtain ⟨⟨code', base⟩, hb, h⟩ := except_bind_ok h
    obtain ⟨ty, hty, h⟩ := except_bind_ok h
    obtain ⟨_, hok, h⟩ := except_bind_ok h
    cases h
    rw [ih hb, Target.indexes]

theorem lowerCompound_code {p : Target I} {e : I} {em : Emitted I}
    (h : lowerCompound sc p e = .ok em) : em.indexes = p.indexes ∧ em.value = e := by
  obtain ⟨⟨code, place⟩, hp, h⟩ := except_bind_ok h
  obtain ⟨ty, hty, h⟩ := except_bind_ok h
  dsimp only at h
  split at h
  · cases h
  · cases h
    exact ⟨lowerPlace_code hp, rfl⟩

end

namespace Machine

variable {σ ε E V A : Type} (m : Machine σ ε E V A)

theorem runIndexes_append (es fs : List E) {s s₁ s₂ : σ} {ws ws' : List (Event E V A)}
    (hes : Yields (m.runIndexes es) s () s₁ ws) (hfs : Yields (m.runIndexes fs) s₁ () s₂ ws') :
    Yields (m.runIndexes (es ++ fs)) s () s₂ (ws ++ ws') := by
  induction es generalizing s ws with
  | nil =>
    obtain ⟨-, rfl, rfl⟩ := Yields.pure_iff.mp hes
    exact hfs
  | cons e es ih =>
    obtain ⟨v, t, ws₁, hv, hrest, rfl⟩ := observe_bind.mp hes
    exact observe_bind.mpr ⟨v, t, _, hv, ih hrest, rfl⟩

/-- The code of the indexes runs as the indexes are meant to. -/
theorem runIndexes_of_evalIndexes {place : Place E} {p : Target E} {q : Target V} {s s' : σ}
    {ws : List (Event E V A)} (h : Yields (evalIndexes (m.side place) p) s q s' ws) :
    Yields (m.runIndexes p.indexes) s () s' ws := by
  induction p generalizing q s' ws with
  | name x =>
    obtain ⟨-, rfl, rfl⟩ := Yields.pure_iff.mp h
    exact Yields.pure_iff.mpr ⟨rfl, rfl, rfl⟩
  | field b f ih =>
    obtain ⟨q', s₁, ws₁, ws₂, hq, hf, rfl⟩ := Yields.bind_iff.mp h
    obtain ⟨-, rfl, rfl⟩ := Yields.pure_iff.mp hf
    rw [List.append_nil]
    exact ih hq
  | index b i ih =>
    obtain ⟨q', s₁, ws₁, ws₂, hq, hi, rfl⟩ := Yields.bind_iff.mp h
    obtain ⟨v, t, ws₃, hv, hret, rfl⟩ := observe_bind.mp hi
    obtain ⟨-, rfl, rfl⟩ := Yields.pure_iff.mp hret
    refine m.runIndexes_append _ _ (ih hq) ?_
    exact observe_bind.mpr ⟨v, _, [], hv, Yields.pure_iff.mpr ⟨rfl, rfl, rfl⟩, rfl⟩

/-- The place as the assignment reads it. -/
def addressNow (place : Place E) (s : σ) : Except ε A :=
  m.address place.root (place.proj.map (·.map fun i => m.operand i s)) s

/-- The right-hand side changes neither where the place is nor what is there. -/
def Undisturbed (place : Place E) (p : Target E) (e : E) (s : σ) : Prop :=
  ∀ q s₁ ws a old rhs s₂, Yields (evalIndexes (m.side place) p) s q s₁ ws →
    m.address place.root (fill place.proj q.indexes) s₁ = .ok a → m.load a s₁ = .ok old →
    m.eval e s₁ = .ok (rhs, s₂) → m.addressNow place s₂ = .ok a ∧ m.load a s₂ = .ok old

theorem operand_of_eval {e : E} {s s' : σ} {v : V} (h : m.eval e s = .ok (v, s')) :
    m.operand e s' = v := by
  rw [eval] at h
  cases hc : m.code e s with
  | error err =>
    rw [hc] at h
    cases h
  | ok t =>
    rw [hc] at h
    cases h
    rfl

theorem assign_iff {place : Place E} {e : E} {s s' : σ} {tr : List (Event E V A)} :
    Yields (m.assign place e) s () s' tr ↔ ∃ a cur new, m.addressNow place s = .ok a ∧
      m.load a s = .ok cur ∧ m.binop cur (m.operand e s) = .ok new ∧
      m.store a new s = .ok s' ∧
      tr = [.operate cur (m.operand e s), .store a new] := by
  simp only [assign, Yields.get_bind, Yields.ofExcept_bind, Yields.report_bind, update_bind,
    Yields.report_iff]
  constructor
  · rintro ⟨a, ha, cur, hcur, new, hnew, _, ⟨_, hst, rfl, rfl⟩, rfl⟩
    exact ⟨a, cur, new, ha, hcur, hnew, hst, rfl⟩
  · rintro ⟨a, cur, new, ha, hcur, hnew, hst, rfl⟩
    exact ⟨a, ha, cur, hcur, new, hnew, _, ⟨_, hst, rfl, rfl⟩, rfl⟩

/-- The emitted code is the intended run exactly where the right-hand side leaves the place and its
value alone: the old value is read after it. -/
theorem run_eq_once_iff {sc : Scope} {p : Target E} {e : E} {em : Emitted E} {s : σ}
    (hlow : lowerCompound sc p e = .ok em)
    (hok : ((once (m.side em.place) p e).run s).outcome = .ok ()) :
    (m.run em).run s = (once (m.side em.place) p e).run s ↔ m.Undisturbed em.place p e s := by
  obtain ⟨hcode, rfl⟩ := lowerCompound_code hlow
  cases hr : (once (m.side em.place) p em.value).run s with
  | mk r s' tr =>
    rw [hr] at hok
    cases hok
    obtain ⟨q, s₁, ws, a, old, rhs, s₂, new, hq, ha, hold, he, hnew, hst, rfl⟩ := once_iff.mp hr
    have hrun := m.runIndexes_of_evalIndexes hq
    rw [← hcode] at hrun
    have hrhs := m.operand_of_eval he
    constructor
    · intro h q' t₁ ws' a' old' rhs' t₂ hq' ha' hold' he'
      obtain ⟨_, u₁, vs, _, hi, hrest, htr⟩ := Yields.bind_iff.mp h
      obtain ⟨-, rfl, rfl⟩ := hrun.unique hi
      obtain ⟨v, u₂, vs', hv, hassign, rfl⟩ := observe_bind.mp hrest
      obtain ⟨rfl, rfl⟩ := Prod.mk.inj (Except.ok.inj (he.symm.trans hv))
      obtain ⟨b, cur, new', hb, hcur, hnew', hst', rfl⟩ := m.assign_iff.mp hassign
      obtain ⟨rfl, rfl, rfl⟩ := hq.unique hq'
      obtain rfl := Except.ok.inj (ha.symm.trans ha')
      obtain rfl := Except.ok.inj (hold.symm.trans hold')
      obtain ⟨rfl, rfl⟩ := Prod.mk.inj (Except.ok.inj (he.symm.trans he'))
      have htr := List.append_cancel_left htr
      simp only [List.cons.injEq, Event.operate.injEq, Event.store.injEq] at htr
      obtain ⟨-, ⟨rfl, -⟩, ⟨rfl, -⟩, -⟩ := htr
      exact ⟨hb, hcur⟩
    · intro h
      obtain ⟨haddr, hcur⟩ := h q s₁ ws a old rhs s₂ hq ha hold he
      refine hrun.bind (observe_bind.mpr ⟨rhs, s₂, _, he, ?_, rfl⟩)
      exact m.assign_iff.mpr ⟨a, old, new, haddr, hcur, by rw [hrhs]; exact hnew, hst, by rw [hrhs]⟩

end Machine

/-- Both sides meet the intended run exactly where the interpreter finds a target without an index
that is a name or starts from a local, and the right-hand side disturbs no place of the code. -/
theorem compound_assignment_agrees_iff {R E σ ε V A : Type} (ev : Evaluation R E)
    (names : String → Except RunError Value) (apply : Value → Value → Except RunError Value)
    (m : Machine σ ε E V A) {sc : Scope} {p : Target E} {e : E} {em : Emitted E} {s : Frame R}
    {t : σ} (hlow : lowerCompound sc p e = .ok em)
    (hs : ((once (interpSide ev apply) p e).run s).outcome = .ok ())
    (ht : ((once (m.side em.place) p e).run t).outcome = .ok ()) :
    (execCompound ev names apply p e).run s = (once (interpSide ev apply) p e).run s ∧
      (m.run em).run t = (once (m.side em.place) p e).run t ↔
    (p.indexes = [] ∧ (p.isName = true ∨ (s.locals.lookup p.root).isSome)) ∧
      m.Undisturbed em.place p e t :=
  and_congr (execCompound_eq_once_iff ev names apply hs) (m.run_eq_once_iff hlow ht)

/-- A literal, or a call that counts itself and yields the count before. -/
inductive Call where
  | one
  | next

def counting : Evaluation Nat Call where
  run e s :=
    match e with
    | .one => .ok (.int 1 .word, s)
    | .next => .ok (.int s.rest .word, { s with rest := s.rest + 1 })
  keeps {e s s' v} h x := by
    cases e <;> cases h <;> rfl

def add : Value → Value → Except RunError Value
  | .int a ty, .int b _ => .ok (.int (a + b) ty)
  | _, _ => .error (.type "not numbers")

def noNames (x : String) : Except RunError Value := .error (.undefined x)

/-- One integer variable, which the counting call counts in. -/
def oneVariable : Machine Int Unit Call Int Unit where
  code e s :=
    match e with
    | .one => .ok s
    | .next => .ok (s + 1)
  operand e s :=
    match e with
    | .one => 1
    | .next => s - 1
  address _ _ _ := .ok ()
  load _ s := .ok s
  binop a b := .ok (a + b)
  store _ v _ := .ok v

def oneScope : Scope where
  defs := ⟨[], [], [], [], [], []⟩
  scope _ := some 0
  localTy _ := some (.int .w64 true)

theorem compound_assignment_agrees_one :
    (execCompound counting noNames add (.name "x") .one).run ⟨[("x", .int 5 .word)], [], [], 0⟩ =
        ⟨.ok (), ⟨[("x", .int 6 .word)], [], [], 0⟩,
          [.operand .one (.int 1 .word), .operate (.int 5 .word) (.int 1 .word),
            .store ⟨.local "x", []⟩ (.int 6 .word)]⟩ ∧
      (oneVariable.run ⟨[], .one, ⟨0, []⟩⟩).run 5 =
        ⟨.ok (), 6, [.operand .one 1, .operate 5 1, .store () 6]⟩ := by
  have hlow : lowerCompound oneScope (.name "x") Call.one = .ok ⟨[], .one, ⟨0, []⟩⟩ := rfl
  refine (compound_assignment_agrees_iff counting noNames add oneVariable (p := .name "x") hlow
    (s := ⟨[("x", .int 5 .word)], [], [], 0⟩) (t := 5) rfl rfl).mpr ⟨⟨rfl, .inl rfl⟩, ?_⟩
  rintro q s₁ ws a old rhs s₂ - - hold he
  cases hold
  cases he
  exact ⟨rfl, rfl⟩

/-- `a[next()] += 1` reads the first element and writes the second; in the emitted code
`x += next()` adds to the `x` that the call leaves. -/
theorem index_evaluated_twice :
    (execCompound counting noNames add (.index (.name "a") .next) .one).run
        ⟨[("a", .array [.int 10 .word, .int 20 .word])], [], [], 0⟩ =
      ⟨.ok (), ⟨[("a", .array [.int 10 .word, .int 11 .word])], [], [], 2⟩,
        [.index .next (.int 0 .word), .operand .one (.int 1 .word),
          .operate (.int 10 .word) (.int 1 .word), .index .next (.int 1 .word),
          .store ⟨.local "a", [.index 1]⟩ (.int 11 .word)]⟩ ∧
    (once (interpSide counting add) (.index (.name "a") .next) .one).run
        ⟨[("a", .array [.int 10 .word, .int 20 .word])], [], [], 0⟩ =
      ⟨.ok (), ⟨[("a", .array [.int 11 .word, .int 20 .word])], [], [], 1⟩,
        [.index .next (.int 0 .word), .operand .one (.int 1 .word),
          .operate (.int 10 .word) (.int 1 .word),
          .store ⟨.local "a", [.index 0]⟩ (.int 11 .word)]⟩ ∧
    (oneVariable.run ⟨[], .next, ⟨0, []⟩⟩).run 5 =
      ⟨.ok (), 11, [.operand .next 5, .operate 6 5, .store () 11]⟩ ∧
    (once (oneVariable.side ⟨0, []⟩) (.name "x") .next).run 5 =
      ⟨.ok (), 10, [.operand .next 5, .operate 5 5, .store () 10]⟩ :=
  ⟨rfl, rfl, rfl, rfl⟩

end BetLang.Compound
