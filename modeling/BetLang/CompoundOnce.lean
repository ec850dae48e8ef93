import BetLang.TracedRuns

/-! What a compound assignment is meant to do, over any store: every index expression once, the old
value before the right-hand side, one operation, and one store at that same place. -/

namespace BetLang.Compound

open Traced

/-- An assignment target over its index expressions. -/
inductive Target (E : Type) where
  | name (name : String)
  | field (base : Target E) (name : String)
  | index (base : Target E) (index : E)

namespace Target

variable {E : Type}

def root : Target E → String
  | name x => x
  | field b _ => b.root
  | index b _ => b.root

/-- The index expressions, from the root outwards. -/
def indexes : Target E → List E
  | name _ => []
  | field b _ => b.indexes
  | index b i => b.indexes ++ [i]

end Target

/-- What an assignment does on the way: an index or the right-hand side has been evaluated, the
operator has been applied, a place has been written. -/
inductive Event (E V A : Type) where
  | index (e : E) (v : V)
  | operand (e : E) (v : V)
  | operate (old rhs : V)
  | store (place : A) (v : V)

/-- A store with its expressions: `locate` is the place of a target whose indexes have values. -/
structure Side (σ ε E V A : Type) where
  eval : E → σ → Except ε (V × σ)
  locate : Target V → σ → Except ε A
  load : A → σ → Except ε V
  apply : V → V → Except ε V
  store : A → V → σ → Except ε σ

variable {σ ε E V A : Type}

/-- An evaluation, with the event that reports its value. -/
def observe (report : E → V → Event E V A) (eval : E → σ → Except ε (V × σ)) (e : E) :
    Comp σ (Event E V A) ε V := fun s =>
  match eval e s with
  | .ok (v, s') => ⟨.ok v, s', [report e v]⟩
  | .error err => ⟨.error err, s, []⟩

def update (f : σ → Except ε σ) : Comp σ (Event E V A) ε Unit := fun s =>
  match f s with
  | .ok s' => ⟨.ok (), s', []⟩
  | .error err => ⟨.error err, s, []⟩

def evalIndexes (side : Side σ ε E V A) : Target E → Comp σ (Event E V A) ε (Target V)
  | .name x => pure (.name x)
  | .field b f => do
    let b ← evalIndexes side b
    return .field b f
  | .index b i => do
    let b ← evalIndexes side b
    let v ← observe .index side.eval i
    return .index b v

/-- `p op= e`, with every index of `p` evaluated once. -/
def once (side : Side σ ε E V A) (p : Target E) (e : E) : Comp σ (Event E V A) ε Unit := do
  let q ← evalIndexes side p
  let s ← get
  let a ← ofExcept (side.locate q s)
  let old ← ofExcept (side.load a s)
  let rhs ← observe .operand side.eval e
  let new ← ofExcept (side.apply old rhs)
  report [.operate old rhs]
  update (side.store a new)
  report [.store a new]

def Event.isIndex : Event E V A → Bool
  | .index _ _ => true
  | _ => false

theorem observe_iff {report : E → V → Event E V A} {eval : E → σ → Except ε (V × σ)} {e : E}
    {s s' : σ} {v : V} {ws : List (Event E V A)} :
    Yields (observe report eval e) s v s' ws ↔ eval e s = .ok (v, s') ∧ [report e v] = ws := by
  simp only [Yields, observe, Comp.run]
  cases eval e s with
  | error err => simp
  | ok r =>
    obtain ⟨w, t⟩ := r
    simp only [Result.mk.injEq, Except.ok.injEq, Prod.mk.injEq]
    constructor
    · rintro ⟨rfl, rfl, rfl⟩
      exact ⟨⟨rfl, rfl⟩, rfl⟩
    · rintro ⟨⟨rfl, rfl⟩, rfl⟩
      exact ⟨rfl, rfl, rfl⟩

theorem update_iff {f : σ → Except ε σ} {s s' : σ} {u : Unit} {ws : List (Event E V A)} :
    Yields (update f : Comp σ (Event E V A) ε Unit) s u s' ws ↔ f s = .ok s' ∧ [] = ws := by
  simp only [Yields, update, Comp.run]
  cases f s <;> simp

theorem observe_bind {α : Type} {report : E → V → Event E V A} {eval : E → σ → Except ε (V × σ)}
    {e : E} {f : V → Comp σ (Event E V A) ε α} {s s' : σ} {b : α} {tr : List (Event E V A)} :
    Yields (observe report eval e >>= f) s b s' tr ↔
      ∃ v s₁ ws, eval e s = .ok (v, s₁) ∧ Yields (f v) s₁ b s' ws ∧ tr = report e v :: ws := by
  rw [Yields.bind_iff]
  simp only [observe_iff]
  constructor
  · rintro ⟨v, s₁, _, ws, ⟨hv, rfl⟩, h, rfl⟩
    exact ⟨v, s₁, ws, hv, h, rfl⟩
  · rintro ⟨v, s₁, ws, hv, h, rfl⟩
    exact ⟨v, s₁, _, ws, ⟨hv, rfl⟩, h, rfl⟩

theorem update_bind {α : Type} {f : σ → Except ε σ} {g : Unit → Comp σ (Event E V A) ε α}
    {s s' : σ} {b : α} {tr : List (Event E V A)} :
    Yields (update f >>= g) s b s' tr ↔ ∃ s₁, f s = .ok s₁ ∧ Yields (g ()) s₁ b s' tr := by
  rw [Yields.bind_iff]
  simp only [update_iff]
  constructor
  · rintro ⟨_, s₁, _, _, ⟨hs, rfl⟩, h, rfl⟩
    exact ⟨s₁, hs, h⟩
  · rintro ⟨s₁, hs, h⟩
    exact ⟨(), s₁, [], tr, ⟨hs, rfl⟩, h, rfl⟩

/-- The intended run, step by step. -/
theorem once_iff {side : Side σ ε E V A} {p : Target E} {e : E} {s s' : σ} {u : Unit}
    {tr : List (Event E V A)} :
    Yields (once side p e) s u s' tr ↔ ∃ q s₁ ws a old rhs s₂ new,
      Yields (evalIndexes side p) s q s₁ ws ∧ side.locate q s₁ = .ok a ∧
      side.load a s₁ = .ok old ∧ side.eval e s₁ = .ok (rhs, s₂) ∧
      side.apply old rhs = .ok new ∧ side.store a new s₂ = .ok s' ∧
      tr = ws ++ [.operand e rhs, .operate old rhs, .store a new] := by
  simp only [once, Yields.bind_iff (x := evalIndexes side p), Yields.get_bind, Yields.ofExcept_bind,
    Yields.report_bind, Yields.report_iff, observe_bind, update_bind]
  constructor
  · rintro ⟨q, s₁, ws, _, hq, ⟨a, ha, old, hold, rhs, s₂, _, hrhs, ⟨new, hnew, _,
      ⟨_, hst, rfl, rfl⟩, rfl⟩, rfl⟩, rfl⟩
    exact ⟨q, s₁, ws, a, old, rhs, s₂, new, hq, ha, hold, hrhs, hnew, hst, rfl⟩
  · rintro ⟨q, s₁, ws, a, old, rhs, s₂, new, hq, ha, hold, hrhs, hnew, hst, rfl⟩
    exact ⟨q, s₁, ws, _, hq, ⟨a, ha, old, hold, rhs, s₂, _, hrhs, ⟨new, hnew, _,
      ⟨_, hst, rfl, rfl⟩, rfl⟩, rfl⟩, rfl⟩

theorem counts_observe {report : E → V → Event E V A} {eval : E → σ → Except ε (V × σ)} {e : E}
    {n : Nat} (h : ∀ v, [report e v].countP Event.isIndex = n) :
    Counts Event.isIndex n n (observe report eval e) := by
  intro s v hv
  simp only [observe, Comp.run] at hv ⊢
  cases he : eval e s with
  | error err =>
    rw [he] at hv
    cases hv
  | ok r => simp [h]

theorem counts_update {f : σ → Except ε σ} :
    Counts Event.isIndex 0 0 (update f : Comp σ (Event E V A) ε Unit) := by
  intro s u hu
  simp only [update, Comp.run] at hu ⊢
  cases hf : f s with
  | error err =>
    rw [hf] at hu
    cases hu
  | ok s' => exact ⟨Nat.le_refl _, Nat.le_refl _⟩

theorem counts_evalIndexes (side : Side σ ε E V A) (p : Target E) :
    Counts Event.isIndex p.indexes.length p.indexes.length (evalIndexes side p) := by
  induction p with
  | name x => exact .pure
  | field b f ih => exact ih.bind_free fun _ => .pure
  | index b i ih =>
    rw [Target.indexes, List.length_append]
    exact ih.bind fun _ => .bind_free (counts_observe fun _ => rfl) fun _ => .pure

/-- The intended run reports as many indexes as there are. -/
theorem counts_once (side : Side σ ε E V A) (p : Target E) (e : E) :
    Counts Event.isIndex p.indexes.length p.indexes.length (once side p e) := by
  refine (counts_evalIndexes side p).bind_free fun q => .bind_free .get fun s => ?_
  refine .bind_free .ofExcept fun a => .bind_free .ofExcept fun old => ?_
  refine .bind_free (counts_observe fun _ => rfl) fun rhs => .bind_free .ofExcept fun new => ?_
  exact .bind_free (.report rfl) fun _ => .bind_free counts_update fun _ => .report rfl

end BetLang.Compound
