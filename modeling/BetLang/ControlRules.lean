import BetLang.ControlExec

/-! Rules that relate a computation of the source to the blocks at a position: the blocks reach what
the computation results in, and the computation has a result when the blocks come to an end. -/

namespace BetLang.Control

open Cfg Interp Mir

variable {Op σ : Type}

section Runs

variable (sem : Sem Op σ) (mir : List (Blocks (Instr Op) (Term Op)))

def Reaches (c c' : Config Op σ) : Prop := ∃ m, run sem mir m c = some c'

def Ends (m : Nat) (c : Config Op σ) : Prop := ∃ out, run sem mir m c = some (.final out)

variable {sem mir} {c c' c'' : Config Op σ} {m n : Nat}

theorem run_succ (hs : step sem mir c = some c') (n : Nat) :
    run sem mir (n + 1) c = run sem mir n c' := by
  rw [run, hs]
  rfl

theorem run_add (m n : Nat) (c : Config Op σ) :
    run sem mir (m + n) c = (run sem mir m c).bind (run sem mir n) := by
  induction m generalizing c with
  | zero => rw [Nat.zero_add]; rfl
  | succ m ih =>
    rw [Nat.succ_add, run, run]
    cases step sem mir c with
    | none => rfl
    | some c' => exact ih c'

theorem Reaches.refl (c : Config Op σ) : Reaches sem mir c c := ⟨0, rfl⟩

theorem Reaches.trans (h : Reaches sem mir c c') (h' : Reaches sem mir c' c'') :
    Reaches sem mir c c'' := by
  obtain ⟨m, hm⟩ := h
  obtain ⟨n, hn⟩ := h'
  refine ⟨m + n, ?_⟩
  rw [run_add, hm]
  exact hn

theorem Reaches.step (hs : Mir.step sem mir c = some c') (h : Reaches sem mir c' c'') :
    Reaches sem mir c c'' := by
  obtain ⟨n, hn⟩ := h
  exact ⟨n + 1, by rw [run_succ hs, hn]⟩

theorem Reaches.single (hs : Mir.step sem mir c = some c') : Reaches sem mir c c' :=
  .step hs (.refl c')

/-- The steps to the end from a configuration that is passed on the way. -/
theorem Ends.rest (he : Ends sem mir n c) (hr : run sem mir m c = some c') :
    m ≤ n ∧ Ends sem mir (n - m) c' := by
  obtain ⟨out, hout⟩ := he
  by_cases hmn : m ≤ n
  · refine ⟨hmn, out, ?_⟩
    have hsplit : n = m + (n - m) := by omega
    rw [hsplit, run_add, hr] at hout
    exact hout
  · have hsplit : m = n + (m - n - 1 + 1) := by omega
    rw [hsplit, run_add, hout] at hr
    cases hr

theorem Ends.step (he : Ends sem mir n c) (hs : Mir.step sem mir c = some c') :
    ∃ k, n = k + 1 ∧ Ends sem mir k c' := by
  have hone : run sem mir 1 c = some c' := by
    rw [run_succ hs]
    rfl
  obtain ⟨hle, hrest⟩ := he.rest hone
  exact ⟨n - 1, by omega, hrest⟩

/-- There is one end. -/
theorem Reaches.end_unique {out out' : Final σ} (h : Reaches sem mir c (.final out))
    (h' : Reaches sem mir c (.final out')) : out = out' := by
  obtain ⟨m, hm⟩ := h
  obtain ⟨n, hn⟩ := h'
  have hle := (Ends.rest ⟨out', hn⟩ hm).1
  have hle' := (Ends.rest ⟨out, hm⟩ hn).1
  have heq : m = n := by omega
  subst heq
  rw [hm] at hn
  cases hn
  rfl

end Runs

section Steps

variable {mir : List (Blocks (Instr Op) (Term Op))} {f : Nat} {g : Blocks (Instr Op) (Term Op)}
  {p : Pos}

theorem step_instr (sem : Sem Op σ) (s : σ) (stack : List (Frame × Op)) (hg : mir[f]? = some g) {i : Instr Op} (hi : InstrAt g p i) :
    step sem mir (.running ⟨f, p⟩ s stack) = some (execInstr sem ⟨f, p⟩ s stack i) := by
  obtain ⟨b, hb, hget⟩ := hi
  simp only [step, hg, hb, hget, Option.bind_eq_bind, Option.bind_some]

theorem step_term (sem : Sem Op σ) (s : σ) (stack : List (Frame × Op)) (hg : mir[f]? = some g) {t : Term Op} (ht : TermAt g p t) :
    step sem mir (.running ⟨f, p⟩ s stack) = some (execTerm sem ⟨f, p⟩ s stack t) := by
  obtain ⟨stmts, hb, hlen⟩ := ht
  have hnone : stmts[p.offset]? = none := List.getElem?_eq_none (by omega)
  simp only [step, hg, hb, hnone, Option.bind_eq_bind, Option.bind_some]
  rfl

end Steps

section Simulation

variable (sem : Sem Op σ) (mir : List (Blocks (Instr Op) (Term Op))) (f : Nat)

/-- What the blocks come to for a result of the source, in the loops around the code. -/
def Lands (loops : Lower.Loops) (e : Option Pos) (stack : List (Frame × Op)) (c : Config Op σ) :
    Outcome σ → Prop
  | .normal s => ∃ q, e = some q ∧ Reaches sem mir c (.running ⟨f, q⟩ s stack)
  | .brk s => ∃ l, loops.head? = some l ∧ Reaches sem mir c (.running ⟨f, ⟨l.2, 0⟩⟩ s stack)
  | .cont s => ∃ l, loops.head? = some l ∧ Reaches sem mir c (.running ⟨f, ⟨l.1, 0⟩⟩ s stack)
  | .ret s => ∃ g q, mir[f]? = some g ∧ TermAt g q .ret ∧
      Reaches sem mir c (.running ⟨f, q⟩ s stack)
  | .panicked => Reaches sem mir c (.final .panicked)
  | .nonExhaustive | .fellOff => Reaches sem mir c (.final .unreachable)

/-- A result of the source against a configuration; runs of fewer than `n` steps to an end are
matched by a result. -/
structure SimAt (n : Nat) (loops : Lower.Loops) (e : Option Pos) (stack : List (Frame × Op))
    (c : Config Op σ) (r : Option (Outcome σ)) : Prop where
  sound : ∀ out, r = some out → Lands sem mir f loops e stack c out
  complete : ∀ m < n, Ends sem mir m c → r.isSome = true

/-- The code from `p` on, with its end at `e`, does what the computation does. -/
def Simulates (n : Nat) (loops : Lower.Loops) (p : Pos) (e : Option Pos) (x : Comp σ) : Prop :=
  ∀ s stack, SimAt sem mir f n loops e stack (.running ⟨f, p⟩ s stack) (x s)

variable {sem mir f} {g : Blocks (Instr Op) (Term Op)} {n : Nat} {loops : Lower.Loops} {p q : Pos}
  {e : Option Pos} {stack : List (Frame × Op)} {c c' : Config Op σ} {r : Option (Outcome σ)}
  {x y : Comp σ} {s : σ} {out : Outcome σ} {o : Op}

theorem Lands.of_reaches (hl : Lands sem mir f loops e stack c' out)
    (hr : Reaches sem mir c c') : Lands sem mir f loops e stack c out := by
  cases out with
  | normal s | brk s | cont s =>
    obtain ⟨q, hq, hreach⟩ := hl
    exact ⟨q, hq, hr.trans hreach⟩
  | ret s =>
    obtain ⟨g, q, hg, hq, hreach⟩ := hl
    exact ⟨g, q, hg, hq, hr.trans hreach⟩
  | panicked | nonExhaustive | fellOff => exact hr.trans hl

theorem SimAt.mono (h : SimAt sem mir f n loops e stack c r) {k : Nat} (hk : k ≤ n) :
    SimAt sem mir f k loops e stack c r :=
  ⟨h.sound, fun m hm he => h.complete m (Nat.lt_of_lt_of_le hm hk) he⟩

theorem Simulates.mono (h : Simulates sem mir f n loops p e x) {k : Nat} (hk : k ≤ n) :
    Simulates sem mir f k loops p e x :=
  fun s stack => (h s stack).mono hk

/-- A step of the blocks counts. -/
theorem SimAt.step_succ (hs : step sem mir c = some c')
    (h : SimAt sem mir f n loops e stack c' r) : SimAt sem mir f (n + 1) loops e stack c r := by
  refine ⟨fun out hr => (h.sound out hr).of_reaches (.single hs), fun m hm he => ?_⟩
  obtain ⟨k, hk, hends⟩ := he.step hs
  exact h.complete k (by omega) hends

theorem SimAt.step (hs : step sem mir c = some c')
    (h : SimAt sem mir f n loops e stack c' r) : SimAt sem mir f n loops e stack c r :=
  (h.step_succ hs).mono (Nat.le_succ n)

theorem SimAt.of_none (h : ∀ m < n, ¬ Ends sem mir m c) :
    SimAt sem mir f n loops e stack c none := by
  refine ⟨fun out hr => ?_, fun m hm he => absurd he (h m hm)⟩
  cases hr

/-- Without a result there is no end nearby. -/
theorem SimAt.endless (h : SimAt sem mir f n loops e stack c none) {m : Nat} (hm : m < n) :
    ¬ Ends sem mir m c := by
  intro he
  cases h.complete m hm he

/-- A result that is known. -/
theorem SimAt.of_some {r : Outcome σ} (h : Lands sem mir f loops e stack c r) :
    SimAt sem mir f n loops e stack c (some r) :=
  ⟨fun _ hr => Option.some.inj hr ▸ h, fun _ _ _ => rfl⟩

theorem Simulates.pure (p : Pos) : Simulates sem mir f n loops p (some p) Interp.pure :=
  fun _ _ => .of_some ⟨p, rfl, .refl _⟩

theorem SimAt.next (hx : SimAt sem mir f n loops (some q) stack c (x s))
    (hy : Simulates sem mir f n loops q e y) :
    SimAt sem mir f n loops e stack c (Interp.next x y s) := by
  rw [Interp.next]
  cases hr : x s with
  | none =>
    rw [hr] at hx
    exact .of_none fun m hm => hx.endless hm
  | some out =>
    have hl := hx.sound out hr
    cases out with
    | normal s' =>
      obtain ⟨q', hq, m, hm⟩ := hl
      cases hq
      refine ⟨fun out hout => ((hy s' stack).sound out hout).of_reaches ⟨m, hm⟩, fun k hk he => ?_⟩
      obtain ⟨hle, hrest⟩ := he.rest hm
      exact (hy s' stack).complete (k - m) (by omega) hrest
    | _ => exact .of_some hl

theorem Simulates.next (hx : Simulates sem mir f n loops p (some q) x)
    (hy : Simulates sem mir f n loops q e y) :
    Simulates sem mir f n loops p e (Interp.next x y) :=
  fun s stack => (hx s stack).next hy

/-- Nothing follows code without an end. -/
theorem Simulates.next_none (hx : Simulates sem mir f n loops p none x) :
    Simulates sem mir f n loops p e (Interp.next x y) := by
  intro s stack
  have h := hx s stack
  rw [Interp.next]
  cases hr : x s with
  | none =>
    rw [hr] at h
    exact .of_none fun m hm => h.endless hm
  | some out =>
    have hl := h.sound out hr
    cases out with
    | normal s' =>
      obtain ⟨q, hq, _⟩ := hl
      cases hq
    | _ => exact .of_some hl

section Terms

variable (hg : mir[f]? = some g)

include hg

/-- Code whose end jumps to a block. -/
theorem SimAt.goto (h : SimAt sem mir f n loops e stack c r) {b : Nat}
    (ht : ∀ q, e = some q → TermAt g q (.goto b)) :
    SimAt sem mir f n loops (some ⟨b, 0⟩) stack c r := by
  refine ⟨fun out hr => ?_, h.complete⟩
  have hl := h.sound out hr
  cases out with
  | normal s =>
    obtain ⟨q, hq, hreach⟩ := hl
    exact ⟨⟨b, 0⟩, rfl, hreach.trans (.single (step_term _ _ _ hg (ht q hq)))⟩
  | _ => exact hl

theorem Simulates.goto (h : Simulates sem mir f n loops p e x) {b : Nat}
    (ht : ∀ q, e = some q → TermAt g q (.goto b)) :
    Simulates sem mir f n loops p (some ⟨b, 0⟩) x :=
  fun s stack => (h s stack).goto hg ht

theorem Simulates.instr {i : Instr Op} (hi : InstrAt g p i) (hcall : ∀ o, i ≠ .call o) :
    Simulates sem mir f n loops p (some ⟨p.block, p.offset + 1⟩) (Interp.instr sem i) := by
  intro s stack
  have hstep := step_instr sem s stack hg hi
  have hexec : execInstr sem ⟨f, p⟩ s stack i =
      proceed (Frame.advance ⟨f, p⟩) stack (sem.act i s) := by
    cases i with
    | call o => exact absurd rfl (hcall o)
    | _ => rfl
  rw [hexec] at hstep
  rw [Interp.instr, perform]
  cases hact : sem.act i s with
  | some s' =>
    rw [hact] at hstep
    exact .of_some ⟨_, rfl, .single hstep⟩
  | none =>
    rw [hact] at hstep
    exact .of_some (Reaches.single hstep)

theorem Simulates.choose {t : Test Op} {a b : Nat} (ht : TermAt g p (.branch t a b))
    (hx : Simulates sem mir f n loops ⟨a, 0⟩ e x) (hy : Simulates sem mir f n loops ⟨b, 0⟩ e y) :
    Simulates sem mir f n loops p e (Interp.choose sem t x y) := by
  intro s stack
  refine .step (step_term _ _ _ hg ht) ?_
  rw [execTerm, Interp.choose]
  cases sem.test t s with
  | true => exact hx s stack
  | false => exact hy s stack

theorem Simulates.leave (ht : TermAt g p .ret) :
    Simulates sem mir f n loops p e Interp.leave :=
  fun _ _ => .of_some ⟨g, p, hg, ht, .refl _⟩

theorem Simulates.panic (ht : TermAt g p .panic) :
    Simulates sem mir f n loops p e (stop .panicked) :=
  fun _ _ => .of_some (Reaches.single (step_term _ _ _ hg ht))

theorem Simulates.unreachable (ht : TermAt g p .unreachable) :
    Simulates sem mir f n loops p e (stop .nonExhaustive) :=
  fun _ _ => .of_some (Reaches.single (step_term _ _ _ hg ht))

theorem Simulates.dip {l : Nat × Nat} (ht : TermAt g p (.goto l.2)) :
    Simulates sem mir f n (l :: loops) p e fun s => some (.brk s) :=
  fun _ _ => .of_some ⟨l, rfl, .single (step_term _ _ _ hg ht)⟩

theorem Simulates.skip {l : Nat × Nat} (ht : TermAt g p (.goto l.1)) :
    Simulates sem mir f n (l :: loops) p e fun s => some (.cont s) :=
  fun _ _ => .of_some ⟨l, rfl, .single (step_term _ _ _ hg ht)⟩

theorem Simulates.holla {a b : Nat} (ht : TermAt g p (.hollaCheck o a b))
    (hx : Simulates sem mir f n loops ⟨a, 0⟩ e x) (hy : Simulates sem mir f n loops ⟨b, 0⟩ e y) :
    Simulates sem mir f n loops p e fun s =>
      match sem.resolve o s with
      | some s' => x s'
      | none => y s := by
  intro s stack
  refine .step (step_term _ _ _ hg ht) ?_
  rw [execTerm]
  dsimp only
  cases sem.resolve o s with
  | some s' => exact hx s' stack
  | none => exact hy s stack

theorem Simulates.switch {sum : List Variant} {cases : List (Nat × Nat)} {d : Nat}
    {arms : String → Comp σ} (ht : TermAt g p (.switch o sum cases d))
    (harms : ∀ name,
      Simulates sem mir f n loops ⟨caseOf sum cases d name, 0⟩ e (arms name)) :
    Simulates sem mir f n loops p e fun s => arms (sem.variant o s) s := by
  intro s stack
  exact .step (step_term _ _ _ hg ht) (harms (sem.variant o s) s stack)

end Terms

/-- A round whose `dip` leaves to the exit and whose `skip` goes where its end goes. -/
theorem SimAt.round {next exit : Nat}
    (hx : SimAt sem mir f n ((next, exit) :: loops) (some ⟨next, 0⟩) stack c (x s))
    (hy : Simulates sem mir f n loops ⟨next, 0⟩ (some ⟨exit, 0⟩) y) :
    SimAt sem mir f n loops (some ⟨exit, 0⟩) stack c (Interp.round x y s) := by
  have hagain : ∀ s', Reaches sem mir c (.running ⟨f, ⟨next, 0⟩⟩ s' stack) →
      SimAt sem mir f n loops (some ⟨exit, 0⟩) stack c (y s') := by
    rintro s' ⟨m, hm⟩
    refine ⟨fun out hout => ((hy s' stack).sound out hout).of_reaches ⟨m, hm⟩, fun k hk he => ?_⟩
    obtain ⟨hle, hrest⟩ := he.rest hm
    exact (hy s' stack).complete (k - m) (by omega) hrest
  rw [Interp.round]
  cases hr : x s with
  | none =>
    rw [hr] at hx
    exact .of_none fun m hm => hx.endless hm
  | some out =>
    have hl := hx.sound out hr
    cases out with
    | normal s' =>
      obtain ⟨q, hq, hreach⟩ := hl
      cases hq
      exact hagain s' hreach
    | cont s' =>
      obtain ⟨l, hl, hreach⟩ := hl
      cases hl
      exact hagain s' hreach
    | brk s' =>
      obtain ⟨l, hl, hreach⟩ := hl
      cases hl
      exact .of_some ⟨_, rfl, hreach⟩
    | ret s' => exact .of_some (r := .ret s') hl
    | panicked => exact .of_some (r := .panicked) hl
    | nonExhaustive => exact .of_some (r := .nonExhaustive) hl
    | fellOff => exact .of_some (r := .fellOff) hl

/-- The rounds of a loop, by the fuel. -/
theorem Simulates.loop (hg : mir[f]? = some g) {header tail : Comp σ} {t : Test Op} {h : Pos}
    {next body exit : Nat} (hh : Simulates sem mir f n loops h (some q) header)
    (ht : TermAt g q (.branch t body exit))
    (hx : Simulates sem mir f n ((next, exit) :: loops) ⟨body, 0⟩ (some ⟨next, 0⟩) x)
    (htail : Simulates sem mir f n loops ⟨next, 0⟩ (some h) tail) {k : Nat} (hk : k ≤ n) :
    Simulates sem mir f k loops h (some ⟨exit, 0⟩) (Interp.loop sem header t x tail k) := by
  induction k with
  | zero => exact fun s stack => .of_none fun m hm => absurd hm (Nat.not_lt_zero m)
  | succ k ih =>
    have hagain : Simulates sem mir f k loops ⟨next, 0⟩ (some ⟨exit, 0⟩)
        (Interp.next tail (Interp.loop sem header t x tail k)) :=
      (htail.mono (by omega)).next (ih (by omega))
    refine (hh.mono hk).next fun s stack => .step_succ (step_term _ _ _ hg ht) ?_
    rw [execTerm, Interp.choose]
    cases sem.test t s with
    | true => exact .round ((hx s stack).mono (by omega)) hagain
    | false => exact Simulates.pure ⟨exit, 0⟩ s stack

/-- Calls of the functions of the program, one step after the call site. -/
def CallsSim (sem : Sem Op σ) (mir : List (Blocks (Instr Op) (Term Op))) (n : Nat)
    (fn : Nat → Comp σ) : Prop :=
  ∀ f, Simulates sem mir f (n - 1) [] ⟨0, 0⟩ none (fn f)

/-- A call from its site: where the callee returns, the caller goes on. -/
theorem Simulates.call (hg : mir[f]? = some g) (hi : InstrAt g p (.call o)) {fn : Nat → Comp σ}
    (hfn : CallsSim sem mir n fn) :
    Simulates sem mir f n loops p (some ⟨p.block, p.offset + 1⟩) (callOp sem fn o) := by
  intro s stack
  have hstep := step_instr sem s stack hg hi
  rw [execInstr] at hstep
  rw [callOp]
  cases henter : sem.enter o s with
  | none =>
    rw [henter] at hstep
    exact .of_some (Reaches.single hstep)
  | some s₁ =>
    rw [henter] at hstep
    have hcallee := hfn (sem.callee o s) s₁ ((Frame.advance ⟨f, p⟩, o) :: stack)
    dsimp only
    cases hr : fn (sem.callee o s) s₁ with
    | none =>
      rw [hr] at hcallee
      refine .of_none fun m hm he => ?_
      obtain ⟨k, hk, hends⟩ := he.step hstep
      exact hcallee.endless (by omega) hends
    | some out =>
      have hl := (hcallee.sound out hr).of_reaches (.single hstep)
      cases out with
      | normal s' =>
        obtain ⟨q, hq, _⟩ := hl
        cases hq
      | brk s' | cont s' =>
        obtain ⟨l, hl, _⟩ := hl
        cases hl
      | ret s' =>
        obtain ⟨g', q, hg', hq, hreach⟩ := hl
        have hret := step_term sem s' ((Frame.advance ⟨f, p⟩, o) :: stack) hg' hq
        rw [execTerm] at hret
        dsimp only [perform]
        cases hleave : sem.leave o s' with
        | some s'' =>
          rw [hleave] at hret
          exact .of_some ⟨_, rfl, hreach.trans (.single hret)⟩
        | none =>
          rw [hleave] at hret
          exact .of_some (r := .panicked) (hreach.trans (.single hret))
      | panicked => exact .of_some (r := .panicked) hl
      | nonExhaustive => exact .of_some (r := .nonExhaustive) hl
      | fellOff => exact .of_some (r := .fellOff) hl

end Simulation

end BetLang.Control
