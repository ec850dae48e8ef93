import BetLang.ControlLower

/-! When a run of the lowered program comes to a terminator that is declared unreachable. -/

namespace BetLang.Control

open Cfg Interp Mir BetLang.Control.Lower
open Builder

variable {Op σ : Type} {sem : Sem Op σ} {mir : List (Blocks (Instr Op) (Term Op))}

section Functions

variable {f n : Nat} {fn : Nat → Comp σ} {g : Blocks (Instr Op) (Term Op)}

/-- The end of a body, with the epilogue behind it. -/
theorem SimAt.finish {e : Option Pos} {stack : List (Frame × Op)} {c : Config Op σ}
    {r : Option (Outcome σ)} (h : SimAt sem mir f n [] e stack c r) (hg : mir[f]? = some g)
    {sig : Sig} (ht : ∀ q, e = some q → TermAt g q (if sig.rets = 0 then .ret else .unreachable)) :
    SimAt sem mir f n [] none stack c (Interp.finish sig r) := by
  cases r with
  | none => exact .of_none fun m hm => h.endless hm
  | some out =>
    have hl := h.sound out rfl
    cases out with
    | normal s =>
      obtain ⟨q, hq, hreach⟩ := hl
      have ht := ht q hq
      rw [Interp.finish]
      by_cases hrets : sig.rets = 0
      · rw [if_pos hrets] at ht ⊢
        exact .of_some ⟨g, q, hg, ht, hreach⟩
      · rw [if_neg hrets] at ht ⊢
        exact .of_some (r := .fellOff) (hreach.trans (.single (step_term _ _ _ hg ht)))
    | _ => exact .of_some hl

theorem lowerFunc_simulates {fd : Func Op} (h : lowerFunc fd = some g) (hg : mir[f]? = some g)
    (hfn : CallsSim sem mir n fn) :
    Simulates sem mir f n [] ⟨0, 0⟩ none fun s =>
      finish fd.sig (execBlock sem (callOp sem fn) n fd.body s) := by
  obtain ⟨st, hb, h⟩ := option_bind_some h
  obtain ⟨_, heq⟩ := guard_bind h
  cases heq
  have hbody := lowerBlock_builds (f := f) hfn fd.body (newBlock_open _) hb
  obtain ⟨hcode, ht⟩ := (hbody.terminate (if fd.sig.rets = 0 then .ret else .unreachable)).lays _
    (.refl _)
  intro s stack
  exact (hcode hg s stack).finish hg ht

/-- A call of a function that does not exist comes to no end. -/
theorem not_ends_of_step {c : Config Op σ} (hs : step sem mir c = none)
    (hc : ∀ out, c ≠ .final out) (m : Nat) : ¬ Ends sem mir m c := by
  rintro ⟨out, hout⟩
  cases m with
  | zero => exact hc out (Option.some.inj hout)
  | succ m =>
    rw [run, hs] at hout
    cases hout

theorem callFn_simulates (sem : Sem Op σ) {p : Program Op} (hl : lowerProgram p = some mir) (n : Nat) :
    CallsSim sem mir n (callFn sem p n) := by
  have hall := mapM_some hl
  induction n with
  | zero => exact fun f s stack => .of_none fun m hm => absurd hm (Nat.not_lt_zero m)
  | succ n ih =>
    intro f s stack
    rw [callFn]
    cases hp : p[f]? with
    | none =>
      have hlen : mir.length ≤ f := by
        rw [← hall.length_eq]
        exact List.getElem?_eq_none_iff.mp hp
      refine .of_none fun m _ => not_ends_of_step ?_ (fun out heq => by cases heq) m
      rw [step, List.getElem?_eq_none hlen]
      rfl
    | some fd =>
      obtain ⟨g, hg, hfd⟩ := forall₂_getElem? hall hp
      exact lowerFunc_simulates hfd hg ih s stack

end Functions

/-- A call of a function of the lowered program comes to no `unreachable` if and only if the source
comes neither to a `vibe` without an arm for its value nor to the end of a function that returns
values. -/
theorem no_unreachable_iff {p : Program Op} (hl : lowerProgram p = some mir) (f : Nat) (s : σ) :
    ¬ Reaches sem mir (start f s) (.final .unreachable) ↔
      ∀ n, callFn sem p n f s ≠ some .nonExhaustive ∧ callFn sem p n f s ≠ some .fellOff := by
  constructor
  · intro hno n
    have hsound := (callFn_simulates sem hl n f s []).sound
    exact ⟨fun hr => hno (hsound _ hr), fun hr => hno (hsound _ hr)⟩
  · rintro hnever ⟨m, hm⟩
    have hsim := callFn_simulates sem hl (m + 2) f s []
    obtain ⟨out, hr⟩ := Option.isSome_iff_exists.mp
      (hsim.complete m (by omega) ⟨.unreachable, hm⟩)
    have hlands := hsim.sound out hr
    -- The run has one end.
    have hend : ∀ out', Reaches sem mir (start f s) (.final out') → out' = .unreachable :=
      fun out' h => h.end_unique ⟨m, hm⟩
    cases out with
    | normal s' =>
      obtain ⟨q, hq, _⟩ := hlands
      cases hq
    | brk s' | cont s' =>
      obtain ⟨l, hl, _⟩ := hlands
      cases hl
    | ret s' =>
      obtain ⟨g, q, hg, hq, hreach⟩ := hlands
      cases hend _ (hreach.trans (.single (step_term _ _ _ hg hq)))
    | panicked => cases hend _ hlands
    | nonExhaustive => exact (hnever (m + 2)).1 hr
    | fellOff => exact (hnever (m + 2)).2 hr

section Examples

def colors : List Variant := [⟨"Red", 0⟩, ⟨"Green", 0⟩]

/-- Every value is `Green`, nothing else happens. -/
def greenSem : Sem Unit Unit where
  act _ s := some s
  test _ _ := true
  variant _ _ := "Green"
  resolve _ s := some s
  callee _ _ := 0
  enter _ s := some s
  leave _ s := some s

/-- `finna f(c: Color) int { vibe c { Red { bet 1 } naw { bet 2 } } }`. -/
def coveredFunc : Func Unit :=
  ⟨⟨1, false⟩, .cons (.vibe .nil () colors
    (.arm "Red" 0 (.cons (.bet 1 (.op ())) .nil) (.naw (.cons (.bet 1 (.op ())) .nil)))) .nil⟩

theorem coveredFunc_unreachable_iff : ∃ mir, lowerProgram [coveredFunc] = some mir ∧
    (¬ Reaches greenSem mir (start 0 ()) (.final .unreachable) ↔
      ∀ n, callFn greenSem [coveredFunc] n 0 () ≠ some .nonExhaustive ∧
        callFn greenSem [coveredFunc] n 0 () ≠ some .fellOff) :=
  ⟨_, rfl, no_unreachable_iff rfl 0 ()⟩

/-- `finna f(c: Color) { vibe c { Red { } } }`. -/
def omittingFunc : Func Unit :=
  ⟨⟨0, false⟩, .cons (.vibe .nil () colors (.arm "Red" 0 .nil .done)) .nil⟩

/-- `finna g() int { }`. -/
def emptyFunc : Func Unit := ⟨⟨1, false⟩, .nil⟩

/-- Lowering accepts both, and both come to an `unreachable`. -/
theorem omittingFunc_unreachable : ∃ mir, lowerProgram [omittingFunc, emptyFunc] = some mir ∧
    Reaches greenSem mir (start 0 ()) (.final .unreachable) ∧
    Reaches greenSem mir (start 1 ()) (.final .unreachable) :=
  ⟨_, rfl, ⟨3, rfl⟩, ⟨1, rfl⟩⟩

end Examples

end BetLang.Control
