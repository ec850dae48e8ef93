import BetLang.IntAgreement
import BetLang.ScalarInterp
import BetLang.ScalarLower

/-! What the interpreter of the scalar core and the machine have in common, and that their operators
agree. -/

namespace BetLang.Scalar

open Control.Interp (Outcome perform)
open Interp (Value RunError)
open OrderedCalls (andThen)

/-- The values of the types. -/
inductive HasTy : Value → Ty → Prop where
  | int (v : BitVec 64) : HasTy (.word v) .int
  | bool (b : Bool) : HasTy (.bool b) .bool

def scalar : Value → Option (Codegen.Scalar 64)
  | .int v _ => some (.int v)
  | .bool b => some (.bool b)
  | _ => none

/-- The errors that are the interpreter's own: its limit on nesting, and the negation of the least
integer, which wraps in the machine. -/
inductive Escapes : RunError → Prop where
  | depth (n : Nat) : Escapes (.recursionLimit n)
  | negation : Escapes (.overflow "negation")

/-- The errors that stop the machine too. -/
inductive Traps : RunError → Prop where
  | divByZero : Traps .divByZero
  | overflow (what : String) : Traps (.overflow what)

/-- A run of the interpreter against one of the code; `R` relates their results. -/
inductive Matches {α : Type} (R : α → Outcome Machine → Prop) :
    Run α → Option (Outcome Machine) → Prop where
  | cut : Matches R none none
  | escapes {e : RunError} (he : Escapes e) (out : Option (Outcome Machine)) :
    Matches R (some (.error e)) out
  | traps {e : RunError} (he : Traps e) : Matches R (some (.error e)) (some .panicked)
  | ok {a : α} {out : Outcome Machine} (h : R a out) : Matches R (some (.ok a)) (some out)

def Normal {α : Type} (R : α → Machine → Prop) (a : α) (out : Outcome Machine) : Prop :=
  ∃ m, out = .normal m ∧ R a m

section Rules

variable {α β : Type} {x : Run α} {s : Machine} {c c' : Control.Interp.Comp Machine}

theorem Matches.mono {R Q : α → Outcome Machine → Prop} {out : Option (Outcome Machine)}
    (h : Matches R x out) (hRQ : ∀ a out, R a out → Q a out) : Matches Q x out := by
  cases h with
  | cut => exact .cut
  | escapes he out => exact .escapes he out
  | traps he => exact .traps he
  | ok h => exact .ok (hRQ _ _ h)

theorem Matches.next {R : α → Machine → Prop} {Q : β → Outcome Machine → Prop} {k : α → Run β}
    (hx : Matches (Normal R) x (c s)) (hk : ∀ a m, R a m → Matches Q (k a) (c' m)) :
    Matches Q (andThen x k) (Control.Interp.next c c' s) := by
  rw [Control.Interp.next]
  generalize c s = out at hx
  cases hx with
  | cut => exact .cut
  | escapes he out => exact .escapes he _
  | traps he => exact .traps he
  | ok h =>
    obtain ⟨m, rfl, hR⟩ := h
    exact hk _ m hR

/-- What only the interpreter does behind a computation. -/
theorem Matches.andThen {R : α → Machine → Prop} {Q : β → Outcome Machine → Prop} {k : α → Run β}
    {out : Option (Outcome Machine)} (hx : Matches (Normal R) x out)
    (hk : ∀ a m, R a m → Matches Q (k a) (some (.normal m))) :
    Matches Q (OrderedCalls.andThen x k) out := by
  cases hx with
  | cut => exact .cut
  | escapes he out => exact .escapes he _
  | traps he => exact .traps he
  | ok h =>
    obtain ⟨m, rfl, hR⟩ := h
    exact hk _ m hR

theorem Matches.deeper {R : α → Outcome Machine → Prop} {x : Nat → Run α}
    {out : Option (Outcome Machine)} {d : Nat} (h : Matches R (x (d + 1)) out) :
    Matches R (deeper d x) out := by
  rw [Scalar.deeper]
  by_cases hd : d + 1 > Eval.maxDepth
  · rw [if_pos hd]
    exact .escapes (.depth _) out
  · rw [if_neg hd]
    exact h

end Rules

section Operators

variable {m : Machine} {dest : Nat} {l r : Value}

/-- A local with the value of a type. -/
def Assigned (m : Machine) (dest : Nat) (t : Ty) (v : Value) (m' : Machine) : Prop :=
  HasTy v t ∧ m' = m.set dest (scalar v)

theorem stored_word (b : BitVec 64) : stored Ir.IntWidth.w64 true b = b := by
  have hcond : stored Ir.IntWidth.w64 true b = b.signExtend 64 := rfl
  rw [hcond, BitVec.signExtend_eq]

theorem agrees_cases {w : Ir.IntWidth} {res : Except RunError Value}
    {out : Llvm.Outcome (Codegen.Scalar w.bits)} (h : Agrees w true res out) :
    (∃ b, res = .ok (.int (stored w true b) (intTyOf w true)) ∧ out = .ok (.int b)) ∨
      (∃ b, res = .ok (.bool b) ∧ out = .ok (.bool b)) ∨
      ∃ e msg, Traps e ∧ res = .error e ∧ out = .trap msg := by
  cases h with
  | int b => exact .inl ⟨b, rfl, rfl⟩
  | bool b => exact .inr (.inl ⟨b, rfl, rfl⟩)
  | overflow what msg hmsg => exact .inr (.inr ⟨_, msg, .overflow what, rfl, rfl⟩)
  | divByZero => exact .inr (.inr ⟨_, _, .divByZero, rfl, rfl⟩)

theorem assign_matches {t : Ty} {res : Except RunError Value}
    {out : Llvm.Outcome (Codegen.Scalar 64)} (h : Agrees .w64 true res out)
    (ht : ∀ v, res = .ok v → HasTy v t) :
    Matches (Normal (Assigned m dest t)) (some res) (perform (fun m => m.assign dest out) m) := by
  rcases agrees_cases h with ⟨b, rfl, rfl⟩ | ⟨b, rfl, rfl⟩ | ⟨e, msg, he, rfl, rfl⟩
  · refine .ok ⟨_, rfl, ht _ rfl, ?_⟩
    exact congrArg (fun v => m.set dest (some (.int v))) (stored_word b).symm
  · exact .ok ⟨_, rfl, ht _ rfl, rfl⟩
  · exact .traps he

theorem word_signed : Interp.IntTy.word.signed = true := rfl

theorem binaryOpInt_ty {op : Ast.BinOp} {a b : BitVec 64} {t : Ty} {v : Value}
    (ht : binaryTy op .int .int = some t)
    (h : Interp.binaryOpInt op a .word b .word = .ok v) : HasTy v t := by
  cases op <;> simp only [binaryTy, reduceIte, Option.some.injEq, reduceCtorEq] at ht <;>
    subst ht <;> simp only [Interp.binaryOpInt, Interp.intBinary, combineIntTy_self, Interp.trapping,
      word_signed, if_true] at h <;>
    first
    | cases h; constructor
    | split_ifs at h; cases h; constructor

theorem binaryOp_matches {op : Ast.BinOp} {irop : Ir.BinOp} {tl tr t : Ty}
    (hop : Ast.mapBinop op = some irop) (ht : binaryTy op tl tr = some t) (hl : HasTy l tl)
    (hr : HasTy r tr) :
    Matches (Normal (Assigned m dest t)) (some (binaryOp op l r))
      (perform (fun m =>
        m.assign dest (evalBinOp irop (arithMode tl.ir irop) (scalar l) (scalar r))) m) := by
  cases hl with
  | int a =>
    cases hr with
    | int b =>
      have hint : binaryOp op (.word a) (.word b) = Interp.binaryOpInt op a .word b .word := by
        cases op <;> rfl
      have h := binary_agrees .w64 true a b hop
      rw [stored_word, stored_word] at h
      rw [hint]
      exact assign_matches h fun v hv => binaryOpInt_ty ht hv
    | bool b => cases op <;> simp [binaryTy] at ht
  | bool a =>
    cases hr with
    | int b => cases op <;> simp [binaryTy] at ht
    | bool b =>
      cases op <;> simp only [binaryTy, reduceIte, Option.some.injEq, reduceCtorEq] at ht <;>
        cases hop <;> subst ht <;> refine .ok ⟨_, rfl, .bool _, ?_⟩ <;> cases a <;> cases b <;> rfl

theorem not_matches (hv : HasTy l .bool) :
    Matches (Normal (Assigned m dest .bool)) (some (unaryOp .not l))
      (perform (fun m => m.assign dest (evalUnOp .not (scalar l))) m) := by
  cases hv with
  | bool b => exact .ok ⟨_, rfl, .bool _, rfl⟩

theorem bitNot_matches (hv : HasTy l .int) :
    Matches (Normal (Assigned m dest .int)) (some (unaryOp .bitNot l))
      (perform (fun m => m.assign dest (evalUnOp .bitNot (scalar l))) m) := by
  cases hv with
  | int a =>
    have h := bitNot_agrees .w64 true a
    rw [stored_word] at h
    refine assign_matches h fun v hv => ?_
    cases hv
    exact .int _

/-- Only the negation of the least integer is no matter of the machine. -/
theorem neg_matches (hv : HasTy l .int) :
    Matches (Normal (Assigned m dest .int)) (some (unaryOp .neg l))
      (perform (fun m => m.assign dest (evalUnOp .neg (scalar l))) m) := by
  cases hv with
  | int a =>
    by_cases ha : a = BitVec.intMin 64
    · subst ha
      exact .escapes .negation _
    · have h := (neg_agrees_iff .w64 true a).mpr fun hmin => ha hmin.2
      rw [stored_word] at h
      refine assign_matches h fun v hv => ?_
      change Interp.trapping _ _ _ = _ at hv
      rw [Interp.trapping] at hv
      split_ifs at hv
      cases hv
      exact .int _

theorem unaryOp_matches {op : Ast.UnOp} {te t : Ty} (ht : unaryTy op te = some t)
    (hv : HasTy l te) :
    Matches (Normal (Assigned m dest t)) (some (unaryOp op l))
      (perform (fun m => m.assign dest (evalUnOp (Ast.mapUnop op) (scalar l))) m) := by
  cases op <;> cases te <;> cases ht
  · exact neg_matches hv
  · exact not_matches hv
  · exact bitNot_matches hv

end Operators

end BetLang.Scalar
