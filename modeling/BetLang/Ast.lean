import BetLang.Ir

/-! The surface operators and the IR operators they lower to. -/

namespace BetLang.Ast

inductive UnOp where
  | neg | not | bitNot
  deriving DecidableEq, Repr

inductive BinOp where
  | or | and | eq | ne | lt | le | gt | ge | bitOr | bitXor | bitAnd | shl | shr
  | add | sub | mul | div | rem
  deriving DecidableEq, Repr

/-- `and` and `or` lower to control flow and have no IR operator. -/
def mapBinop : BinOp → Option Ir.BinOp
  | .eq => some .eq
  | .ne => some .ne
  | .lt => some .lt
  | .le => some .le
  | .gt => some .gt
  | .ge => some .ge
  | .bitOr => some .bitOr
  | .bitXor => some .bitXor
  | .bitAnd => some .bitAnd
  | .shl => some .shl
  | .shr => some .shr
  | .add => some .add
  | .sub => some .sub
  | .mul => some .mul
  | .div => some .div
  | .rem => some .rem
  | .and | .or => none

def mapUnop : UnOp → Ir.UnOp
  | .neg => .neg
  | .not => .not
  | .bitNot => .bitNot

end BetLang.Ast
