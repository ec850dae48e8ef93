import BetLang.Ieee754
import BetLang.TyEq

/-! The validator's guard analysis: every payload access must be behind the case edge of a switch
that reads the discriminant of the same place. -/

namespace BetLang.Validate

open Ir

/-! The derived equality of places. -/

def sameConst : Const → Const → Bool
  | .int v t, .int v' t' => v = v' && sameTy t t'
  | .float b t, .float b' t' => Ieee754.f64Eq b b' && sameTy t t'
  | .bool b, .bool b' => b = b'
  | .str s, .str s' => s = s'
  | .ghosted, .ghosted | .nullPtr, .nullPtr => true
  | .fnRef i, .fnRef j => i = j
  | _, _ => false

mutual

def sameOperand : Operand → Operand → Bool
  | .const c, .const c' => sameConst c c'
  | .copy p, .copy q | .move p, .move q => samePlace p q
  | _, _ => false
termination_by structural x => x

def samePlace : Place → Place → Bool
  | .mk r ps, .mk r' ps' => r = r' && sameProjs ps ps'
termination_by structural x => x

def sameProjs : List Proj → List Proj → Bool
  | [], [] => true
  | p :: ps, q :: qs => sameProj p q && sameProjs ps qs
  | _, _ => false
termination_by structural x => x

def sameProj : Proj → Proj → Bool
  | .field i, .field j => i = j
  | .index a, .index b => sameOperand a b
  | .deref, .deref => true
  | .downcast v, .downcast v' => v = v'
  | _, _ => false
termination_by structural x => x

end

structure DowncastSite where
  block : Nat
  sumPlace : Place
  variant : Nat

structure SwitchGuard where
  block : Nat
  sumPlace : Place
  cases : List (Nat × Nat)
  default : Option Nat

def successors : Terminator → List Nat
  | .goto bb => [bb]
  | .branch _ thenBb elseBb => [thenBb, elseBb]
  | .switch _ cases default => cases.map Prod.snd ++ [default]
  | .hollaCheck _ _ _ live ghosted => [live, ghosted]
  | .ret _ | .panic _ | .unreachable => []

/-- The distinct predecessors of a block, in the order of their ids. -/
def computePreds (f : Func) (b : Nat) : List Nat :=
  (List.range f.blocks.length).filter fun i =>
    match f.blocks[i]? with
    | some block => (successors block.term).contains b
    | none => false

/-- `dom b a`: block `a` dominates block `b`. -/
abbrev DomMatrix := Nat → Nat → Bool

def startMatrix (entry : Nat) : DomMatrix :=
  fun b a => if b = entry then a = entry else true

/-- A block and what dominates all of its predecessors; a block without any is alone. -/
def newRow (preds : Nat → List Nat) (dom : DomMatrix) (b a : Nat) : Bool :=
  a = b || (!(preds b).isEmpty && (preds b).all fun p => dom p a)

def rowEq (n : Nat) (row row' : Nat → Bool) : Bool :=
  (List.range n).all fun a => row a = row' a

def setRow (dom : DomMatrix) (b : Nat) (row : Nat → Bool) : DomMatrix :=
  fun b' => if b' = b then row else dom b'

/-- One block of a sweep: its row is replaced when it is new. -/
def sweepRow (n entry : Nat) (preds : Nat → List Nat) (s : DomMatrix × Bool) (b : Nat) :
    DomMatrix × Bool :=
  if b = entry then s
  else if rowEq n (newRow preds s.1 b) (s.1 b) then s
  else (setRow s.1 b (newRow preds s.1 b), true)

def sweep (n entry : Nat) (preds : Nat → List Nat) (dom : DomMatrix) : DomMatrix × Bool :=
  (List.range n).foldl (sweepRow n entry preds) (dom, false)

/-- Sweeps until one changes nothing. -/
def sweeps (n entry : Nat) (preds : Nat → List Nat) : Nat → DomMatrix → Option DomMatrix
  | 0, _ => none
  | fuel + 1, dom =>
    let (dom', changed) := sweep n entry preds dom
    if changed then sweeps n entry preds fuel dom' else some dom'

def computeDominators (fuel n entry : Nat) (preds : Nat → List Nat) : Option DomMatrix :=
  sweeps n entry preds fuel (startMatrix entry)

mutual

/-- The downcasts of a place: each variant with the projections before it, and those of the index
operands. -/
def sitesInOperand : Operand → List (Place × Nat)
  | .const _ => []
  | .copy p | .move p => sitesInPlace p

def sitesInPlace : Place → List (Place × Nat)
  | .mk root proj => sitesInProjs root [] proj

def sitesInProjs (root : Nat) (before : List Proj) : List Proj → List (Place × Nat)
  | [] => []
  | .downcast v :: rest =>
    (.mk root before, v) :: sitesInProjs root (before ++ [.downcast v]) rest
  | .index op :: rest =>
    sitesInOperand op ++ sitesInProjs root (before ++ [.index op]) rest
  | .field i :: rest => sitesInProjs root (before ++ [.field i]) rest
  | .deref :: rest => sitesInProjs root (before ++ [.deref]) rest

end

def sitesInOperands (ops : List Operand) : List (Place × Nat) :=
  ops.flatMap sitesInOperand

def sitesInRvalue : Rvalue → List (Place × Nat)
  | .use op | .unOp _ op | .cast op _ _ | .discriminant op | .strPtr op | .strLen op
  | .slicePtr op | .sliceLen op => sitesInOperand op
  | .binOp _ a b _ | .trust a b => sitesInOperands [a, b]
  | .call callee args =>
    match callee with
    | .indirect op => sitesInOperand op ++ sitesInOperands args
    | .direct _ | .external _ => sitesInOperands args
  | .aggregate _ ops | .simd _ ops _ => sitesInOperands ops
  | .cop crib init =>
    match init with
    | .structLit _ fields => sitesInOperand crib ++ sitesInOperands (fields.map Prod.snd)
    | .sumVariant _ _ ops => sitesInOperand crib ++ sitesInOperands ops
  | .addrOf place => sitesInPlace place
  | .makeSlice data len _ | .makeStr data len => sitesInOperands [data, len]
  | .cribNew _ _ | .cribGlobal _ | .sizeOf _ => []

def sitesInStmt : Stmt → List (Place × Nat)
  | .assign place rv => sitesInPlace place ++ sitesInRvalue rv
  | .evict op => sitesInOperand op
  | .evictSlot crib tag => sitesInOperands [crib, tag]
  | .nop => []

def sitesInTerm : Terminator → List (Place × Nat)
  | .goto _ | .unreachable => []
  | .branch cond _ _ => sitesInOperand cond
  | .switch scrutinee _ _ => sitesInOperand scrutinee
  | .hollaCheck tag crib resolved _ _ => sitesInOperands [tag, crib] ++ sitesInPlace resolved
  | .ret vals => sitesInOperands vals
  | .panic op => sitesInOperand op

def sitesInBlock (block : Block) : List (Place × Nat) :=
  block.stmts.flatMap sitesInStmt ++ sitesInTerm block.term

def collectDowncastSites (f : Func) : List DowncastSite :=
  f.blocks.zipIdx.flatMap fun (block, i) =>
    (sitesInBlock block).map fun (p, v) => { block := i, sumPlace := p, variant := v }

def scrutineeLocal : Operand → Option Nat
  | .copy (.mk l []) | .move (.mk l []) => some l
  | _ => none

/-- The bare local that a statement assigns. -/
def assignedLocal : Stmt → Option Nat
  | .assign (.mk l []) _ => some l
  | _ => none

/-- The bare local that `holla` binds. -/
def resolvedLocal : Terminator → Option Nat
  | .hollaCheck _ _ (.mk l []) _ _ => some l
  | _ => none

/-- What a block assigns to bare locals. -/
def blockAssigns (block : Block) : List (Option Nat) :=
  block.stmts.map assignedLocal ++ [resolvedLocal block.term]

def assignCount (f : Func) (l : Nat) : Nat :=
  (f.blocks.flatMap blockAssigns).count (some l)

/-- `l = discriminant(place)`. -/
def discRead (l : Nat) : Stmt → Option Place
  | .assign (.mk x []) (.discriminant (.copy p)) => if x = l then some p else none
  | .assign (.mk x []) (.discriminant (.move p)) => if x = l then some p else none
  | _ => none

/-- The block and place of the last discriminant read into a local. -/
def discDef (f : Func) (l : Nat) : Option (Nat × Place) :=
  (f.blocks.zipIdx.flatMap fun (block, i) =>
    (block.stmts.filterMap (discRead l)).map fun p => (i, p)).getLast?

def switchGuard (f : Func) (doms : DomMatrix) (i : Nat) (block : Block) : Option SwitchGuard :=
  match block.term with
  | .switch scrutinee cases default => do
    let l ← scrutineeLocal scrutinee
    if assignCount f l ≠ 1 then none
    else do
      let (defBlock, place) ← discDef f l
      if !doms i defBlock then none
      else
        let n := f.blocks.length
        some
          { block := i
            sumPlace := place
            cases := cases.filter fun c => c.2 < n
            default := if default < n then some default else none }
  | _ => none

def collectSwitchGuards (f : Func) (doms : DomMatrix) : List SwitchGuard :=
  f.blocks.zipIdx.filterMap fun (block, i) => switchGuard f doms i block

def caseTargetIsExclusive (g : SwitchGuard) (t v : Nat) : Bool :=
  g.default ≠ some t && g.cases.all fun c => c.2 ≠ t || c.1 = v

/-- One case edge of one guard, for one downcast. -/
def caseAccepted (doms : DomMatrix) (preds : Nat → List Nat) (site : DowncastSite)
    (g : SwitchGuard) (c : Nat × Nat) : Bool :=
  samePlace g.sumPlace site.sumPlace && c.1 = site.variant && doms site.block c.2 &&
    preds c.2 = [g.block] && caseTargetIsExclusive g c.2 site.variant

def siteIsGuarded (site : DowncastSite) (guards : List SwitchGuard) (doms : DomMatrix)
    (preds : Nat → List Nat) : Bool :=
  guards.any fun g => g.cases.any fun c => caseAccepted doms preds site g c

/-- The downcasts that are reported as unguarded; a bad entry is reported elsewhere. -/
def checkDowncastGuards (fuel : Nat) (f : Func) : Option (List DowncastSite) :=
  let sites := collectDowncastSites f
  let n := f.blocks.length
  if sites.isEmpty || f.entry ≥ n then some []
  else do
    let preds := computePreds f
    let doms ← computeDominators fuel n f.entry preds
    let guards := collectSwitchGuards f doms
    return sites.filter fun site => !siteIsGuarded site guards doms preds

end BetLang.Validate
