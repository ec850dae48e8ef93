import BetLang.Control
import BetLang.FuncBuilder

/-! Lowering with the checks of the function builder. Whatever the nesting of a function body, a
block gets one terminator and no statement behind it, and none of the builder's assertions fails. -/

namespace BetLang.Control

open Cfg

variable {Op : Type}

namespace Checked

abbrev State (Op : Type) := Walker (Instr Op) (Term Op)

abbrev Loops := List (Nat × Nat)

def require (p : Prop) [Decidable p] : Except Fault Unit :=
  if p then .ok () else .error .rejected

def orReject {α : Type} : Option α → Except Fault α
  | none => .error .rejected
  | some a => .ok a

/-- The header with its test, the body, the exit. The body is given the header and the exit. -/
def lowerLoop (header : State Op → Except Fault (State Op)) (test : Test Op)
    (body : Nat → Nat → State Op → Except Fault (State Op)) (st : State Op) :
    Except Fault (State Op) := do
  let headerBb := st.fb.blocks.length
  let st ← (← (← st.reserveBlock).setTerm st.cur (.goto headerBb)).select headerBb
  let st ← header st
  let headerEnd := st.cur
  let bodyBb := st.fb.blocks.length
  let st := st.newBlock
  let exit := st.fb.blocks.length
  let st ← (← st.reserveBlock).setTerm headerEnd (.branch test bodyBb exit)
  (← body headerBb exit (← st.select bodyBb)).select exit

/-- `open_count_loop`, a body in the block of the element, `close_count_loop`. -/
def lowerCountLoop (o : Op) (body : State Op → Except Fault (State Op)) (st : State Op) :
    Except Fault (State Op) := do
  lowerLoop (fun st => st.emit (.compare o)) (.more o)
    (fun header _ st => do (← (← body st).emit (.advance o)).terminate (.goto header))
    (← st.emit (.start o))

def lowerExpr (st : State Op) : Expr Op → Except Fault (State Op)
  | .nil => .ok st
  | .op o => st.emit (.eval o)
  | .call o => st.emit (.call o)
  | .seq first second => do lowerExpr (← lowerExpr st first) second
  | .shortCircuit isAnd o l r => do
    let st ← lowerExpr st l
    let lhsEnd := st.cur
    let rhsBb := st.fb.blocks.length
    let st ← lowerExpr st.newBlock r
    let rhsEnd := st.cur
    let st ← st.emit (.keep o)
    let shortBb := st.fb.blocks.length
    let st ← st.newBlock.emit (.short o !isAnd)
    let merge := st.fb.blocks.length
    let st ← st.newBlock.setTerm rhsEnd (.goto merge)
    let st ← st.setTerm shortBb (.goto merge)
    let st ← st.setTerm lhsEnd
      (if isAnd then .branch (.cond o) rhsBb shortBb else .branch (.cond o) shortBb rhsBb)
    st.select merge
  | .printBool o => do
    let condEnd := st.cur
    let merge := st.fb.blocks.length
    let st ← st.reserveBlock
    let thenBb := st.fb.blocks.length
    let st ← (← st.newBlock.emit (.print o true)).terminate (.goto merge)
    let elseBb := st.fb.blocks.length
    let st ← (← st.newBlock.emit (.print o false)).terminate (.goto merge)
    (← st.setTerm condEnd (.branch (.cond o) thenBb elseBb)).select merge
  | .map o =>
    lowerCountLoop o (fun st => do
      (← (← st.emit (.element o)).emit (.call o)).emit (.push o)) st
  | .filter o =>
    lowerCountLoop o (fun st => do
      let st ← (← st.emit (.element o)).emit (.call o)
      let bodyEnd := st.cur
      let pushBb := st.fb.blocks.length
      let st ← st.newBlock.emit (.push o)
      let cont := st.fb.blocks.length
      let st ← st.newBlock.setTerm pushBb (.goto cont)
      (← st.setTerm bodyEnd (.branch (.keep o) pushBb cont)).select cont) st

mutual

def lowerStmt (sig : Sig) (loops : Loops) (st : State Op) : Stmt Op → Except Fault (State Op)
  | .eval e => lowerExpr st e
  | .bet count vals => do
    require (count = sig.rets)
    (← lowerExpr st vals).terminate .ret
  | .yeet msg => do (← lowerExpr st msg).terminate .panic
  | .bounce e o => do
    let st ← lowerExpr st e
    require sig.yikes
    let condEnd := st.cur
    let merge := st.fb.blocks.length
    let st ← st.reserveBlock
    let thenBb := st.fb.blocks.length
    let st ← st.newBlock.terminate .ret
    (← st.setTerm condEnd (.branch (.cond o) thenBb merge)).select merge
  | .dip =>
    match loops with
    | [] => .error .rejected
    | (_, exit) :: _ => st.terminate (.goto exit)
  | .skip =>
    match loops with
    | [] => .error .rejected
    | (header, _) :: _ => st.terminate (.goto header)
  | .fr chain => do
    let merge := st.fb.blocks.length
    (← emitIfChain sig loops merge (← st.reserveBlock) chain).select merge
  | .vibin cond o body =>
    lowerLoop (fun st => lowerExpr st cond) (.cond o)
      (fun header exit st => do
        (← lowerBlock sig ((header, exit) :: loops) st body).terminate (.goto header)) st
  | .squad iter o body => do
    let st ← lowerExpr st iter
    lowerLoop (fun st => st.emit (.compare o)) (.more o)
      (fun header exit st => do
        let st ← st.emit (.element o)
        let incr := st.fb.blocks.length
        let st ← lowerBlock sig ((incr, exit) :: loops) (← st.reserveBlock) body
        let st ← (← (← st.terminate (.goto incr)).select incr).emit (.advance o)
        st.terminate (.goto header))
      (← st.emit (.start o))
  | .vibe scrutinee o sum arms => do
    let st ← lowerExpr st scrutinee
    let st ← st.emit (.discriminant o)
    let switchBlock := st.cur
    let merge := st.fb.blocks.length
    let (st, cases, defaultBb) ← lowerArms sig loops o sum merge (← st.reserveBlock) arms
    (← st.setTerm switchBlock (.switch o sum cases defaultBb)).select merge
  | .holla operands o live ghosted => do
    let st ← lowerExpr st operands
    let checkBlock := st.cur
    let merge := st.fb.blocks.length
    let st ← st.reserveBlock
    let liveBb := st.fb.blocks.length
    let st ← (← lowerBlock sig loops st.newBlock live).terminate (.goto merge)
    let ghostedBb := st.fb.blocks.length
    let st ← (← lowerBlock sig loops st.newBlock ghosted).terminate (.goto merge)
    (← st.setTerm checkBlock (.hollaCheck o liveBb ghostedBb)).select merge

def emitIfChain (sig : Sig) (loops : Loops) (merge : Nat) (st : State Op) :
    Chain Op → Except Fault (State Op)
  | .done => st.terminate (.goto merge)
  | .naw body => do (← lowerBlock sig loops st body).terminate (.goto merge)
  | .fr cond o body rest => do
    let st ← lowerExpr st cond
    let condEnd := st.cur
    let thenBb := st.fb.blocks.length
    let st ← (← lowerBlock sig loops st.newBlock body).terminate (.goto merge)
    let elseBb := st.fb.blocks.length
    let st ← emitIfChain sig loops merge st.newBlock rest
    st.setTerm condEnd (.branch (.cond o) thenBb elseBb)

/-- The arms in order, then the default, with the cases of the switch. -/
def lowerArms (sig : Sig) (loops : Loops) (o : Op) (sum : List Variant) (merge : Nat)
    (st : State Op) : Arms Op → Except Fault (State Op × List (Nat × Nat) × Nat)
  | .done => do return (← st.newBlock.terminate .unreachable, [], st.fb.blocks.length)
  | .naw body => do
    let defaultBb := st.fb.blocks.length
    let st ← (← lowerBlock sig loops st.newBlock body).terminate (.goto merge)
    return (st, [], defaultBb)
  | .arm name bindings body rest => do
    let variant ← orReject (Lower.variantIndex sum name)
    require ((sum[variant]?).map (·.fields) = some bindings)
    let armBb := st.fb.blocks.length
    let st ← st.newBlock.emit (.payload o variant)
    let st ← (← lowerBlock sig loops st body).terminate (.goto merge)
    let (st, cases, defaultBb) ← lowerArms sig loops o sum merge st rest
    return (st, (variant, armBb) :: cases, defaultBb)

def lowerBlock (sig : Sig) (loops : Loops) (st : State Op) : Block Op → Except Fault (State Op)
  | .nil => .ok st
  | .cons s rest =>
    if st.done then .ok st
    else do lowerBlock sig loops (← lowerStmt sig loops st s) rest

end

def lowerFunc (f : Func Op) : Except Fault (List (List (Instr Op) × Term Op)) := do
  let st : State Op := ⟨FuncBuilder.new, 0, false⟩
  let st ← lowerBlock f.sig [] st.newBlock f.body
  let st ← st.terminate (if f.sig.rets = 0 then .ret else .unreachable)
  st.fb.finish

section Discipline

def targets : Term Op → List Nat
  | .goto target => [target]
  | .branch _ thenBb elseBb => [thenBb, elseBb]
  | .switch _ _ cases default => default :: cases.map (·.2)
  | .hollaCheck _ live ghosted => [live, ghosted]
  | .ret | .panic | .unreachable => []

abbrev Waits (O : Set Nat) (n : Nat) (st : State Op) : Prop := Walker.Waits targets O n st

abbrev Open (P : Set Nat) (n : Nat) (st : State Op) : Prop := Walker.Open targets P n st

abbrev Shut (P : Set Nat) (n : Nat) (st : State Op) : Prop := Walker.Shut targets P n st

abbrev Ready (P : Set Nat) (n : Nat) (st : State Op) : Prop := Walker.Ready targets P n st

variable {P : Set Nat} {n : Nat} {st : State Op}

theorem goto_lt {t : Nat} (h : t < n) : ∀ x ∈ targets (.goto t : Term Op), x < n := by
  intro x hx
  rw [targets, List.mem_singleton] at hx
  exact hx ▸ h

theorem pair_lt {a b : Nat} (ha : a < n) (hb : b < n) : ∀ x ∈ [a, b], x < n := by
  intro x hx
  rcases List.mem_pair.mp hx with rfl | rfl
  · exact ha
  · exact hb

theorem branch_lt {c : Test Op} {a b : Nat} (ha : a < n) (hb : b < n) :
    ∀ x ∈ targets (.branch c a b), x < n := pair_lt ha hb

theorem holla_lt {o : Op} {live ghosted : Nat} (hlive : live < n) (hghosted : ghosted < n) :
    ∀ x ∈ targets (.hollaCheck o live ghosted), x < n := pair_lt hlive hghosted

theorem emit_agrees (ho : Open P n st) (i : Instr Op) :
    Agrees Walker.erase (Open P n) (st.emit i) (some (st.erase.emit i)) :=
  (ho.emit i).agrees.mono fun _ h => h.1

theorem lowerLoop_agrees {header : State Op → Except Fault (State Op)}
    {header' : Lower.State Op → Option (Lower.State Op)} {test : Test Op}
    {body : Nat → Nat → State Op → Except Fault (State Op)}
    {body' : Nat → Nat → Lower.State Op → Option (Lower.State Op)}
    (hheader : ∀ m st, Open P m st →
      Agrees Walker.erase (Open P m) (header st) (header' st.erase))
    (hbody : ∀ h x m st, n ≤ m → h < m → x < m → Open (insert x P) m st →
      Agrees Walker.erase (Shut (insert x P) m) (body h x st) (body' h x st.erase))
    (ho : Open P n st) :
    Agrees Walker.erase (Open P n) (lowerLoop header test body st)
      (Lower.lowerLoop header' test body' st.erase) := by
  have hsize := ho.waits.size
  have hcur := ho.cur_lt
  have hfresh : st.cur ∉ insert st.fb.blocks.length P := notMem_insert (by omega) ho.fresh
  rw [lowerLoop, Lower.lowerLoop]
  refine ho.reserveBlock.bind fun st₁ he₁ ⟨ho₁, hcur₁⟩ => ?_
  have hw₁ := ho₁.waits
  rw [hcur₁] at hw₁
  refine (hw₁.setTerm hfresh (goto_lt (by omega))).bind fun st₂ he₂ ⟨hw₂, _⟩ => ?_
  refine (hw₂.select (ho.notMem (by omega))).bind fun st₃ he₃ ho₃ => ?_
  simp only [Walker.erase_blocks, Walker.erase_cur, ← he₁, ← he₂, ← he₃]
  refine (hheader _ st₃ ho₃).bind fun st₄ ho₄ => ?_
  -- The end of the header waits until the body and the exit have their blocks.
  have hsize₄ := ho₄.waits.size
  have hcur₄ := ho₄.cur_lt
  have hnew := Walker.newBlock_size st₄
  refine ho₄.waits.newBlock.reserveBlock.bind fun st₅ he₅ ⟨ho₅, hcur₅⟩ => ?_
  have hw₅ := ho₅.waits
  rw [hcur₅, Walker.newBlock_cur, Set.insert_comm _ st₄.cur, Set.insert_comm _ st₄.cur] at hw₅
  have hfresh₅ : st₄.cur ∉ insert st₄.fb.blocks.length (insert st₄.newBlock.fb.blocks.length P) :=
    notMem_insert (by omega) (notMem_insert (by omega) ho₄.fresh)
  refine (hw₅.setTerm hfresh₅ (branch_lt (by omega) (by omega))).bind fun st₆ he₆ ⟨hw₆, _⟩ => ?_
  have hfresh₆ : st₄.fb.blocks.length ∉ insert st₄.newBlock.fb.blocks.length P :=
    notMem_insert (by omega) (ho₄.notMem (by omega))
  refine (hw₆.select hfresh₆).bind fun st₇ he₇ ho₇ => ?_
  simp only [Walker.erase_newBlock, Walker.erase_blocks, Walker.erase_cur, ← he₅, ← he₆, ← he₇]
  have hcalled := hbody st.fb.blocks.length st₄.newBlock.fb.blocks.length _ st₇ (by omega)
    (by omega) (by omega) ho₇
  refine hcalled.bind fun st₈ hs₈ => ?_
  exact (hs₈.waits.select (ho₄.notMem (by omega))).agrees.mono fun _ ho₉ => ho₉.mono (by omega)

theorem lowerCountLoop_agrees {o : Op} {body : State Op → Except Fault (State Op)}
    {body' : Lower.State Op → Lower.State Op}
    (hbody : ∀ O m st, Open O m st →
      Agrees Walker.erase (Open O m) (body st) (some (body' st.erase)))
    (ho : Open P n st) :
    Agrees Walker.erase (Open P n) (lowerCountLoop o body st)
      (Lower.lowerCountLoop o body' st.erase) := by
  rw [lowerCountLoop, Lower.lowerCountLoop]
  refine (ho.emit _).bind fun st₁ he₁ ⟨ho₁, _⟩ => ?_
  rw [← he₁]
  refine lowerLoop_agrees (fun m st ho => emit_agrees ho _) ?_ ho₁
  intro h x m st _ hh _ ho
  refine (hbody _ _ st ho).goes.bind fun st₁ he₁ ho₁ => ?_
  refine (ho₁.emit _).bind fun st₂ he₂ ⟨ho₂, _⟩ => ?_
  rw [← he₁, ← he₂]
  exact (ho₂.terminate (goto_lt hh)).agrees

/-- Both ends of `&&` and `||` meet in a block of their own. -/
theorem lowerExpr_agrees (e : Expr Op) (ho : Open P n st) :
    Agrees Walker.erase (Open P n) (lowerExpr st e) (Lower.lowerExpr st.erase e) := by
  induction e generalizing P n st with
  | nil => exact .ok ho
  | op o => exact emit_agrees ho _
  | call o => exact emit_agrees ho _
  | seq first second ihFirst ihSecond =>
    rw [lowerExpr, Lower.lowerExpr]
    exact (ihFirst ho).bind fun st₁ ho₁ => ihSecond ho₁
  | shortCircuit isAnd o l r ihl ihr =>
    rw [lowerExpr, Lower.lowerExpr]
    refine (ihl ho).bind fun st₁ ho₁ => ?_
    have hsize₁ := ho₁.waits.size
    have hcur₁ := ho₁.cur_lt
    refine (ihr ho₁.waits.newBlock).bind fun st₂ ho₂ => ?_
    refine (ho₂.emit (.keep o)).bind fun st₃ he₃ ⟨ho₃, hcur₃⟩ => ?_
    have hsize₃ := ho₃.waits.size
    have hlt₃ := ho₃.cur_lt
    have hne₃ : st₁.cur ≠ st₃.cur := fun heq => ho₃.fresh (.inl heq.symm)
    refine (ho₃.waits.newBlock.emit (.short o !isAnd)).bind fun st₄ he₄ ⟨ho₄, hcur₄⟩ => ?_
    have hsize₄ := ho₄.waits.size
    rw [Walker.newBlock_cur] at hcur₄
    have hw₄ := ho₄.waits.newBlock.waits
    rw [Walker.newBlock_cur, hcur₄, hcur₃, Set.insert_comm _ st₂.cur, Set.insert_comm _ st₂.cur] at hw₄
    -- The blocks that wait: the merge, `short` and the end of the left operand.
    refine (hw₄.setTerm ?_ (goto_lt (by omega))).bind fun st₅ he₅ ⟨hw₅, _⟩ => ?_
    · exact notMem_insert (by omega) (notMem_insert (by omega) (hcur₃ ▸ ho₃.fresh))
    rw [Set.insert_comm] at hw₅
    refine (hw₅.setTerm ?_ (goto_lt (by omega))).bind fun st₆ he₆ ⟨hw₆, _⟩ => ?_
    · exact notMem_insert (by omega) (notMem_insert (by omega) (ho₁.notMem (by omega)))
    rw [Set.insert_comm] at hw₆
    refine (hw₆.setTerm ?_ ?_).bind fun st₇ he₇ ⟨hw₇, _⟩ => ?_
    · exact notMem_insert (by omega) ho₁.fresh
    · cases isAnd
      · exact branch_lt (by omega) (by omega)
      · exact branch_lt (by omega) (by omega)
    simp only [Walker.erase_newBlock, Walker.erase_blocks, Walker.erase_cur, ← he₃, ← he₄, ← he₅, ← he₆,
      ← he₇]
    refine (hw₇.select (ho₁.notMem (by omega))).agrees.mono fun _ ho₈ => ho₈.mono (by omega)
  | printBool o =>
    rw [lowerExpr, Lower.lowerExpr]
    have hsize := ho.waits.size
    have hcur := ho.cur_lt
    refine ho.reserveBlock.bind fun st₁ he₁ ⟨ho₁, hcur₁⟩ => ?_
    have hsize₁ := ho₁.waits.size
    refine (ho₁.waits.newBlock.emit (.print o true)).bind fun st₂ he₂ ⟨ho₂, _⟩ => ?_
    refine (ho₂.terminate (goto_lt (by omega))).bind fun st₃ he₃ hs₃ => ?_
    have hsize₃ := hs₃.waits.size
    refine (hs₃.waits.newBlock.emit (.print o false)).bind fun st₄ he₄ ⟨ho₄, _⟩ => ?_
    refine (ho₄.terminate (goto_lt (by omega))).bind fun st₅ he₅ hs₅ => ?_
    have hw₅ := hs₅.waits
    rw [hcur₁] at hw₅
    refine (hw₅.setTerm ?_ (branch_lt (by omega) (by omega))).bind fun st₆ he₆ ⟨hw₆, _⟩ => ?_
    · exact notMem_insert (by omega) ho.fresh
    simp only [Walker.erase_newBlock, Walker.erase_blocks, Walker.erase_cur, ← he₁, ← he₂, ← he₃,
      ← he₄, ← he₅, ← he₆]
    exact (hw₆.select (ho.notMem (by omega))).agrees.mono fun _ ho₇ => ho₇.mono (by omega)
  | map o =>
    refine lowerCountLoop_agrees (fun O m st ho => ?_) ho
    refine (ho.emit _).bind fun st₁ he₁ ⟨ho₁, _⟩ => ?_
    refine (ho₁.emit _).bind fun st₂ he₂ ⟨ho₂, _⟩ => ?_
    rw [← he₁, ← he₂]
    exact emit_agrees ho₂ _
  | filter o =>
    refine lowerCountLoop_agrees (fun O m st ho => ?_) ho
    refine (ho.emit _).bind fun st₁ he₁ ⟨ho₁, _⟩ => ?_
    refine (ho₁.emit _).bind fun st₂ he₂ ⟨ho₂, _⟩ => ?_
    have hsize₂ := ho₂.waits.size
    have hcur₂ := ho₂.cur_lt
    refine (ho₂.waits.newBlock.emit (.push o)).bind fun st₃ he₃ ⟨ho₃, hcur₃⟩ => ?_
    have hsize₃ := ho₃.waits.size
    rw [Walker.newBlock_cur] at hcur₃
    have hw₃ := ho₃.waits.newBlock.waits
    rw [Walker.newBlock_cur, hcur₃, Set.insert_comm] at hw₃
    refine (hw₃.setTerm ?_ (goto_lt (by omega))).bind fun st₄ he₄ ⟨hw₄, _⟩ => ?_
    · exact notMem_insert (by omega) (notMem_insert (by omega) (ho₂.notMem (by omega)))
    rw [Set.insert_comm] at hw₄
    refine (hw₄.setTerm ?_ (branch_lt (by omega) (by omega))).bind fun st₅ he₅ ⟨hw₅, _⟩ => ?_
    · exact notMem_insert (by omega) ho₂.fresh
    simp only [Walker.erase_newBlock, Walker.erase_blocks, Walker.erase_cur, ← he₁, ← he₂, ← he₃,
      ← he₄, ← he₅]
    exact (hw₅.select (ho₂.notMem (by omega))).agrees.mono fun _ ho₆ => ho₆.mono (by omega)

/-- The targets of `dip` and `skip` exist. -/
def Inside (loops : Loops) (n : Nat) : Prop := ∀ l ∈ loops, l.1 < n ∧ l.2 < n

theorem Inside.mono {loops : Loops} {m : Nat} (hl : Inside loops n) (h : n ≤ m) :
    Inside loops m := by
  intro l hin
  obtain ⟨h₁, h₂⟩ := hl l hin
  omega

theorem Inside.cons {loops : Loops} {m header exit : Nat} (hl : Inside loops n) (h : n ≤ m)
    (hheader : header < m) (hexit : exit < m) : Inside ((header, exit) :: loops) m := by
  intro l hin
  rcases List.mem_cons.mp hin with rfl | hin
  · exact ⟨hheader, hexit⟩
  · exact hl.mono h l hin

theorem require_agrees {α β : Type} {e : α → β} {Q : α → Prop} {p : Prop} [Decidable p]
    {r : Except Fault α} {o : Option β} (h : Agrees e Q r o) :
    Agrees e Q (require p >>= fun _ => r) (guard p >>= fun _ => o) := by
  by_cases hp : p
  · have hguard : (guard p : Option Unit) = some () := if_pos hp
    have hrequire : require p = .ok () := if_pos hp
    rw [hguard, hrequire]
    exact h
  · have hguard : (guard p : Option Unit) = none := if_neg hp
    have hrequire : require p = .error .rejected := if_neg hp
    rw [hguard, hrequire]
    exact .rejected

theorem orReject_agrees {α : Type} (o : Option α) :
    Agrees id (fun _ => True) (orReject o) o := by
  cases o with
  | none => exact .rejected
  | some a => exact .ok trivial

/-- The number of the first block of an arm and that of the default exist. -/
def ArmsShut (P : Set Nat) (n : Nat) (r : State Op × List (Nat × Nat) × Nat) : Prop :=
  Shut P n r.1 ∧ (∀ c ∈ r.2.1, c.2 < r.1.fb.blocks.length) ∧ r.2.2 < r.1.fb.blocks.length

/-- Lowering of a statement keeps the discipline, whatever waits around it. -/
def StmtAgrees (sig : Sig) (s : Stmt Op) : Prop :=
  ∀ (loops : Loops) (P : Set Nat) (n : Nat) (st : State Op), Inside loops n → Open P n st →
    Agrees Walker.erase (Ready P n) (lowerStmt sig loops st s)
      (Lower.lowerStmt sig loops st.erase s)

def BlockAgrees (sig : Sig) (b : Block Op) : Prop :=
  ∀ (loops : Loops) (P : Set Nat) (n : Nat) (st : State Op), Inside loops n → Ready P n st →
    Agrees Walker.erase (Ready P n) (lowerBlock sig loops st b)
      (Lower.lowerBlock sig loops st.erase b)

def ChainAgrees (sig : Sig) (chain : Chain Op) : Prop :=
  ∀ (loops : Loops) (merge : Nat) (P : Set Nat) (n : Nat) (st : State Op), Inside loops n →
    merge < n → Open P n st →
    Agrees Walker.erase (Shut P n) (emitIfChain sig loops merge st chain)
      (Lower.emitIfChain sig loops merge st.erase chain)

def ArmsAgrees (sig : Sig) (arms : Arms Op) : Prop :=
  ∀ (loops : Loops) (o : Op) (sum : List Variant) (merge : Nat) (P : Set Nat) (n : Nat)
    (st : State Op), Inside loops n → merge < n → Waits P n st →
    Agrees (fun r => (r.1.erase, r.2.1, r.2.2)) (ArmsShut P n)
      (lowerArms sig loops o sum merge st arms)
      (Lower.lowerArms sig loops o sum merge st.erase arms)

section Statements

variable {sig : Sig}

theorem ret_lt : ∀ x ∈ targets (.ret : Term Op), x < n := by
  intro x hx
  cases hx

/-- A block of its own, closed by a jump unless it has left before. -/
theorem BlockAgrees.goto {b : Block Op} (hb : BlockAgrees sig b) {loops : Loops} {merge : Nat}
    (hl : Inside loops n) (hm : merge < n) (hr : Ready P n st) :
    Agrees Walker.erase (Shut P n)
      (do (← lowerBlock sig loops st b).terminate (.goto merge))
      (do return (← Lower.lowerBlock sig loops st.erase b).terminate (.goto merge)) :=
  (hb loops P n st hl hr).bind fun _ hr₁ => (hr₁.terminate (goto_lt hm)).agrees

theorem bet_agrees (count : Nat) (vals : Expr Op) : StmtAgrees sig (.bet count vals) := by
  intro loops P n st _ ho
  refine require_agrees ((lowerExpr_agrees vals ho).bind fun st₁ ho₁ => ?_)
  exact (ho₁.terminate ret_lt).agrees.mono fun _ => .inr

theorem yeet_agrees (msg : Expr Op) : StmtAgrees sig (.yeet msg) := by
  intro loops P n st _ ho
  refine (lowerExpr_agrees msg ho).bind fun st₁ ho₁ => ?_
  exact (ho₁.terminate (by intro x hx; cases hx)).agrees.mono fun _ => .inr

theorem bounce_agrees (e : Expr Op) (o : Op) : StmtAgrees sig (.bounce e o) := by
  intro loops P n st _ ho
  refine (lowerExpr_agrees e ho).bind fun st₁ ho₁ => require_agrees ?_
  have hsize₁ := ho₁.waits.size
  have hcur₁ := ho₁.cur_lt
  refine ho₁.reserveBlock.bind fun st₂ he₂ ⟨ho₂, hcur₂⟩ => ?_
  have hsize₂ := ho₂.waits.size
  refine (ho₂.waits.newBlock.terminate ret_lt).bind fun st₃ he₃ hs₃ => ?_
  have hw₃ := hs₃.waits
  rw [hcur₂] at hw₃
  refine (hw₃.setTerm ?_ (branch_lt (by omega) (by omega))).bind fun st₄ he₄ ⟨hw₄, _⟩ => ?_
  · exact notMem_insert (by omega) ho₁.fresh
  simp only [Walker.erase_newBlock, Walker.erase_blocks, Walker.erase_cur, ← he₂, ← he₃, ← he₄]
  exact (hw₄.select (ho₁.notMem (by omega))).agrees.mono fun _ ho₅ => .inl (ho₅.mono (by omega))

theorem dip_agrees : StmtAgrees sig (.dip : Stmt Op) := by
  intro loops P n st hl ho
  cases loops with
  | nil => exact .rejected
  | cons loop loops =>
    have hlt := (hl loop (List.mem_cons_self ..)).2
    exact (ho.terminate (goto_lt hlt)).agrees.mono fun _ => .inr

theorem skip_agrees : StmtAgrees sig (.skip : Stmt Op) := by
  intro loops P n st hl ho
  cases loops with
  | nil => exact .rejected
  | cons loop loops =>
    have hlt := (hl loop (List.mem_cons_self ..)).1
    exact (ho.terminate (goto_lt hlt)).agrees.mono fun _ => .inr

theorem fr_agrees {chain : Chain Op} (hchain : ChainAgrees sig chain) :
    StmtAgrees sig (.fr chain) := by
  intro loops P n st hl ho
  have hsize := ho.waits.size
  refine ho.reserveBlock.bind fun st₁ he₁ ⟨ho₁, _⟩ => ?_
  have hgo := hchain loops st.fb.blocks.length _ _ st₁ (hl.mono (by omega)) (by omega) ho₁
  rw [he₁] at hgo
  refine hgo.bind fun st₂ hs₂ => ?_
  exact (hs₂.waits.select (ho.notMem (by omega))).agrees.mono fun _ ho₃ => .inl (ho₃.mono (by omega))

theorem vibin_agrees (cond : Expr Op) (o : Op) {body : Block Op} (hb : BlockAgrees sig body) :
    StmtAgrees sig (.vibin cond o body) := by
  intro loops P n st hl ho
  show Agrees Walker.erase (Ready P n)
    (lowerLoop (fun st => lowerExpr st cond) (.cond o) (fun header exit st => do
      (← lowerBlock sig ((header, exit) :: loops) st body).terminate (.goto header)) st)
    (Lower.lowerLoop (fun st => Lower.lowerExpr st cond) (.cond o) (fun header exit st => do
      return (← Lower.lowerBlock sig ((header, exit) :: loops) st body).terminate (.goto header))
      st.erase)
  refine (lowerLoop_agrees (fun m st ho => lowerExpr_agrees cond ho) ?_ ho).mono fun _ => .inl
  intro header exit m st hnm hh hx ho
  exact hb.goto (hl.cons hnm hh hx) hh (.inl ho)

theorem squad_agrees (iter : Expr Op) (o : Op) {body : Block Op} (hb : BlockAgrees sig body) :
    StmtAgrees sig (.squad iter o body) := by
  intro loops P n st hl ho
  refine (lowerExpr_agrees iter ho).bind fun st₁ ho₁ => ?_
  refine (ho₁.emit (.start o)).bind fun st₂ he₂ ⟨ho₂, _⟩ => ?_
  rw [← he₂]
  refine (lowerLoop_agrees (fun m st ho => emit_agrees ho _) ?_ ho₂).mono fun _ => .inl
  intro header exit m st hnm hh hx ho
  refine (ho.emit (.element o)).bind fun st₃ he₃ ⟨ho₃, _⟩ => ?_
  have hsize₃ := ho₃.waits.size
  refine ho₃.reserveBlock.bind fun st₄ he₄ ⟨ho₄, _⟩ => ?_
  have hinside : Inside ((st₃.fb.blocks.length, exit) :: loops) (st₃.fb.blocks.length + 1) :=
    hl.cons (by omega) (by omega) (by omega)
  simp only [← he₃, Walker.erase_blocks, ← he₄]
  refine (hb _ _ _ st₄ hinside (.inl ho₄)).bind fun st₅ hr₅ => ?_
  refine (hr₅.terminate (goto_lt (by omega))).bind fun st₆ he₆ hs₆ => ?_
  refine (hs₆.waits.select (ho₃.notMem (by omega))).bind fun st₇ he₇ ho₇ => ?_
  refine (ho₇.emit (.advance o)).bind fun st₈ he₈ ⟨ho₈, _⟩ => ?_
  rw [← he₆, ← he₇, ← he₈]
  exact (ho₈.terminate (goto_lt (by omega))).agrees.mono fun _ hs₉ => hs₉.mono (by omega)

theorem vibe_agrees (scrutinee : Expr Op) (o : Op) (sum : List Variant) {arms : Arms Op}
    (harms : ArmsAgrees sig arms) : StmtAgrees sig (.vibe scrutinee o sum arms) := by
  intro loops P n st hl ho
  refine (lowerExpr_agrees scrutinee ho).bind fun st₁ ho₁ => ?_
  refine (ho₁.emit (.discriminant o)).bind fun st₂ he₂ ⟨ho₂, _⟩ => ?_
  have hsize₂ := ho₂.waits.size
  have hcur₂ := ho₂.cur_lt
  refine ho₂.reserveBlock.bind fun st₃ he₃ ⟨ho₃, hcur₃⟩ => ?_
  simp only [Walker.erase_blocks, Walker.erase_cur, ← he₂, ← he₃]
  refine (harms loops o sum _ _ _ st₃ (hl.mono (by omega)) (Nat.lt_succ_self _)
    ho₃.waits).bind fun ⟨st₄, cases, defaultBb⟩ ⟨hs₄, hcases, hdefault⟩ => ?_
  have hsize₄ : st₂.fb.blocks.length + 1 ≤ st₄.fb.blocks.length := hs₄.waits.size
  have hw₄ : Waits _ st₄.fb.blocks.length st₄ := ⟨hs₄.waits.blocks, Nat.le_refl _⟩
  rw [hcur₃] at hw₄
  have htargets : ∀ x ∈ targets (.switch o sum cases defaultBb), x < st₄.fb.blocks.length := by
    intro x hx
    rcases List.mem_cons.mp hx with rfl | hx
    · exact hdefault
    · obtain ⟨c, hc, rfl⟩ := List.mem_map.mp hx
      exact hcases c hc
  have hfresh : st₂.cur ∉ insert st₂.fb.blocks.length P := notMem_insert (by omega) ho₂.fresh
  refine (hw₄.setTerm hfresh htargets).bind fun st₅ he₅ ⟨hw₅, _⟩ => ?_
  dsimp only
  rw [← he₅]
  exact (hw₅.select (ho₂.notMem (by omega))).agrees.mono fun _ ho₆ => .inl (ho₆.mono (by omega))

theorem holla_agrees (operands : Expr Op) (o : Op) {live ghosted : Block Op}
    (hlive : BlockAgrees sig live) (hghosted : BlockAgrees sig ghosted) :
    StmtAgrees sig (.holla operands o live ghosted) := by
  intro loops P n st hl ho
  refine (lowerExpr_agrees operands ho).bind fun st₁ ho₁ => ?_
  have hsize₁ := ho₁.waits.size
  have hcur₁ := ho₁.cur_lt
  refine ho₁.reserveBlock.bind fun st₂ he₂ ⟨ho₂, hcur₂⟩ => ?_
  have hsize₂ := ho₂.waits.size
  simp only [Walker.erase_blocks, Walker.erase_cur, ← he₂, Walker.erase_newBlock]
  refine (hlive loops _ _ _ (hl.mono (by omega)) (.inl ho₂.waits.newBlock)).bind fun st₃ hr₃ => ?_
  refine (hr₃.terminate (goto_lt (by omega))).bind fun st₄ he₄ hs₄ => ?_
  have hsize₄ := hs₄.waits.size
  simp only [← he₄, Walker.erase_newBlock, Walker.erase_blocks]
  refine (hghosted loops _ _ _ (hl.mono (by omega)) (.inl hs₄.waits.newBlock)).bind fun st₅ hr₅ => ?_
  refine (hr₅.terminate (goto_lt (by omega))).bind fun st₆ he₆ hs₆ => ?_
  have hw₆ := hs₆.waits
  rw [hcur₂] at hw₆
  have hfresh : st₁.cur ∉ insert st₁.fb.blocks.length P := notMem_insert (by omega) ho₁.fresh
  refine (hw₆.setTerm hfresh (holla_lt (by omega) (by omega))).bind fun st₇ he₇ ⟨hw₇, _⟩ => ?_
  simp only [← he₆, ← he₇]
  exact (hw₇.select (ho₁.notMem (by omega))).agrees.mono fun _ ho₈ => .inl (ho₈.mono (by omega))

theorem done_agrees : ChainAgrees sig (.done : Chain Op) :=
  fun _ _ _ _ _ _ hm ho => (ho.terminate (goto_lt hm)).agrees

theorem chain_agrees (cond : Expr Op) (o : Op) {body : Block Op} {rest : Chain Op}
    (hb : BlockAgrees sig body) (hrest : ChainAgrees sig rest) :
    ChainAgrees sig (.fr cond o body rest) := by
  intro loops merge P n st hl hm ho
  rw [emitIfChain, Lower.emitIfChain]
  refine (lowerExpr_agrees cond ho).bind fun st₁ ho₁ => ?_
  have hsize₁ := ho₁.waits.size
  simp only [Walker.erase_newBlock, Walker.erase_blocks, Walker.erase_cur]
  refine (hb loops _ _ _ (hl.mono (by omega)) (.inl ho₁.waits.newBlock)).bind fun st₂ hr₂ => ?_
  refine (hr₂.terminate (goto_lt (by omega))).bind fun st₃ he₃ hs₃ => ?_
  have hsize₃ := hs₃.waits.size
  simp only [← he₃, Walker.erase_newBlock, Walker.erase_blocks]
  refine (hrest loops merge _ _ _ (hl.mono (by omega)) (by omega) hs₃.waits.newBlock).bind
    fun st₄ hs₄ => ?_
  refine (hs₄.waits.setTerm ho₁.fresh (branch_lt (by omega) (by omega))).agrees.mono ?_
  exact fun _ ⟨hw₅, hdone₅⟩ => ⟨hdone₅.trans hs₄.done, hw₅.mono (by omega)⟩

theorem default_agrees : ArmsAgrees sig (.done : Arms Op) := by
  intro loops o sum merge P n st _ _ hw
  have hsize := hw.size
  refine (hw.newBlock.terminate (t := .unreachable) (by intro x hx; cases hx)).bind
    fun st₁ he₁ hs₁ => ?_
  have hdefault : Lower.lowerArms sig loops o sum merge st.erase .done =
      some (st₁.erase, [], st.fb.blocks.length) :=
    congrArg (fun b => some (b, [], st.fb.blocks.length)) he₁.symm
  rw [hdefault]
  exact .ok ⟨hs₁.mono (by omega), fun c hc => (by cases hc), hs₁.waits.size⟩

theorem naw_agrees {body : Block Op} (hb : BlockAgrees sig body) : ArmsAgrees sig (.naw body) := by
  intro loops o sum merge P n st hl hm hw
  have hsize := hw.size
  refine (hb loops _ _ _ (hl.mono (by omega)) (.inl hw.newBlock)).bind fun st₁ hr₁ => ?_
  refine (hr₁.terminate (goto_lt (by omega))).bind fun st₂ he₂ hs₂ => ?_
  rw [← he₂]
  exact .ok ⟨hs₂.mono (by omega), fun c hc => (by cases hc), hs₂.waits.size⟩

theorem arm_agrees (name : String) (bindings : Nat) {body : Block Op} {rest : Arms Op}
    (hb : BlockAgrees sig body) (hrest : ArmsAgrees sig rest) :
    ArmsAgrees sig (.arm name bindings body rest) := by
  intro loops o sum merge P n st hl hm hw
  have hsize := hw.size
  refine (orReject_agrees _).bind fun variant _ => require_agrees ?_
  refine (hw.newBlock.emit (.payload o variant)).bind fun st₁ he₁ ⟨ho₁, _⟩ => ?_
  simp only [Walker.erase_newBlock, Walker.erase_blocks, id_eq, ← he₁]
  refine (hb loops _ _ _ (hl.mono (by omega)) (.inl ho₁)).bind fun st₂ hr₂ => ?_
  refine (hr₂.terminate (goto_lt (by omega))).bind fun st₃ he₃ hs₃ => ?_
  rw [← he₃]
  refine (hrest loops o sum merge _ _ st₃ (hl.mono (by omega)) (by omega) hs₃.waits).bind
    fun ⟨st₄, cases, defaultBb⟩ ⟨hs₄, hcases, hdefault⟩ => ?_
  refine .ok ⟨hs₄.mono (by omega), fun c hc => ?_, hdefault⟩
  rcases List.mem_cons.mp hc with rfl | hc
  · exact hs₄.waits.size
  · exact hcases c hc

theorem cons_agrees {s : Stmt Op} {rest : Block Op} (hs : StmtAgrees sig s)
    (hrest : BlockAgrees sig rest) : BlockAgrees sig (.cons s rest) := by
  intro loops P n st hl hr
  rw [lowerBlock, Lower.lowerBlock]
  rcases hr with ho | hs'
  · have hdone : st.erase.done = false := ho.done
    rw [ho.done, hdone]
    exact (hs loops P n st hl ho).bind fun st₁ hr₁ => hrest loops P n st₁ hl hr₁
  · have hdone : st.erase.done = true := hs'.done
    rw [hs'.done, hdone]
    exact .ok (.inr hs')

mutual

theorem lowerStmt_agrees (s : Stmt Op) : StmtAgrees sig s := by
  cases s with
  | eval e => exact fun _ _ _ _ _ ho => (lowerExpr_agrees e ho).mono fun _ => .inl
  | bet count vals => exact bet_agrees count vals
  | yeet msg => exact yeet_agrees msg
  | bounce e o => exact bounce_agrees e o
  | dip => exact dip_agrees
  | skip => exact skip_agrees
  | fr chain => exact fr_agrees (emitIfChain_agrees chain)
  | vibin cond o body => exact vibin_agrees cond o (lowerBlock_agrees body)
  | squad iter o body => exact squad_agrees iter o (lowerBlock_agrees body)
  | vibe scrutinee o sum arms => exact vibe_agrees scrutinee o sum (lowerArms_agrees arms)
  | holla operands o live ghosted =>
    exact holla_agrees operands o (lowerBlock_agrees live) (lowerBlock_agrees ghosted)

theorem emitIfChain_agrees (chain : Chain Op) : ChainAgrees sig chain := by
  cases chain with
  | done => exact done_agrees
  | naw body => exact fun _ _ _ _ _ hl hm ho => (lowerBlock_agrees body).goto hl hm (.inl ho)
  | fr cond o body rest =>
    exact chain_agrees cond o (lowerBlock_agrees body) (emitIfChain_agrees rest)

theorem lowerArms_agrees (arms : Arms Op) : ArmsAgrees sig arms := by
  cases arms with
  | done => exact default_agrees
  | naw body => exact naw_agrees (lowerBlock_agrees body)
  | arm name bindings body rest =>
    exact arm_agrees name bindings (lowerBlock_agrees body) (lowerArms_agrees rest)

theorem lowerBlock_agrees (b : Block Op) : BlockAgrees sig b := by
  cases b with
  | nil => exact fun _ _ _ _ _ hr => .ok hr
  | cons s rest => exact cons_agrees (lowerStmt_agrees s) (lowerBlock_agrees rest)

end

end Statements

/-- A walk over a function starts in its entry block. -/
theorem entry_open : Open ∅ 1 (Walker.newBlock ⟨FuncBuilder.new, 0, false⟩ : State Op) := by
  have hw : Waits ∅ 0 (⟨FuncBuilder.new, 0, false⟩ : State Op) := ⟨.nil, Nat.le_refl _⟩
  exact hw.newBlock

/-- The unchecked lowering looks for missing terminators at its end. -/
theorem unchecked_finish {bs : Blocks (Instr Op) (Term Op)}
    (h : bs.all (·.term.isSome) = true) :
    (do guard (bs.all (·.term.isSome)); return bs : Option (Blocks (Instr Op) (Term Op))) =
      some bs := by
  rw [h]
  rfl

/-- What is said of a function that is built. -/
def Finished (g : List (List (Instr Op) × Term Op)) : Prop :=
  g ≠ [] ∧ ∀ b ∈ g, ∀ x ∈ targets b.2, x < g.length

theorem lowerFunc_finished (f : Func Op) :
    Agrees (fun g => g.map fun b => (⟨b.1, some b.2⟩ : Cfg.Block (Instr Op) (Term Op))) Finished
      (lowerFunc f) (Lower.lowerFunc f) := by
  rw [lowerFunc, Lower.lowerFunc]
  refine (lowerBlock_agrees f.body [] ∅ 1 _ (fun l hl => (by cases hl)) (.inl entry_open)).bind
    fun st₁ hr₁ => ?_
  have hend : ∀ x ∈ targets (if f.sig.rets = 0 then .ret else .unreachable : Term Op), x < 1 := by
    intro x hx
    by_cases hrets : f.sig.rets = 0
    · rw [if_pos hrets] at hx
      cases hx
    · rw [if_neg hrets] at hx
      cases hx
  refine (hr₁.terminate hend).bind fun st₂ he₂ hs₂ => ?_
  obtain ⟨g, hg, hblocks, hne, htargets⟩ := hs₂.finish
  rw [hg]
  refine .inr ⟨g, rfl, ?_, hne, htargets⟩
  have hall : st₂.erase.blocks.all (·.term.isSome) = true := by
    rw [Walker.erase_blocks, hblocks, List.all_map, List.all_eq_true]
    exact fun _ _ => rfl
  rw [← he₂]
  exact (unchecked_finish hall).trans (congrArg some hblocks)

/-- Lowering may refuse a function. No assertion of the builder fails, no statement follows a
terminator, and what is built has a terminator in every block, with blocks for targets. -/
theorem lowerFunc_disciplined (f : Func Op) :
    match lowerFunc f with
    | .ok g => Finished g
    | .error fault => fault = .rejected := by
  rcases lowerFunc_finished f with ⟨hr, _⟩ | ⟨g, hr, _, hfin⟩
  · rw [hr]
  · rw [hr]
    exact hfin

-- Dead code behind `dip` builds nothing: entry, header, body and exit.
example : (lowerFunc (⟨⟨0, false⟩, .cons (.vibin .nil () (.cons .dip (.cons .skip .nil))) .nil⟩ :
    Func Unit)).toOption.map (·.length) = some 4 := rfl

end Discipline

end Checked

end BetLang.Control
