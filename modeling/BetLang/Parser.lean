import BetLang.SurfaceAst
import Mathlib.Algebra.Group.Int.Defs

/-! The parser: recursive descent over the tokens, with the calls it makes. -/

namespace BetLang.Parser

open Lexer (Token)
open Surface

section Machine

/-- The functions that call others of the parser. -/
inductive Fn where
  | program
  | topItem
  | pull
  | externDecl
  | fnDecl
  | receiver
  | genericParams
  | paramList
  | param
  | optRet
  | optRetSingle
  | dripDecl
  | fieldDecl
  | moodsDecl
  | variant
  | cribDecl
  | constDecl
  | varDecl
  | parseType
  | parseTypeInner
  | block
  | stmt
  | frStmt
  | vibinStmt
  | squadStmt
  | vibeStmt
  | matchArm
  | hollaStmt
  | sheeshStmt
  | exprOrAssign
  | exprHeader
  | exprList
  | expr
  | orExpr
  | andExpr
  | cmpExpr
  | bitorExpr
  | bitxorExpr
  | bitandExpr
  | shiftExpr
  | addExpr
  | mulExpr
  | castExpr
  | unaryExpr
  | unaryExprInner
  | postfixExpr
  | primary
  | fullExpr
  | maybeGenericArgs
  | structLitBody
  | arrayLit
  | copExpr
  | copInit
  | callArgs
  | arg
  deriving DecidableEq

/-- What a syntax error says; `outOfFuel` is none of the parser's. -/
inductive Error where
  | tooDeep
  | expected (t : Token) (found : Option Token)
  | expectedIdent (found : Option Token)
  | expectedStr (found : Option Token)
  | expectedInt (found : Option Token)
  | expectedAssignOp (found : Option Token)
  | topLevel (found : Option Token)
  | expression (found : Option Token)
  | outOfFuel

/-- A call: the functions that are running then, the last called first, and the depth counter. -/
structure Call where
  stack : List Fn
  depth : Nat

/-- The parser, with the functions that are running and the calls made so far. -/
structure State where
  toks : List Token
  pos : Nat
  noStruct : Bool
  depth : Nat
  stack : List Fn
  calls : List Call

/-- A step of the parser; the state is kept when it fails. -/
def P (α : Type) : Type := State → Except Error α × State

variable {α β : Type}

protected def P.pure (a : α) : P α := fun s => (.ok a, s)

protected def P.bind (m : P α) (f : α → P β) : P β := fun s =>
  match m s with
  | (.ok a, s) => f a s
  | (.error e, s) => (.error e, s)

instance : Monad P where
  pure := P.pure
  bind := P.bind

def fail (e : Error) : P α := fun s => (.error e, s)

/-- The body of a function that is called. -/
def call (f : Fn) (m : P α) : P α := fun s =>
  let r := m { s with stack := f :: s.stack, calls := ⟨f :: s.stack, s.depth⟩ :: s.calls }
  (r.1, { r.2 with stack := s.stack })

end Machine

section Depth

def maxDepth : Nat := 256

def enterDepth : P Unit := fun s =>
  if s.depth + 1 > maxDepth then (.error .tooDeep, s) else (.ok (), { s with depth := s.depth + 1 })

/-- The counter is put back on every way out. -/
def exitDepth {α : Type} (m : P α) : P α := fun s =>
  let r := m s
  (r.1, { r.2 with depth := r.2.depth - 1 })

def guarded {α : Type} (m : P α) : P α := do
  enterDepth
  exitDepth m

end Depth

section Cursor

def peek : P (Option Token) := fun s => (.ok s.toks[s.pos]?, s)

def peek2 : P (Option Token) := fun s => (.ok s.toks[s.pos + 1]?, s)

def advance : P Unit := fun s => (.ok (), { s with pos := s.pos + 1 })

def check (t : Token) : P Bool := fun s => (.ok (s.toks[s.pos]? == some t), s)

def eat (t : Token) : P Bool := do
  if ← check t then do advance; pure true
  else pure false

def expect (t : Token) : P Unit := do
  if ← eat t then pure ()
  else do fail (.expected t (← peek))

def ident : P String := do
  match ← peek with
  | some (.ident s) => do advance; pure s
  | found => fail (.expectedIdent found)

def strLit : P String := do
  match ← peek with
  | some (.str s) => do advance; pure s
  | found => fail (.expectedStr found)

def intLit : P Int := do
  match ← peek with
  | some (.int v) => do advance; pure v
  | found => fail (.expectedInt found)

def getNoStruct : P Bool := fun s => (.ok s.noStruct, s)

def setNoStruct (b : Bool) : P Unit := fun s => (.ok (), { s with noStruct := b })

/-- With struct literals off or on; the flag is put back on every way out. -/
def withNoStruct {α : Type} (b : Bool) (m : P α) : P α := fun s =>
  let r := m { s with noStruct := b }
  (r.1, { r.2 with noStruct := s.noStruct })

variable {α σ : Type}

/-- A loop that goes on as long as the body gives the next state of it. -/
def loop : Nat → (σ → P (σ ⊕ α)) → σ → P α
  | 0, _, _ => fail .outOfFuel
  | n + 1, body, x => do
    match ← body x with
    | .inl x => loop n body x
    | .inr a => pure a

/-- `while self.eat(t) { out.push(m) }`. -/
def whileEat (n : Nat) (t : Token) (m : P α) (out : List α) : P (List α) :=
  loop n (fun out => do
    if ← eat t then do pure (.inl (out ++ [← m]))
    else pure (.inr out)) out

/-- One or more, with commas between. -/
def commaList (n : Nat) (m : P α) : P (List α) := do
  let first ← m
  whileEat n .comma m [first]

def skipSemis (n : Nat) : P Unit :=
  loop n (fun _ => do
    if ← check .semi then do advance; pure (.inl ())
    else pure (.inr ())) ()

/-- At the closing brace, or behind the last token. -/
def closing : P Bool := do
  if ← check .rBrace then pure true
  else do pure (← peek).isNone

/-- The members of a braced list, up to its closing brace. -/
def untilBrace (n : Nat) (m : P α) : P (List α) :=
  loop n (fun out => do
    skipSemis n
    if ← closing then pure (.inr out)
    else do pure (.inl (out ++ [← m]))) []

def opt (t : Token) (m : P α) : P (Option α) := do
  if ← eat t then do pure (some (← m))
  else pure none

end Cursor

/-- The functions through which calls come back to themselves, and the fuel of the loops. -/
structure Knot where
  fuel : Nat
  parseType : P (Ty String)
  expr : P (Expr String String)
  unaryExpr : P (Expr String String)
  copExpr : P (Expr String String)
  block : P (Block String String)

variable (k : Knot)

section Types

/-- A name, with a member behind a dot if there is one. -/
def dotted (name : String) : P (Path String) := do
  pure ⟨name, ← opt .dot ident⟩

def nextIsInt : P Bool := do
  match ← peek2 with
  | some (.int _) => pure true
  | _ => pure false

def atBracket : P Bool := check .lBracket

/-- `int_lit()? as u64`. -/
def arraySize : P UInt64 := do
  pure (UInt64.ofNat ((← intLit) % 2 ^ 64).toNat)

/-- The array dimensions behind a type. -/
def dimensions (ty : Ty String) : P (Ty String) :=
  loop k.fuel (fun ty => do
    if (← atBracket) && (← nextIsInt) then do
      advance
      let size ← arraySize
      expect .rBracket
      pure (.inl (.array ty size))
    else pure (.inr ty)) ty

def typeParams : P (List (Ty String)) := do
  if ← check .rParen then pure []
  else commaList k.fuel k.parseType

def finnaType : P (Ty String) := do
  expect .lParen
  let params ← typeParams k
  expect .rParen
  expect .arrow
  let ret ← k.parseType
  pure (.fn params ret)

def typeGenerics : P (List (Ty String)) := do
  if (← atBracket) && !(← nextIsInt) then do
    advance
    let generics ← commaList k.fuel k.parseType
    expect .rBracket
    pure generics
  else pure []

def namedType : P (Ty String) := do
  let name ← ident
  if name = "rawptr" then dimensions k .rawPtr
  else do
    let path ← dotted name
    -- `rawptr` behind a module's name is a name like any other
    let generics ← typeGenerics k
    dimensions k (.named path generics)

def parseTypeInner : P (Ty String) := call .parseTypeInner do
  if ← check .lBracket then do
    advance
    expect .rBracket
    pure (.slice (← k.parseType))
  else if ← eat .tag then do pure (.tag (← k.parseType))
  else if ← eat .crib then do pure (.crib (← k.parseType))
  else if ← eat .soa then do pure (.soa (← k.parseType))
  else if ← eat .finna then finnaType k
  else namedType k

def parseType : P (Ty String) := call .parseType (guarded (parseTypeInner k))

end Types

section Expressions

abbrev PExpr := Expr String String

def exprList : P (List PExpr) := call .exprList (commaList k.fuel k.expr)

def exprHeader : P PExpr := call .exprHeader (withNoStruct true k.expr)

def fullExpr : P PExpr := call .fullExpr (withNoStruct false k.expr)

/-- The token behind the group that starts here, over all kinds of brackets. -/
def behindGroup : Int → List Token → Option Token
  | _, [] => none
  | depth, t :: ts =>
    match t with
    | .lBracket | .lParen | .lBrace => behindGroup (depth + 1) ts
    | .rBracket | .rParen | .rBrace =>
      if depth - 1 = 0 then ts.head? else behindGroup (depth - 1) ts
    | _ => behindGroup depth ts

def peekAfterMatchingBracket : P (Option Token) := fun s =>
  (.ok (behindGroup 0 (s.toks.drop s.pos)), s)

def looksGeneric : P Bool := do
  match ← peekAfterMatchingBracket with
  | some .lParen => pure true
  | some .lBrace => do pure !(← getNoStruct)
  | _ => pure false

def maybeGenericArgs : P (List (Ty String)) := call .maybeGenericArgs do
  if ← atBracket then
    if ← looksGeneric then do
      advance
      let tys ← commaList k.fuel k.parseType
      expect .rBracket
      pure tys
    else pure []
  else pure []

/-- One field of a struct literal and what separates it from the next. -/
def fieldInit : P (FieldInit String String) := do
  let name ← ident
  expect .colon
  let value ← k.expr
  skipSemis k.fuel
  if ← eat .comma then pure (.mk name value)
  else do
    skipSemis k.fuel
    pure (.mk name value)

def structLitBody (name : Path String) (generics : List (Ty String)) :
    P (StructLit String String) := call .structLitBody do
  let saved ← getNoStruct
  setNoStruct false
  expect .lBrace
  let fields ← untilBrace k.fuel (fieldInit k)
  expect .rBrace
  setNoStruct saved
  pure (.mk name generics fields)

/-- Members with commas between, and perhaps one behind the last. -/
def trailingList {α : Type} (close : Token) (m : P α) : P (List α) := do
  if ← check close then pure []
  else do
    let first ← m
    loop k.fuel (fun out => do
      if ← eat .comma then
        if ← check close then pure (.inr out)
        else do pure (.inl (out ++ [← m]))
      else pure (.inr out)) [first]

def arrayLit : P PExpr := call .arrayLit do
  let saved ← getNoStruct
  setNoStruct false
  expect .lBracket
  let elems ← trailingList k .rBracket k.expr
  expect .rBracket
  setNoStruct saved
  pure (.array elems)

/-- A label before a colon: a name, or the word `in`. -/
def label : P (Option String) := do
  match ← peek, ← peek2 with
  | some (.ident s), some .colon => do
    advance
    advance
    pure (some s)
  | some .inKw, some .colon => do
    advance
    advance
    pure (some "in")
  | _, _ => pure none

def arg : P (Arg String String) := call .arg do
  let l ← label
  let value ← k.expr
  pure (.mk l value)

def callArgs : P (List (Arg String String)) := call .callArgs do
  let saved ← getNoStruct
  setNoStruct false
  expect .lParen
  let args ← trailingList k .rParen (arg k)
  expect .rParen
  setNoStruct saved
  pure args

/-- The tokens that are an expression by themselves. -/
def literal : Option Token → Option PExpr
  | some (.int v) => some (.int v)
  | some (.float v) => some (.float v)
  | some (.str v) => some (.str v)
  | some (.byte v) => some (.byte v)
  | some .nocap => some (.bool true)
  | some .cap => some (.bool false)
  | some .ghosted => some .ghosted
  | _ => none

/-- A primary that is no literal. -/
def operand : P PExpr := do
  match ← peek with
  | some .cop => k.copExpr
  | some .lParen => do
    advance
    let inner ← fullExpr k
    expect .rParen
    pure inner
  | some .lBracket => arrayLit k
  | some (.ident name) => do
    advance
    let generics ← maybeGenericArgs k
    if !(← getNoStruct) && (← check .lBrace) then do
      pure (.struct (← structLitBody k ⟨name, none⟩ generics))
    else pure (.name name generics)
  | found => fail (.expression found)

def primary : P PExpr := call .primary do
  match literal (← peek) with
  | some e => do
    advance
    pure e
  | none => operand k

/-- `.trust() in primary`, behind the word `trust`. -/
def trustTail (e : PExpr) : P PExpr := do
  expect .lParen
  expect .rParen
  expect .inKw
  pure (.trust e (← primary k))

/-- What follows a dot: a method, a literal of a struct of a module, or a field. -/
def memberTail (e : PExpr) : P PExpr := do
  let name ← ident
  let generics ← maybeGenericArgs k
  if ← check .lParen then do
    pure (.method e name generics (← callArgs k))
  else if !(← getNoStruct) && (← check .lBrace) then
    match e with
    | .name ns [] => do
      pure (.struct (← structLitBody k ⟨ns, some name⟩ generics))
    | _ => pure (.field e name generics)
  else pure (.field e name generics)

/-- One round of the loop behind a primary. -/
def postfixStep (e : PExpr) : P (PExpr ⊕ PExpr) := do
  match ← peek with
  | some .dot => do
    advance
    if ← eat .trust then do pure (.inl (← trustTail k e))
    else do pure (.inl (← memberTail k e))
  | some .lParen => do pure (.inl (.call e (← callArgs k)))
  | some .lBracket => do
    advance
    let index ← fullExpr k
    expect .rBracket
    pure (.inl (.index e index))
  | _ => pure (.inr e)

def postfixExpr : P PExpr := call .postfixExpr do
  let e ← primary k
  loop k.fuel (postfixStep k) e

/-- A dot counts only before a name. -/
def copName : P (Path String) := do
  let name ← ident
  match ← peek, ← peek2 with
  | some .dot, some (.ident member) => do
    advance
    advance
    pure ⟨name, some member⟩
  | _, _ => pure ⟨name, none⟩

def copInit : P (CopInit String String) := call .copInit do
  let name ← copName
  let generics ← maybeGenericArgs k
  if ← check .lBrace then do
    pure (.struct (← structLitBody k name generics))
  else if ← check .lParen then do
    pure (.variant name (← callArgs k))
  else pure (.variant name [])

def copExpr : P PExpr := call .copExpr do
  expect .cop
  let init ← copInit k
  expect .inKw
  let crib ← postfixExpr k
  pure (.cop init crib)

def unOp : Option Token → Option UnOp
  | some .bang => some .not
  | some .tilde => some .bitNot
  | some .minus => some .neg
  | _ => none

def unaryExprInner : P PExpr := call .unaryExprInner do
  match unOp (← peek) with
  | some op => do
    advance
    pure (.unary op (← k.unaryExpr))
  | none => postfixExpr k

def unaryExpr : P PExpr := call .unaryExpr (guarded (unaryExprInner k))

def castExpr : P PExpr := call .castExpr do
  let e ← k.unaryExpr
  loop k.fuel (fun e => do
    if ← eat .asKw then do pure (.inl (.cast e (← k.parseType)))
    else pure (.inr e)) e

/-- A level of the ladder: operands of the level below, with its operators between. -/
def ladder (f : Fn) (op : Option Token → Option BinOp) (below : P PExpr) : P PExpr := call f do
  let lhs ← below
  loop k.fuel (fun lhs => do
    match op (← peek) with
    | some op => do
      advance
      pure (.inl (.binary op lhs (← below)))
    | none => pure (.inr lhs)) lhs

def mulOp : Option Token → Option BinOp
  | some .star => some .mul
  | some .slash => some .div
  | some .percent => some .rem
  | _ => none

def mulExpr : P PExpr := ladder k .mulExpr mulOp (castExpr k)

def addOp : Option Token → Option BinOp
  | some .plus => some .add
  | some .minus => some .sub
  | _ => none

def addExpr : P PExpr := ladder k .addExpr addOp (mulExpr k)

def shiftOp : Option Token → Option BinOp
  | some .shl => some .shl
  | some .shr => some .shr
  | _ => none

def shiftExpr : P PExpr := ladder k .shiftExpr shiftOp (addExpr k)

/-- The levels of a single operator. -/
def onlyOp (t : Token) (op : BinOp) (found : Option Token) : Option BinOp :=
  if found = some t then some op else none

def bitandExpr : P PExpr := ladder k .bitandExpr (onlyOp .amp .bitAnd) (shiftExpr k)

def bitxorExpr : P PExpr := ladder k .bitxorExpr (onlyOp .caret .bitXor) (bitandExpr k)

def bitorExpr : P PExpr := ladder k .bitorExpr (onlyOp .pipe .bitOr) (bitxorExpr k)

def cmpOp : Option Token → Option BinOp
  | some .eqEq => some .eq
  | some .ne => some .ne
  | some .lt => some .lt
  | some .le => some .le
  | some .gt => some .gt
  | some .ge => some .ge
  | _ => none

def cmpExpr : P PExpr := ladder k .cmpExpr cmpOp (bitorExpr k)

def andExpr : P PExpr := ladder k .andExpr (onlyOp .andAnd .and) (cmpExpr k)

def orExpr : P PExpr := ladder k .orExpr (onlyOp .orOr .or) (andExpr k)

def expr : P PExpr := call .expr (guarded (orExpr k))

end Expressions

section Declarations

def optType : P (Option (Ty String)) := opt .colon k.parseType

def cribDecl (vis : Vis) : P (CribDecl String) := call .cribDecl do
  expect .crib
  let name ← ident
  let ty ← optType k
  pure ⟨vis, name, ty⟩

def constDecl (vis : Vis) : P (ConstDecl String String) := call .constDecl do
  expect .facts
  let name ← ident
  let ty ← optType k
  expect .eq
  let value ← k.expr
  pure ⟨vis, name, ty, value⟩

def varDecl (vis : Vis) : P (VarDecl String String) := call .varDecl do
  expect .lowkey
  let target ← ident
  let targets ← whileEat k.fuel .comma ident []
  let ty ← optType k
  expect .eq
  let values ← exprList k
  pure ⟨vis, target, targets, ty, values⟩

end Declarations

section Statements

abbrev PBlock := Block String String
abbrev PStmt := Stmt String String

/-- `naw fr` branches, and a last `naw`. -/
def nawBranches : P (List (Elif String String) × Option PBlock) :=
  loop k.fuel (fun out => do
    if ← eat .naw then
      if ← eat .fr then do
        let cond ← exprHeader k
        let body ← k.block
        pure (.inl (out ++ [.mk cond body]))
      else do pure (.inr (out, some (← k.block)))
    else pure (.inr (out, none))) []

def frStmt : P PStmt := call .frStmt do
  expect .fr
  let cond ← exprHeader k
  let body ← k.block
  let branches ← nawBranches k
  pure (.fr cond body branches.1 branches.2)

def vibinStmt : P PStmt := call .vibinStmt do
  expect .vibin
  let cond ← exprHeader k
  let body ← k.block
  pure (.vibin cond body)

def squadStmt : P PStmt := call .squadStmt do
  expect .squad
  let var ← ident
  expect .inKw
  let iter ← exprHeader k
  let body ← k.block
  pure (.squad var iter body)

def bindings : P (List String) := do
  if ← eat .lParen then do
    let names ← commaList k.fuel ident
    expect .rParen
    pure names
  else pure []

def matchArm : P (MatchArm String String) := call .matchArm do
  let variant ← dotted (← ident)
  let names ← bindings k
  let body ← k.block
  pure (.mk variant names body)

/-- The arms, and the default that ends them. -/
def vibeArms : P (List (MatchArm String String) × Option PBlock) :=
  loop k.fuel (fun out => do
    skipSemis k.fuel
    if ← closing then pure (.inr (out, none))
    else if ← eat .naw then do
      let default ← k.block
      skipSemis k.fuel
      pure (.inr (out, some default))
    else do pure (.inl (out ++ [← matchArm k]))) []

def vibeStmt : P PStmt := call .vibeStmt do
  expect .vibe
  let scrutinee ← exprHeader k
  expect .lBrace
  let arms ← vibeArms k
  expect .rBrace
  pure (.vibe scrutinee arms.1 arms.2)

def hollaStmt : P PStmt := call .hollaStmt do
  expect .holla
  let binding ← ident
  expect .eq
  let tag ← k.expr
  expect .inKw
  let crib ← exprHeader k
  let live ← k.block
  expect .ghosted
  let ghosted ← k.block
  pure (.holla binding tag crib live ghosted)

def recovery : P (Recover String String) := do
  let name ← ident
  let body ← k.block
  pure (.mk name body)

def sheeshStmt : P PStmt := call .sheeshStmt do
  expect .sheesh
  let body ← k.block
  let recover ← opt .naw (recovery k)
  pure (.sheesh body recover)

def assignOp : Option Token → Option AssignOp
  | some .eq => some .eq
  | some .plusEq => some .addEq
  | some .minusEq => some .subEq
  | some .starEq => some .mulEq
  | some .slashEq => some .divEq
  | some .percentEq => some .remEq
  | some .ampEq => some .andEq
  | some .pipeEq => some .orEq
  | some .caretEq => some .xorEq
  | some .shlEq => some .shlEq
  | some .shrEq => some .shrEq
  | _ => none

def exprOrAssign : P PStmt := call .exprOrAssign do
  let first ← k.expr
  if (← check .comma) || (assignOp (← peek)).isSome then do
    let targets ← whileEat k.fuel .comma k.expr [first]
    match assignOp (← peek) with
    | some op => do
      advance
      pure (.assign targets op (← exprList k))
    | none => do fail (.expectedAssignOp (← peek))
  else pure (.expr first)

/-- At the end of a statement. -/
def stmtEnds : P Bool := do
  match ← peek with
  | none | some .semi | some .rBrace => pure true
  | _ => pure false

def evictStmt : P PStmt := do
  advance
  let first ← k.expr
  if ← eat .inKw then do pure (.evict (← k.expr) (some first))
  else pure (.evict first none)

def betStmt : P PStmt := do
  advance
  if ← stmtEnds then pure (.bet [])
  else do pure (.bet (← exprList k))

def yeetStmt : P PStmt := do
  advance
  expect .lParen
  let e ← k.expr
  expect .rParen
  pure (.yeet e)

def stmt : P PStmt := call .stmt do
  match ← peek with
  | some .lowkey => do pure (.var (← varDecl k .hush))
  | some .facts => do pure (.const (← constDecl k .hush))
  | some .crib => do pure (.crib (← cribDecl k .hush))
  | some .fr => frStmt k
  | some .vibin => vibinStmt k
  | some .squad => squadStmt k
  | some .vibe => vibeStmt k
  | some .holla => hollaStmt k
  | some .sheesh => sheeshStmt k
  | some .evict => evictStmt k
  | some .slide => do
    advance
    pure (.slide (← k.expr))
  | some .bet => betStmt k
  | some .bounce => do
    advance
    pure (.bounce (← k.expr))
  | some .yeet => yeetStmt k
  | some .dip => do
    advance
    pure .dip
  | some .skip => do
    advance
    pure .skip
  | _ => exprOrAssign k

def block : P PBlock := call .block do
  expect .lBrace
  let stmts ← untilBrace k.fuel (stmt k)
  expect .rBrace
  pure (.mk stmts)

end Statements

section Items

def pullItem : P (Pull String) := call .pull do
  expect .pull
  let module ← strLit
  let aliasName ← opt .asKw ident
  pure ⟨module, aliasName⟩

def param : P (Param String) := call .param do
  let name ← ident
  expect .colon
  let ty ← k.parseType
  pure ⟨name, ty⟩

def paramList : P (List (Param String)) := call .paramList do
  expect .lParen
  if ← check .rParen then do
    expect .rParen
    pure []
  else do
    let params ← commaList k.fuel (param k)
    expect .rParen
    pure params

def receiver : P (Param String) := call .receiver do
  expect .lParen
  let name ← ident
  expect .colon
  let ty ← k.parseType
  expect .rParen
  pure ⟨name, ty⟩

def genericParams : P (List String) := call .genericParams do
  if ← eat .lBracket then do
    let names ← commaList k.fuel ident
    expect .rBracket
    pure names
  else pure []

def optRet : P (RetType String) := call .optRet do
  if ← eat .arrow then
    if ← eat .lParen then do
      let tys ← commaList k.fuel k.parseType
      expect .rParen
      pure (.multi tys)
    else do pure (.single (← k.parseType))
  else pure .none

def optRetSingle : P (RetType String) := call .optRetSingle do
  if ← eat .arrow then do pure (.single (← k.parseType))
  else pure .none

def externDecl : P (ExternDecl String) := call .externDecl do
  expect .externKw
  let abi ← strLit
  expect .finna
  let name ← ident
  let params ← paramList k
  let ret ← optRetSingle k
  pure ⟨abi, name, params, ret⟩

def optReceiver : P (Option (Param String)) := do
  if ← check .lParen then do pure (some (← receiver k))
  else pure none

def fnDecl (vis : Vis) : P (FnDecl String String) := call .fnDecl do
  expect .finna
  let receiver ← optReceiver k
  let name ← ident
  let generics ← genericParams k
  let params ← paramList k
  let ret ← optRet k
  let body ← k.block
  pure ⟨vis, receiver, name, generics, params, ret, body⟩

/-- A member of a declaration, and what separates it from the next. -/
def separated {α : Type} (m : P α) : P α := do
  let a ← m
  skipSemis k.fuel
  let _ ← eat .comma
  pure a

def fieldVis : P (Option Vis) := do
  if ← eat .flex then pure (some .flex)
  else if ← eat .hush then pure (some .hush)
  else pure none

def fieldDecl : P (FieldDecl String) := call .fieldDecl do
  let vis ← fieldVis
  let name ← ident
  expect .colon
  let ty ← k.parseType
  pure ⟨vis, name, ty⟩

def dripDecl (vis : Vis) : P (DripDecl String) := call .dripDecl do
  expect .drip
  let name ← ident
  let generics ← genericParams k
  expect .lBrace
  let fields ← untilBrace k.fuel (separated k (fieldDecl k))
  expect .rBrace
  pure ⟨vis, name, generics, fields⟩

def payload : P (List (Ty String)) := do
  if ← eat .lParen then do
    let tys ← commaList k.fuel k.parseType
    expect .rParen
    pure tys
  else pure []

def variant : P (Variant String) := call .variant do
  let name ← ident
  let tys ← payload k
  pure ⟨name, tys⟩

def moodsDecl (vis : Vis) : P (MoodsDecl String) := call .moodsDecl do
  expect .moods
  let name ← ident
  let generics ← genericParams k
  expect .lBrace
  let variants ← untilBrace k.fuel (separated k (variant k))
  expect .rBrace
  pure ⟨vis, name, generics, variants⟩

def itemVis : P Vis := do
  if ← eat .flex then pure .flex
  else pure .hush

/-- An item that can be exported. -/
def exported (vis : Vis) : P (Item String String) := do
  match ← peek with
  | some .finna => do pure (.func (← fnDecl k vis))
  | some .drip => do pure (.drip (← dripDecl k vis))
  | some .moods => do pure (.moods (← moodsDecl k vis))
  | some .crib => do pure (.crib (← cribDecl k vis))
  | some .facts => do pure (.const (← constDecl k vis))
  | some .lowkey => do pure (.var (← varDecl k vis))
  | found => fail (.topLevel found)

def topItem : P (Item String String) := call .topItem do
  if ← check .pull then do pure (.pull (← pullItem))
  else if ← check .externKw then do pure (.externFn (← externDecl k))
  else do
    let vis ← itemVis
    exported k vis

def program : P (Program String String) := call .program do
  let items ← loop k.fuel (fun out => do
    skipSemis k.fuel
    if (← peek).isNone then pure (.inr out)
    else do pure (.inl (out ++ [← topItem k]))) []
  pure ⟨items⟩

end Items

section Knots

/-- The functions that calls come back to, with so many calls left for each way down. -/
def knot : Nat → Knot
  | 0 => ⟨0, fail .outOfFuel, fail .outOfFuel, fail .outOfFuel, fail .outOfFuel, fail .outOfFuel⟩
  | n + 1 =>
    ⟨n + 1, parseType (knot n), expr (knot n), unaryExpr (knot n), copExpr (knot n),
      block (knot n)⟩

def initial (toks : List Token) : State := ⟨toks, 0, false, 0, [], []⟩

/-- The parser on a token stream. -/
def parse (fuel : Nat) (toks : List Token) : Except Error (Program String String) × State :=
  program (knot fuel) (initial toks)

/-- Functions that run at one time, at some call of the parser on the tokens. -/
def Running (toks : List Token) (stack : List Fn) : Prop :=
  ∃ fuel, ∃ c ∈ (parse fuel toks).2.calls, c.stack = stack

end Knots

end BetLang.Parser
