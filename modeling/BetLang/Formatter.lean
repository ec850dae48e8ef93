import BetLang.Mangling
import BetLang.Reading
import BetLang.SourceStrings
import BetLang.SurfaceAst

/-! The canonical form of source text: the printer of the formatter, for programs without comments,
and the tokens of what it prints. A floating literal carries its value as the shortest text that is read
as that value. -/

namespace BetLang.Fmt

open Lexer (Token escapeStr)
open Mangling (Text decimal)
open BetLang.Parser (commaToks)
open Surface

section Words

def precCast : Nat := 10

def precUnary : Nat := 11

def precPostfix : Nat := 12

def binopPrec : BinOp → Nat
  | .or => 1
  | .and => 2
  | .eq | .ne | .lt | .le | .gt | .ge => 3
  | .bitOr => 4
  | .bitXor => 5
  | .bitAnd => 6
  | .shl | .shr => 7
  | .add | .sub => 8
  | .mul | .div | .rem => 9

def exprPrec : Expr String String → Nat
  | .binary op _ _ => binopPrec op
  | .cast _ _ => precCast
  | .unary _ _ => precUnary
  | _ => precPostfix

def unopStr : UnOp → String
  | .neg => "-"
  | .not => "!"
  | .bitNot => "~"

def binopStr : BinOp → String
  | .or => "||"
  | .and => "&&"
  | .eq => "=="
  | .ne => "!="
  | .lt => "<"
  | .le => "<="
  | .gt => ">"
  | .ge => ">="
  | .bitOr => "|"
  | .bitXor => "^"
  | .bitAnd => "&"
  | .shl => "<<"
  | .shr => ">>"
  | .add => "+"
  | .sub => "-"
  | .mul => "*"
  | .div => "/"
  | .rem => "%"

def assignOpStr : AssignOp → String
  | .eq => "="
  | .addEq => "+="
  | .subEq => "-="
  | .mulEq => "*="
  | .divEq => "/="
  | .remEq => "%="
  | .andEq => "&="
  | .orEq => "|="
  | .xorEq => "^="
  | .shlEq => "<<="
  | .shrEq => ">>="

/-- `join(", ")` -/
def commaJoin : List Text → Text
  | [] => []
  | t :: ts => t ++ ts.flatMap (", ".toList ++ ·)

def pathStr (p : Path String) : Text :=
  match p.member with
  | none => p.head.toList
  | some m => p.head.toList ++ '.' :: m.toList

/-- A name in a text, as the source spells it. -/
def name (s : String) : Text := s.toList

def intStr (v : Int) : Text := if 0 ≤ v then decimal v.toNat else '-' :: decimal (-v).toNat

def fmtFloat (s : String) : Text :=
  if '.' ∈ s.toList ∨ 'e' ∈ s.toList ∨ 'E' ∈ s.toList then s.toList else s.toList ++ ".0".toList

def escapeByte (b : UInt8) : Text :=
  '\'' :: ((match Char.ofNat b.toNat with
    | '\\' => ['\\', '\\']
    | '\'' => ['\\', '\'']
    | '\n' => ['\\', 'n']
    | '\t' => ['\\', 't']
    | '\r' => ['\\', 'r']
    | '\x00' => ['\\', '0']
    | other => [other]) ++ ['\''])

end Words

section Types

def maxTypeDepth : Nat := 1024

def capped (depth : Nat) (text : Text) : Text := if depth ≥ maxTypeDepth then "…".toList else text

mutual

def typeStrDepth (depth : Nat) : Ty String → Text
  | .slice inner => capped depth ("[]".toList ++ typeStrDepth (depth + 1) inner)
  | .array inner n =>
    capped depth (typeStrDepth (depth + 1) inner ++ "[".toList ++ decimal n.toNat ++ "]".toList)
  | .tag inner => capped depth ("tag ".toList ++ typeStrDepth (depth + 1) inner)
  | .crib inner => capped depth ("crib ".toList ++ typeStrDepth (depth + 1) inner)
  | .soa inner => capped depth ("soa ".toList ++ typeStrDepth (depth + 1) inner)
  | .fn params ret =>
    capped depth ("finna(".toList ++ commaJoin (typeStrsDepth (depth + 1) params) ++
      ") -> ".toList ++ typeStrDepth (depth + 1) ret)
  | .rawPtr => capped depth "rawptr".toList
  | .named name generics =>
    capped depth (if generics.isEmpty then pathStr name
      else pathStr name ++ "[".toList ++ commaJoin (typeStrsDepth (depth + 1) generics) ++ "]".toList)

def typeStrsDepth (depth : Nat) : List (Ty String) → List Text
  | [] => []
  | t :: ts => typeStrDepth depth t :: typeStrsDepth depth ts

end

def typeStr (t : Ty String) : Text := typeStrDepth 0 t

def joinTypes (ts : List (Ty String)) : Text := commaJoin (typeStrsDepth 0 ts)

def typeArgs (generics : List (Ty String)) : Text :=
  if generics.isEmpty then [] else "[".toList ++ joinTypes generics ++ "]".toList

end Types

section Expressions

/-- A sub-expression, in parentheses where it needs them. -/
def operand (print : Bool → Text) (needParen noStruct : Bool) : Text :=
  if needParen then "(".toList ++ print false ++ ")".toList else print noStruct

mutual

def expr (noStruct : Bool) : Expr String String → Text
  | .int v => intStr v
  | .float v => fmtFloat v
  | .str s => escapeStr s
  | .byte b => escapeByte b
  | .bool true => "nocap".toList
  | .bool false => "cap".toList
  | .ghosted => "ghosted".toList
  | .name s generics => name s ++ typeArgs generics
  | .unary op x =>
    (unopStr op).toList ++ operand (fun ns => expr ns x) (exprPrec x < precUnary) noStruct
  | .binary op l r =>
    operand (fun ns => expr ns l) (exprPrec l < binopPrec op) noStruct ++ " ".toList ++
      (binopStr op).toList ++ " ".toList ++
      operand (fun ns => expr ns r) (exprPrec r ≤ binopPrec op) noStruct
  | .cast x ty =>
    operand (fun ns => expr ns x) (exprPrec x < precCast) noStruct ++ " as ".toList ++ typeStr ty
  | .field base s generics =>
    operand (fun ns => expr ns base) (exprPrec base < precPostfix) noStruct ++ ".".toList ++ name s ++
      typeArgs generics
  | .method receiver s generics args =>
    operand (fun ns => expr ns receiver) (exprPrec receiver < precPostfix) noStruct ++ ".".toList ++
      name s ++ typeArgs generics ++ "(".toList ++ commaJoin (argTexts args) ++ ")".toList
  | .call callee args =>
    operand (fun ns => expr ns callee) (exprPrec callee < precPostfix) noStruct ++ "(".toList ++
      commaJoin (argTexts args) ++ ")".toList
  | .index base index =>
    operand (fun ns => expr ns base) (exprPrec base < precPostfix) noStruct ++ "[".toList ++
      expr false index ++ "]".toList
  | .trust tag crib =>
    operand (fun ns => expr ns tag) (exprPrec tag < precPostfix) noStruct ++ ".trust() in ".toList ++
      operand (fun ns => expr ns crib) (exprPrec crib < precPostfix) noStruct
  | .struct lit =>
    if noStruct then "(".toList ++ structLit lit ++ ")".toList else structLit lit
  | .array elems => "[".toList ++ commaJoin (exprTexts elems) ++ "]".toList
  | .cop init crib =>
    "cop ".toList ++ copInit init ++ " in ".toList ++
      operand (fun ns => expr ns crib) (exprPrec crib < precPostfix) noStruct

def exprTexts : List (Expr String String) → List Text
  | [] => []
  | e :: es => expr false e :: exprTexts es

def argTexts : List (Arg String String) → List Text
  | [] => []
  | .mk none value :: as => expr false value :: argTexts as
  | .mk (some label) value :: as => (name label ++ ": ".toList ++ expr false value) :: argTexts as

def structLit : StructLit String String → Text
  | .mk s generics fields =>
    pathStr s ++ typeArgs generics ++
      (if fields.isEmpty then "\x7b\x7d".toList
        else "\x7b ".toList ++ commaJoin (fieldTexts fields) ++ " \x7d".toList)

def fieldTexts : List (FieldInit String String) → List Text
  | [] => []
  | .mk s value :: fs => (name s ++ ": ".toList ++ expr false value) :: fieldTexts fs

def copInit : CopInit String String → Text
  | .struct lit => structLit lit
  | .variant s args =>
    pathStr s ++ (if args.isEmpty then [] else "(".toList ++ commaJoin (argTexts args) ++ ")".toList)

end

def exprList (es : List (Expr String String)) : Text := commaJoin (exprTexts es)

end Expressions

section Declarations

def vis : Vis → Text
  | .flex => "flex ".toList
  | .hush => []

def genericParams (g : List String) : Text :=
  if g.isEmpty then [] else "[".toList ++ commaJoin (g.map name) ++ "]".toList

def param (p : Param String) : Text := name p.name ++ ": ".toList ++ typeStr p.ty

def params (ps : List (Param String)) : Text := "(".toList ++ commaJoin (ps.map param) ++ ")".toList

def ret : RetType String → Text
  | .none => []
  | .single t => " -> ".toList ++ typeStr t
  | .multi ts => " -> (".toList ++ joinTypes ts ++ ")".toList

def optType : Option (Ty String) → Text
  | none => []
  | some t => ": ".toList ++ typeStr t

def cribDecl (c : CribDecl String) : Text :=
  vis c.vis ++ "crib ".toList ++ name c.name ++ optType c.ty

def constDecl (c : ConstDecl String String) : Text :=
  vis c.vis ++ "facts ".toList ++ name c.name ++ optType c.ty ++ " = ".toList ++ expr false c.value

def varDecl (v : VarDecl String String) : Text :=
  vis v.vis ++ "lowkey ".toList ++ commaJoin ((v.target :: v.targets).map name) ++ optType v.ty ++
    " = ".toList ++ exprList v.values

end Declarations

section Statements

def indent (n : Nat) : Text := (List.replicate n "    ".toList).flatten

mutual

def stmt (ind : Nat) : Stmt String String → Text
  | .var v => indent ind ++ varDecl v ++ "\n".toList
  | .const c => indent ind ++ constDecl c ++ "\n".toList
  | .crib c => indent ind ++ cribDecl c ++ "\n".toList
  | .fr cond body elifs els =>
    indent ind ++ "fr ".toList ++ expr true cond ++ " \x7b\n".toList ++ blockBody (ind + 1) body ++
      elifTexts ind elifs ++ elseText ind els ++ indent ind ++ "\x7d\n".toList
  | .vibin cond body =>
    indent ind ++ "vibin ".toList ++ expr true cond ++ " \x7b\n".toList ++ blockBody (ind + 1) body ++
      indent ind ++ "\x7d\n".toList
  | .squad var iter body =>
    indent ind ++ "squad ".toList ++ name var ++ " in ".toList ++ expr true iter ++
      " \x7b\n".toList ++ blockBody (ind + 1) body ++ indent ind ++ "\x7d\n".toList
  | .vibe scrutinee arms default =>
    indent ind ++ "vibe ".toList ++ expr true scrutinee ++ " \x7b\n".toList ++ armTexts ind arms ++
      defaultText ind default ++ indent ind ++ "\x7d\n".toList
  | .holla binding tag crib live ghosted =>
    indent ind ++ "holla ".toList ++ name binding ++ " = ".toList ++ expr false tag ++
      " in ".toList ++ expr true crib ++ " \x7b\n".toList ++ blockBody (ind + 1) live ++
      indent ind ++ "\x7d ghosted \x7b\n".toList ++ blockBody (ind + 1) ghosted ++ indent ind ++
      "\x7d\n".toList
  | .sheesh body recover =>
    indent ind ++ "sheesh \x7b\n".toList ++ blockBody (ind + 1) body ++ recoverText ind recover
  | .evict crib none => indent ind ++ "evict ".toList ++ expr false crib ++ "\n".toList
  | .evict crib (some tag) =>
    indent ind ++ "evict ".toList ++ expr false tag ++ " in ".toList ++ expr false crib ++
      "\n".toList
  | .slide e => indent ind ++ "slide ".toList ++ expr false e ++ "\n".toList
  | .bet vals =>
    indent ind ++ "bet".toList ++ (if vals.isEmpty then [] else " ".toList ++ exprList vals) ++
      "\n".toList
  | .bounce e => indent ind ++ "bounce ".toList ++ expr false e ++ "\n".toList
  | .yeet e => indent ind ++ "yeet(".toList ++ expr false e ++ ")\n".toList
  | .dip => indent ind ++ "dip\n".toList
  | .skip => indent ind ++ "skip\n".toList
  | .assign targets op values =>
    indent ind ++ exprList targets ++ " ".toList ++ (assignOpStr op).toList ++ " ".toList ++
      exprList values ++ "\n".toList
  | .expr e => indent ind ++ expr false e ++ "\n".toList

def stmts (ind : Nat) : List (Stmt String String) → Text
  | [] => []
  | s :: ss => stmt ind s ++ stmts ind ss

def blockBody (ind : Nat) : Block String String → Text
  | .mk ss => stmts ind ss

def elifTexts (ind : Nat) : List (Elif String String) → Text
  | [] => []
  | .mk cond body :: rest =>
    indent ind ++ "\x7d naw fr ".toList ++ expr true cond ++ " \x7b\n".toList ++
      blockBody (ind + 1) body ++ elifTexts ind rest

def elseText (ind : Nat) : Option (Block String String) → Text
  | none => []
  | some els => indent ind ++ "\x7d naw \x7b\n".toList ++ blockBody (ind + 1) els

def armTexts (ind : Nat) : List (MatchArm String String) → Text
  | [] => []
  | .mk variant bindings body :: rest =>
    indent (ind + 1) ++ pathStr variant ++
      (if bindings.isEmpty then [] else "(".toList ++ commaJoin (bindings.map name) ++ ")".toList) ++
      " \x7b\n".toList ++ blockBody (ind + 2) body ++ indent (ind + 1) ++ "\x7d\n".toList ++
      armTexts ind rest

def defaultText (ind : Nat) : Option (Block String String) → Text
  | none => []
  | some body =>
    indent (ind + 1) ++ "naw \x7b\n".toList ++ blockBody (ind + 2) body ++ indent (ind + 1) ++
      "\x7d\n".toList

def recoverText (ind : Nat) : Option (Recover String String) → Text
  | none => indent ind ++ "\x7d\n".toList
  | some (.mk s body) =>
    indent ind ++ "\x7d naw ".toList ++ name s ++ " \x7b\n".toList ++ blockBody (ind + 1) body ++
      indent ind ++ "\x7d\n".toList

end

end Statements

section Items

def receiver : Option (Param String) → Text
  | none => []
  | some r => "(".toList ++ name r.name ++ ": ".toList ++ typeStr r.ty ++ ") ".toList

def fnDecl (f : FnDecl String String) : Text :=
  vis f.vis ++ "finna ".toList ++ receiver f.receiver ++ name f.name ++ genericParams f.generics ++
    params f.params ++ ret f.ret ++ " \x7b\n".toList ++ blockBody 1 f.body ++ "\x7d\n".toList

def fieldVis : Option Vis → Text
  | some .flex => "flex ".toList
  | some .hush => "hush ".toList
  | none => []

def fieldDecl (d : FieldDecl String) : Text :=
  indent 1 ++ fieldVis d.vis ++ name d.name ++ ": ".toList ++ typeStr d.ty ++ "\n".toList

def dripDecl (d : DripDecl String) : Text :=
  vis d.vis ++ "drip ".toList ++ name d.name ++ genericParams d.generics ++ " \x7b\n".toList ++
    d.fields.flatMap fieldDecl ++ "\x7d\n".toList

def variant (v : Variant String) : Text :=
  indent 1 ++ name v.name ++
    (if v.payload.isEmpty then [] else "(".toList ++ joinTypes v.payload ++ ")".toList)

/-- A comma behind each variant but the last. -/
def variantLines : List (Variant String) → Text
  | [] => []
  | [v] => variant v ++ "\n".toList
  | v :: vs => variant v ++ ",".toList ++ "\n".toList ++ variantLines vs

def moodsDecl (m : MoodsDecl String) : Text :=
  vis m.vis ++ "moods ".toList ++ name m.name ++ genericParams m.generics ++ " \x7b\n".toList ++
    variantLines m.variants ++ "\x7d\n".toList

def externDecl (e : ExternDecl String) : Text :=
  "extern ".toList ++ escapeStr e.abi ++ " finna ".toList ++ name e.name ++ params e.params ++
    ret e.ret ++ "\n".toList

def pull (p : Pull String) : Text :=
  "pull ".toList ++ escapeStr p.module ++
    (match p.aliasName with
      | none => []
      | some aliasName => " as ".toList ++ name aliasName) ++ "\n".toList

def item : Item String String → Text
  | .pull p => pull p
  | .func f => fnDecl f
  | .drip d => dripDecl d
  | .moods m => moodsDecl m
  | .crib c => cribDecl c ++ "\n".toList
  | .const c => constDecl c ++ "\n".toList
  | .var v => varDecl v ++ "\n".toList
  | .externFn e => externDecl e

def compactPair : Item String String → Item String String → Bool
  | .pull _, .pull _ => true
  | .const _, .const _ => true
  | _, _ => false

/-- The items behind `before`. -/
def itemsAfter (before : Item String String) : List (Item String String) → Text
  | [] => []
  | i :: is => (if compactPair before i then [] else "\n".toList) ++ item i ++ itemsAfter i is

def program (p : Program String String) : Text :=
  match p.items with
  | [] => []
  | i :: is => item i ++ itemsAfter i is

end Items

section WordTokens

def binopTok : BinOp → Token
  | .or => .orOr
  | .and => .andAnd
  | .eq => .eqEq
  | .ne => .ne
  | .lt => .lt
  | .le => .le
  | .gt => .gt
  | .ge => .ge
  | .bitOr => .pipe
  | .bitXor => .caret
  | .bitAnd => .amp
  | .shl => .shl
  | .shr => .shr
  | .add => .plus
  | .sub => .minus
  | .mul => .star
  | .div => .slash
  | .rem => .percent

def unopTok : UnOp → Token
  | .neg => .minus
  | .not => .bang
  | .bitNot => .tilde

def assignTok : AssignOp → Token
  | .eq => .eq
  | .addEq => .plusEq
  | .subEq => .minusEq
  | .mulEq => .starEq
  | .divEq => .slashEq
  | .remEq => .percentEq
  | .andEq => .ampEq
  | .orEq => .pipeEq
  | .xorEq => .caretEq
  | .shlEq => .shlEq
  | .shrEq => .shrEq

def pathToks (p : Path String) : List Token :=
  match p.member with
  | none => [.ident p.head]
  | some m => [.ident p.head, .dot, .ident m]

def parens (ts : List Token) : List Token := .lParen :: (ts ++ [.rParen])

def brackets (ts : List Token) : List Token := .lBracket :: (ts ++ [.rBracket])

def braces (ts : List Token) : List Token := .lBrace :: (ts ++ [.rBrace])

def names (ss : List String) : List Token := commaToks (ss.map fun s => [.ident s])

end WordTokens

section TypeTokens

mutual

def tyToks : Ty String → List Token
  | .slice inner => .lBracket :: .rBracket :: tyToks inner
  | .array inner n => tyToks inner ++ [.lBracket, .int n.toNat, .rBracket]
  | .tag inner => .tag :: tyToks inner
  | .crib inner => .crib :: tyToks inner
  | .soa inner => .soa :: tyToks inner
  | .fn params ret => .finna :: (parens (commaToks (tyTokss params)) ++ .arrow :: tyToks ret)
  | .rawPtr => [.ident "rawptr"]
  | .named name generics =>
    pathToks name ++ (if generics.isEmpty then [] else brackets (commaToks (tyTokss generics)))

def tyTokss : List (Ty String) → List (List Token)
  | [] => []
  | t :: ts => tyToks t :: tyTokss ts

end

def typeArgToks (generics : List (Ty String)) : List Token :=
  if generics.isEmpty then [] else brackets (commaToks (tyTokss generics))

end TypeTokens

section ExpressionTokens

def operandToks (print : Bool → List Token) (needParen noStruct : Bool) : List Token :=
  if needParen then parens (print false) else print noStruct

def labelToks : Option String → List Token
  | none => []
  | some label => [if label = "in" then .inKw else .ident label, .colon]

mutual

def exprToks (noStruct : Bool) : Expr String String → List Token
  | .int v => [.int v]
  | .float v => [.float v]
  | .str s => [.str s]
  | .byte b => [.byte b]
  | .bool true => [.nocap]
  | .bool false => [.cap]
  | .ghosted => [.ghosted]
  | .name s generics => .ident s :: typeArgToks generics
  | .unary op x => unopTok op :: operandToks (fun ns => exprToks ns x) (exprPrec x < precUnary) noStruct
  | .binary op l r =>
    operandToks (fun ns => exprToks ns l) (exprPrec l < binopPrec op) noStruct ++
      binopTok op :: operandToks (fun ns => exprToks ns r) (exprPrec r ≤ binopPrec op) noStruct
  | .cast x ty =>
    operandToks (fun ns => exprToks ns x) (exprPrec x < precCast) noStruct ++ .asKw :: tyToks ty
  | .field base s generics =>
    operandToks (fun ns => exprToks ns base) (exprPrec base < precPostfix) noStruct ++
      .dot :: .ident s :: typeArgToks generics
  | .method receiver s generics args =>
    operandToks (fun ns => exprToks ns receiver) (exprPrec receiver < precPostfix) noStruct ++
      .dot :: .ident s :: (typeArgToks generics ++ parens (commaToks (argTokss args)))
  | .call callee args =>
    operandToks (fun ns => exprToks ns callee) (exprPrec callee < precPostfix) noStruct ++
      parens (commaToks (argTokss args))
  | .index base index =>
    operandToks (fun ns => exprToks ns base) (exprPrec base < precPostfix) noStruct ++
      brackets (exprToks false index)
  | .trust tag crib =>
    operandToks (fun ns => exprToks ns tag) (exprPrec tag < precPostfix) noStruct ++
      .dot :: .trust :: .lParen :: .rParen :: .inKw ::
        operandToks (fun ns => exprToks ns crib) (exprPrec crib < precPostfix) noStruct
  | .struct lit => if noStruct then parens (structToks lit) else structToks lit
  | .array elems => brackets (commaToks (exprTokss elems))
  | .cop init crib =>
    .cop :: (copToks init ++
      .inKw :: operandToks (fun ns => exprToks ns crib) (exprPrec crib < precPostfix) noStruct)

def exprTokss : List (Expr String String) → List (List Token)
  | [] => []
  | e :: es => exprToks false e :: exprTokss es

def argTokss : List (Arg String String) → List (List Token)
  | [] => []
  | .mk label value :: as => (labelToks label ++ exprToks false value) :: argTokss as

def structToks : StructLit String String → List Token
  | .mk name generics fields =>
    pathToks name ++ typeArgToks generics ++ braces (commaToks (fieldTokss fields))

def fieldTokss : List (FieldInit String String) → List (List Token)
  | [] => []
  | .mk name value :: fs => (.ident name :: .colon :: exprToks false value) :: fieldTokss fs

def copToks : CopInit String String → List Token
  | .struct lit => structToks lit
  | .variant name args =>
    pathToks name ++ (if args.isEmpty then [] else parens (commaToks (argTokss args)))

end

def exprListToks (es : List (Expr String String)) : List Token := commaToks (exprTokss es)

end ExpressionTokens

section DeclarationTokens

def visToks : Vis → List Token
  | .flex => [.flex]
  | .hush => []

def genericToks (g : List String) : List Token := if g.isEmpty then [] else brackets (names g)

def paramToks (p : Param String) : List Token := .ident p.name :: .colon :: tyToks p.ty

def paramsToks (ps : List (Param String)) : List Token := parens (commaToks (ps.map paramToks))

def retToks : RetType String → List Token
  | .none => []
  | .single t => .arrow :: tyToks t
  | .multi ts => .arrow :: parens (commaToks (tyTokss ts))

def optTypeToks : Option (Ty String) → List Token
  | none => []
  | some t => .colon :: tyToks t

def cribDeclToks (c : CribDecl String) : List Token := .crib :: .ident c.name :: optTypeToks c.ty

def constDeclToks (c : ConstDecl String String) : List Token :=
  .facts :: .ident c.name :: (optTypeToks c.ty ++ .eq :: exprToks false c.value)

def varDeclToks (v : VarDecl String String) : List Token :=
  .lowkey :: (names (v.target :: v.targets) ++ optTypeToks v.ty ++ .eq :: exprListToks v.values)

end DeclarationTokens

section StatementTokens

mutual

/-- The tokens of a statement, up to the separator behind it. -/
def stmtToks : Stmt String String → List Token
  | .var v => visToks v.vis ++ varDeclToks v
  | .const c => visToks c.vis ++ constDeclToks c
  | .crib c => visToks c.vis ++ cribDeclToks c
  | .fr cond body elifs els =>
    .fr :: (exprToks true cond ++ braces (blockToks body) ++ elifToks elifs ++ elseToks els)
  | .vibin cond body => .vibin :: (exprToks true cond ++ braces (blockToks body))
  | .squad var iter body =>
    .squad :: .ident var :: .inKw :: (exprToks true iter ++ braces (blockToks body))
  | .vibe scrutinee arms default =>
    .vibe :: (exprToks true scrutinee ++ braces (armToks arms ++ defaultToks default))
  | .holla binding tag crib live ghosted =>
    .holla :: .ident binding :: .eq :: (exprToks false tag ++ .inKw :: (exprToks true crib ++
      braces (blockToks live) ++ .ghosted :: braces (blockToks ghosted)))
  | .sheesh body recover => .sheesh :: (braces (blockToks body) ++ recoverToks recover)
  | .evict crib none => .evict :: exprToks false crib
  | .evict crib (some tag) => .evict :: (exprToks false tag ++ .inKw :: exprToks false crib)
  | .slide e => .slide :: exprToks false e
  | .bet vals => .bet :: exprListToks vals
  | .bounce e => .bounce :: exprToks false e
  | .yeet e => .yeet :: parens (exprToks false e)
  | .dip => [.dip]
  | .skip => [.skip]
  | .assign targets op values => exprListToks targets ++ assignTok op :: exprListToks values
  | .expr e => exprToks false e

def stmtsToks : List (Stmt String String) → List Token
  | [] => []
  | s :: ss => stmtToks s ++ .semi :: stmtsToks ss

def blockToks : Block String String → List Token
  | .mk ss => stmtsToks ss

def elifToks : List (Elif String String) → List Token
  | [] => []
  | .mk cond body :: rest =>
    .naw :: .fr :: (exprToks true cond ++ braces (blockToks body) ++ elifToks rest)

def elseToks : Option (Block String String) → List Token
  | none => []
  | some els => .naw :: braces (blockToks els)

def armToks : List (MatchArm String String) → List Token
  | [] => []
  | .mk variant bindings body :: rest =>
    pathToks variant ++ (if bindings.isEmpty then [] else parens (names bindings)) ++
      braces (blockToks body) ++ .semi :: armToks rest

def defaultToks : Option (Block String String) → List Token
  | none => []
  | some body => .naw :: (braces (blockToks body) ++ [.semi])

def recoverToks : Option (Recover String String) → List Token
  | none => []
  | some (.mk s body) => .naw :: .ident s :: braces (blockToks body)

end

end StatementTokens

section ItemTokens

def receiverToks : Option (Param String) → List Token
  | none => []
  | some r => parens (paramToks r)

def fnDeclToks (f : FnDecl String String) : List Token :=
  .finna :: (receiverToks f.receiver ++ .ident f.name :: (genericToks f.generics ++
    paramsToks f.params ++ retToks f.ret ++ braces (blockToks f.body)))

def fieldVisToks : Option Vis → List Token
  | some .flex => [.flex]
  | some .hush => [.hush]
  | none => []

def fieldDeclToks (d : FieldDecl String) : List Token :=
  fieldVisToks d.vis ++ .ident d.name :: .colon :: tyToks d.ty

def dripDeclToks (d : DripDecl String) : List Token :=
  .drip :: .ident d.name :: (genericToks d.generics ++
    braces (d.fields.flatMap fun f => fieldDeclToks f ++ [.semi]))

def variantToks (v : Variant String) : List Token :=
  .ident v.name :: (if v.payload.isEmpty then [] else parens (commaToks (tyTokss v.payload)))

/-- A comma behind each variant but the last, which the line ends. -/
def variantsToks : List (Variant String) → List Token
  | [] => []
  | [v] => variantToks v ++ [.semi]
  | v :: vs => variantToks v ++ .comma :: variantsToks vs

def moodsDeclToks (m : MoodsDecl String) : List Token :=
  .moods :: .ident m.name :: (genericToks m.generics ++ braces (variantsToks m.variants))

def externDeclToks (e : ExternDecl String) : List Token :=
  .externKw :: .str e.abi :: .finna :: .ident e.name :: (paramsToks e.params ++ retToks e.ret)

def pullToks (p : Pull String) : List Token :=
  .pull :: .str p.module ::
    (match p.aliasName with
      | none => []
      | some aliasName => [.asKw, .ident aliasName])

def itemToks : Item String String → List Token
  | .pull p => pullToks p
  | .func f => visToks f.vis ++ fnDeclToks f
  | .drip d => visToks d.vis ++ dripDeclToks d
  | .moods m => visToks m.vis ++ moodsDeclToks m
  | .crib c => visToks c.vis ++ cribDeclToks c
  | .const c => visToks c.vis ++ constDeclToks c
  | .var v => visToks v.vis ++ varDeclToks v
  | .externFn e => externDeclToks e

def programToks (p : Program String String) : List Token :=
  p.items.flatMap fun i => itemToks i ++ [.semi]

end ItemTokens

end BetLang.Fmt
