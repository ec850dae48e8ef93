import Mathlib.Algebra.Group.Nat.Defs
import BetLang.Asi
import BetLang.Pattern

/-! The scan of a source text: the rules of the tokens, the raw tokens with their spans, and the
comments that are read back from the gaps between them. -/

namespace BetLang.Lexer

open Pattern (Pat Rule best)

section Rules

def digit (c : Char) : Bool := '0' ≤ c && c ≤ '9'

def digitOrBar (c : Char) : Bool := digit c || c == '_'

def hexDigit (c : Char) : Bool := digit c || ('a' ≤ c && c ≤ 'f') || ('A' ≤ c && c ≤ 'F')

def identStart (c : Char) : Bool := ('A' ≤ c && c ≤ 'Z') || ('a' ≤ c && c ≤ 'z') || c == '_'

def identPart (c : Char) : Bool := identStart c || digit c

/-- `[ \t]+` -/
def blankPat : Pat Char := .plus (.sat fun c => c == ' ' || c == '\t')

/-- `//[^\n]*` -/
def linePat : Pat Char := .seq (.lit ['/', '/']) (.star (.sat fun c => c != '\n'))

/-- `[^*]|\*[^/]` -/
def insidePat : Pat Char :=
  .alt (.sat fun c => c != '*') (.seq (.sat fun c => c == '*') (.sat fun c => c != '/'))

/-- `/\*([^*]|\*[^/])*\*/` -/
def blockPat : Pat Char :=
  .seq (.lit ['/', '*']) (.seq (.star insidePat) (.lit ['*', '/']))

/-- `[0-9][0-9_]*` -/
def decPat : Pat Char := .seq (.sat digit) (.star (.sat digitOrBar))

/-- `[eE][+-]?[0-9][0-9_]*` -/
def exponentPat : Pat Char :=
  .seq (.sat fun c => c == 'e' || c == 'E')
    (.seq (.opt (.sat fun c => c == '+' || c == '-')) decPat)

/-- What stands between the quotes of a literal: `[^q\\\n]|\\.` for the quote `q`. -/
def quotedPat (quote : Char) : Pat Char :=
  .alt (.sat fun c => c != quote && c != '\\' && c != '\n')
    (.seq (.sat fun c => c == '\\') (.sat fun c => c != '\n'))

def parseDec (s : List Char) : Option Int :=
  let value := (s.filter (· != '_')).foldl (fun n c => 10 * n + (c.toNat - '0'.toNat)) 0
  if value < 2 ^ 127 then some value else none

def toDigit16 (c : Char) : Option Nat :=
  if digit c then some (c.toNat - '0'.toNat)
  else if 'a' ≤ c ∧ c ≤ 'f' then some (10 + (c.toNat - 'a'.toNat))
  else if 'A' ≤ c ∧ c ≤ 'F' then some (10 + (c.toNat - 'A'.toNat))
  else none

def parseRadix (s : List Char) (radix : Nat) : Option Int :=
  let value := ((s.drop 2).filter (· != '_')).foldl
    (fun n c => radix * n + (toDigit16 c).getD 0) 0
  if value < 2 ^ 127 then some value else none

def parseFloat (s : List Char) : Option String := some (String.ofList (s.filter (· != '_')))

/-- The character behind a `\`, and what follows it. -/
def decodeEscape : List Char → Option (Char × List Char)
  | [] => none
  | 'n' :: chars => some ('\n', chars)
  | 't' :: chars => some ('\t', chars)
  | 'r' :: chars => some ('\r', chars)
  | '\\' :: chars => some ('\\', chars)
  | '"' :: chars => some ('"', chars)
  | '\'' :: chars => some ('\'', chars)
  | '0' :: chars => some ('\x00', chars)
  | 'x' :: hi :: lo :: chars =>
    (toDigit16 hi).bind fun hi => (toDigit16 lo).map fun lo => (Char.ofNat (hi * 16 + lo), chars)
  | _ => none

def inner (raw : List Char) : List Char := (raw.drop 1).dropLast

def unescapeLoop : Nat → List Char → Option (List Char)
  | _, [] => some []
  | 0, _ :: _ => none
  | fuel + 1, c :: chars =>
    if c = '\\' then
      (decodeEscape chars).bind fun decoded =>
        (unescapeLoop fuel decoded.2).map (decoded.1 :: ·)
    else (unescapeLoop fuel chars).map (c :: ·)

def unescapeStr (raw : List Char) : Option String :=
  (unescapeLoop (inner raw).length (inner raw)).map String.ofList

def unescapeByte (raw : List Char) : Option UInt8 :=
  let decoded : Option Char :=
    match inner raw with
    | [] => none
    | c :: chars => if c = '\\' then (decodeEscape chars).map Prod.fst else some c
  decoded.bind fun c => if c.toNat ≤ 0xFF then some c.toNat.toUInt8 else none

/-- What the scan makes of a match: nothing but a gap, or a token that its text may still
refuse. -/
inductive Act where
  | blank
  | line
  | block
  | token (read : List Char → Option Token)

def word (text : String) (tok : Token) : Rule Char Act :=
  ⟨.lit text.toList, .token fun _ => some tok⟩

def skipRules : List (Rule Char Act) :=
  [⟨blankPat, .blank⟩, ⟨linePat, .line⟩, ⟨blockPat, .block⟩]

/-- Of two matches as long, the keyword stands before the identifier. -/
def tokenRules : List (Rule Char Act) :=
  [⟨.seq (.opt (.sat (· == '\r'))) (.sat (· == '\n')), .token fun _ => some .newline⟩,
    word ";" .semi,
    word "finna" .finna, word "bet" .bet, word "lowkey" .lowkey, word "facts" .facts,
    word "drip" .drip, word "moods" .moods, word "pull" .pull, word "extern" .externKw,
    word "fr" .fr, word "naw" .naw, word "vibin" .vibin, word "squad" .squad, word "dip" .dip,
    word "skip" .skip, word "vibe" .vibe, word "slide" .slide, word "yeet" .yeet,
    word "sheesh" .sheesh, word "bounce" .bounce, word "nocap" .nocap, word "cap" .cap,
    word "ghosted" .ghosted, word "flex" .flex, word "hush" .hush, word "crib" .crib,
    word "soa" .soa, word "cop" .cop, word "evict" .evict, word "tag" .tag, word "holla" .holla,
    word "trust" .trust, word "in" .inKw, word "as" .asKw,
    ⟨.seq (.sat identStart) (.star (.sat identPart)),
      .token fun s => some (.ident (String.ofList s))⟩,
    ⟨.seq decPat (.seq (.sat (· == '.')) (.seq decPat (.opt exponentPat))),
      .token fun s => (parseFloat s).map .float⟩,
    ⟨.seq decPat exponentPat, .token fun s => (parseFloat s).map .float⟩,
    ⟨.seq (.lit ['0', 'x']) (.seq (.sat hexDigit) (.star (.sat fun c => hexDigit c || c == '_'))),
      .token fun s => (parseRadix s 16).map .int⟩,
    ⟨.seq (.lit ['0', 'b'])
      (.seq (.sat fun c => c == '0' || c == '1')
        (.star (.sat fun c => c == '0' || c == '1' || c == '_'))),
      .token fun s => (parseRadix s 2).map .int⟩,
    ⟨decPat, .token fun s => (parseDec s).map .int⟩,
    ⟨.seq (.sat (· == '"')) (.seq (.star (quotedPat '"')) (.sat (· == '"'))),
      .token fun s => (unescapeStr s).map .str⟩,
    ⟨.seq (.sat (· == '\'')) (.seq (quotedPat '\'') (.sat (· == '\''))),
      .token fun s => (unescapeByte s).map .byte⟩,
    word "->" .arrow, word "==" .eqEq, word "!=" .ne, word "<=" .le, word ">=" .ge,
    word "<<=" .shlEq, word ">>=" .shrEq, word "<<" .shl, word ">>" .shr, word "&&" .andAnd,
    word "||" .orOr, word "+=" .plusEq, word "-=" .minusEq, word "*=" .starEq,
    word "/=" .slashEq, word "%=" .percentEq, word "&=" .ampEq, word "|=" .pipeEq,
    word "^=" .caretEq, word "<" .lt, word ">" .gt, word "=" .eq, word "+" .plus,
    word "-" .minus, word "*" .star, word "/" .slash, word "%" .percent, word "&" .amp,
    word "|" .pipe, word "^" .caret, word "~" .tilde, word "!" .bang, word "." .dot,
    word "," .comma, word ":" .colon, word "[" .lBracket, word "]" .rBracket, word "(" .lParen,
    word ")" .rParen, word "\x7b" .lBrace, word "\x7d" .rBrace]

def rules : List (Rule Char Act) := skipRules ++ tokenRules

end Rules

section Raw

def utf8 (text : List Char) : List UInt8 := text.flatMap String.utf8EncodeChar

/-- What the scan finds at the front of a text. -/
inductive Piece where
  | blank
  | line
  | block
  | token (tok : Token)
  deriving DecidableEq

/-- The longest match and its length in characters; none where no rule matches, or the text of a
literal cannot be read. -/
def pieceOf (rules : List (Rule Char Act)) (rest : List Char) : Option (Nat × Piece) :=
  match best rules rest with
  | none => none
  | some (n, .blank) => some (n, .blank)
  | some (n, .line) => some (n, .line)
  | some (n, .block) => some (n, .block)
  | some (n, .token read) => (read (rest.take n)).map fun tok => (n, .token tok)

def nextPiece : List Char → Option (Nat × Piece) := pieceOf rules

/-- A piece and the bytes it takes up. -/
structure Located where
  piece : Piece
  start : Nat
  fin : Nat
  deriving DecidableEq

/-- The pieces of a text whose first byte is the byte `pos`; the error is the byte where the scan
stops. -/
def scanFrom : Nat → Nat → List Char → Except Nat (List Located)
  | _, _, [] => .ok []
  | 0, pos, _ :: _ => .error pos
  | fuel + 1, pos, c :: cs =>
    match nextPiece (c :: cs) with
    | none => .error pos
    | some (n, piece) =>
      let fin := pos + (utf8 ((c :: cs).take n)).length
      (scanFrom fuel fin ((c :: cs).drop n)).map (⟨piece, pos, fin⟩ :: ·)

def scan (src : List Char) : Except Nat (List Located) := scanFrom src.length 0 src

/-- `as u32` -/
def u32 (n : Nat) : Nat := n % 2 ^ 32

/-- The token of a piece; the comments and the space between tokens have none. -/
def Located.spanned (l : Located) : Option Spanned :=
  match l.piece with
  | .token tok => some ⟨tok, ⟨u32 l.start, u32 l.fin⟩⟩
  | _ => none

end Raw

section Comments

inductive CommentKind where
  | line
  | block
  deriving DecidableEq

structure Comment where
  span : Span
  text : List UInt8
  kind : CommentKind
  deriving DecidableEq

/-- The bytes of the inside of a block comment, up to and with its `*/`; all where there is
none. -/
def blockLen : List UInt8 → Nat
  | [] => 0
  | [_] => 1
  | b :: b' :: rest =>
    if b = '*'.toUInt8 ∧ b' = '/'.toUInt8 then 2 else 1 + blockLen (b' :: rest)

/-- The comment that starts with the first of these bytes, and its length. -/
def commentAt : List UInt8 → Option (CommentKind × Nat)
  | b :: b' :: rest =>
    if b = '/'.toUInt8 ∧ b' = '/'.toUInt8 then
      some (.line, 2 + (rest.takeWhile (· != '\n'.toUInt8)).length)
    else if b = '/'.toUInt8 ∧ b' = '*'.toUInt8 then some (.block, 2 + blockLen rest)
    else none
  | _ => none

/-- `scan_comments` at the byte `i`, with the tokens from `ti` on. -/
def commentsFrom (bytes : List UInt8) : Nat → Nat → List Spanned → List Comment
  | 0, _, _ => []
  | fuel + 1, i, toks =>
    if i < bytes.length then
      let toks := toks.dropWhile (·.span.fin ≤ i)
      match toks.head?.filter (·.span.start ≤ i), commentAt (bytes.drop i) with
      | some tok, _ => commentsFrom bytes fuel tok.span.fin toks
      | none, some (kind, n) =>
        ⟨⟨u32 i, u32 (i + n)⟩, (bytes.drop i).take n, kind⟩ :: commentsFrom bytes fuel (i + n) toks
      | none, none => commentsFrom bytes fuel (i + 1) toks
    else []

def scanComments (bytes : List UInt8) (toks : List Spanned) : List Comment :=
  commentsFrom bytes bytes.length 0 toks

def tokenizeWithTrivia (src : List Char) : Except Nat (List Spanned × List Comment) :=
  (scan src).map fun pieces =>
    let raw := pieces.filterMap Located.spanned
    (applyAsi raw, scanComments (utf8 src) raw)

def tokenize (src : List Char) : Except Nat (List Spanned) :=
  (tokenizeWithTrivia src).map Prod.fst

end Comments

end BetLang.Lexer
