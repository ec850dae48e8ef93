import BetLang.MangledNames
import BetLang.Outline
import BetLang.SurfaceAst

/-! The canonical dump of a syntax tree: one node on a line, two blanks for each level. -/

namespace BetLang.AstDump

open Mangling (Ident Text decimal isIdent)
open Surface

section Words

/-- A part of a line without blanks and quotes. -/
def Plain (w : Text) : Prop := w ≠ [] ∧ ∀ c ∈ w, c ≠ ' ' ∧ c ≠ '\n' ∧ c ≠ '"'

instance (w : Text) : Decidable (Plain w) :=
  decidable_of_iff (w ≠ [] ∧ w.all (fun c => c != ' ' && c != '\n' && c != '"') = true)
    (by simp only [Plain, List.all_eq_true, Bool.and_eq_true, bne_iff_ne, and_assoc])

inductive Word where
  | plain (w : Text) (h : Plain w)
  | quoted (s : Text)
  deriving DecidableEq

def escape (c : Char) : Text :=
  if c = '\\' then ['\\', '\\']
  else if c = '"' then ['\\', '"']
  else if c = '\n' then ['\\', 'n']
  else if c = '\t' then ['\\', 't']
  else if c = '\r' then ['\\', 'r']
  else [c]

def quote (s : Text) : Text := '"' :: (s.flatMap escape ++ ['"'])

def Word.text : Word → Text
  | .plain w _ => w
  | .quoted s => quote s

/-- The first word of a line. -/
inductive Head where
  | program
  | pull
  | func
  | receiver
  | drip
  | field
  | moods
  | variant
  | crib
  | const
  | type
  | value
  | var
  | values
  | externFn
  | generics
  | typeargs
  | params
  | param
  | ret
  | slice
  | array
  | tag
  | cribTy
  | soa
  | fnTy
  | rawptr
  | named
  | block
  | fr
  | elif
  | els
  | vibin
  | squad
  | vibe
  | arm
  | default
  | holla
  | live
  | ghosted
  | sheesh
  | recover
  | evict
  | evictSlot
  | slide
  | bet
  | bounce
  | yeet
  | dip
  | skip
  | assign
  | targets
  | exprStmt
  | int
  | float
  | str
  | byte
  | bool
  | name
  | unary
  | binary
  | cast
  | method
  | call
  | callee
  | index
  | trust
  | arrayLit
  | cop
  | struct
  | fields
  | args
  | arg
  deriving DecidableEq

def Head.text : Head → Text
  | .program => ['p', 'r', 'o', 'g', 'r', 'a', 'm']
  | .pull => ['p', 'u', 'l', 'l']
  | .func => ['f', 'u', 'n', 'c']
  | .receiver => ['r', 'e', 'c', 'e', 'i', 'v', 'e', 'r']
  | .drip => ['d', 'r', 'i', 'p']
  | .field => ['f', 'i', 'e', 'l', 'd']
  | .moods => ['m', 'o', 'o', 'd', 's']
  | .variant => ['v', 'a', 'r', 'i', 'a', 'n', 't']
  | .crib => ['c', 'r', 'i', 'b']
  | .const => ['c', 'o', 'n', 's', 't']
  | .type => ['t', 'y', 'p', 'e']
  | .value => ['v', 'a', 'l', 'u', 'e']
  | .var => ['v', 'a', 'r']
  | .values => ['v', 'a', 'l', 'u', 'e', 's']
  | .externFn => ['e', 'x', 't', 'e', 'r', 'n']
  | .generics => ['g', 'e', 'n', 'e', 'r', 'i', 'c', 's']
  | .typeargs => ['t', 'y', 'p', 'e', 'a', 'r', 'g', 's']
  | .params => ['p', 'a', 'r', 'a', 'm', 's']
  | .param => ['p', 'a', 'r', 'a', 'm']
  | .ret => ['r', 'e', 't']
  | .slice => ['s', 'l', 'i', 'c', 'e']
  | .array => ['a', 'r', 'r', 'a', 'y']
  | .tag => ['t', 'a', 'g']
  | .cribTy => ['c', 'r', 'i', 'b', '-', 't', 'y']
  | .soa => ['s', 'o', 'a']
  | .fnTy => ['f', 'n', '-', 't', 'y']
  | .rawptr => ['r', 'a', 'w', 'p', 't', 'r']
  | .named => ['n', 'a', 'm', 'e', 'd']
  | .block => ['b', 'l', 'o', 'c', 'k']
  | .fr => ['f', 'r']
  | .elif => ['e', 'l', 'i', 'f']
  | .els => ['e', 'l', 's', 'e']
  | .vibin => ['v', 'i', 'b', 'i', 'n']
  | .squad => ['s', 'q', 'u', 'a', 'd']
  | .vibe => ['v', 'i', 'b', 'e']
  | .arm => ['a', 'r', 'm']
  | .default => ['d', 'e', 'f', 'a', 'u', 'l', 't']
  | .holla => ['h', 'o', 'l', 'l', 'a']
  | .live => ['l', 'i', 'v', 'e']
  | .ghosted => ['g', 'h', 'o', 's', 't', 'e', 'd']
  | .sheesh => ['s', 'h', 'e', 'e', 's', 'h']
  | .recover => ['r', 'e', 'c', 'o', 'v', 'e', 'r']
  | .evict => ['e', 'v', 'i', 'c', 't']
  | .evictSlot => ['e', 'v', 'i', 'c', 't', '-', 's', 'l', 'o', 't']
  | .slide => ['s', 'l', 'i', 'd', 'e']
  | .bet => ['b', 'e', 't']
  | .bounce => ['b', 'o', 'u', 'n', 'c', 'e']
  | .yeet => ['y', 'e', 'e', 't']
  | .dip => ['d', 'i', 'p']
  | .skip => ['s', 'k', 'i', 'p']
  | .assign => ['a', 's', 's', 'i', 'g', 'n']
  | .targets => ['t', 'a', 'r', 'g', 'e', 't', 's']
  | .exprStmt => ['e', 'x', 'p', 'r', '-', 's', 't', 'm', 't']
  | .int => ['i', 'n', 't']
  | .float => ['f', 'l', 'o', 'a', 't']
  | .str => ['s', 't', 'r']
  | .byte => ['b', 'y', 't', 'e']
  | .bool => ['b', 'o', 'o', 'l']
  | .name => ['n', 'a', 'm', 'e']
  | .unary => ['u', 'n', 'a', 'r', 'y']
  | .binary => ['b', 'i', 'n', 'a', 'r', 'y']
  | .cast => ['c', 'a', 's', 't']
  | .method => ['m', 'e', 't', 'h', 'o', 'd']
  | .call => ['c', 'a', 'l', 'l']
  | .callee => ['c', 'a', 'l', 'l', 'e', 'e']
  | .index => ['i', 'n', 'd', 'e', 'x']
  | .trust => ['t', 'r', 'u', 's', 't']
  | .arrayLit => ['a', 'r', 'r', 'a', 'y', '-', 'l', 'i', 't']
  | .cop => ['c', 'o', 'p']
  | .struct => ['s', 't', 'r', 'u', 'c', 't']
  | .fields => ['f', 'i', 'e', 'l', 'd', 's']
  | .args => ['a', 'r', 'g', 's']
  | .arg => ['a', 'r', 'g']

/-- A line: its first word, and the others after a blank each. -/
structure Line where
  head : Head
  words : List Word

def Line.text (l : Line) : Text := l.head.text ++ l.words.flatMap fun w => ' ' :: w.text

end Words

section Payloads

def visStr : Vis → Word
  | .flex => .plain ['f', 'l', 'e', 'x'] (by decide)
  | .hush => .plain ['h', 'u', 's', 'h'] (by decide)

def fieldVis : Option Vis → Word
  | some v => visStr v
  | none => .plain ['d', 'e', 'f', 'a', 'u', 'l', 't'] (by decide)

def unopStr : UnOp → Word
  | .neg => .plain ['n', 'e', 'g'] (by decide)
  | .not => .plain ['n', 'o', 't'] (by decide)
  | .bitNot => .plain ['b', 'i', 't', 'n', 'o', 't'] (by decide)

def binopStr : BinOp → Word
  | .or => .plain ['o', 'r'] (by decide)
  | .and => .plain ['a', 'n', 'd'] (by decide)
  | .eq => .plain ['e', 'q'] (by decide)
  | .ne => .plain ['n', 'e'] (by decide)
  | .lt => .plain ['l', 't'] (by decide)
  | .le => .plain ['l', 'e'] (by decide)
  | .gt => .plain ['g', 't'] (by decide)
  | .ge => .plain ['g', 'e'] (by decide)
  | .bitOr => .plain ['b', 'i', 't', 'o', 'r'] (by decide)
  | .bitXor => .plain ['b', 'i', 't', 'x', 'o', 'r'] (by decide)
  | .bitAnd => .plain ['b', 'i', 't', 'a', 'n', 'd'] (by decide)
  | .shl => .plain ['s', 'h', 'l'] (by decide)
  | .shr => .plain ['s', 'h', 'r'] (by decide)
  | .add => .plain ['a', 'd', 'd'] (by decide)
  | .sub => .plain ['s', 'u', 'b'] (by decide)
  | .mul => .plain ['m', 'u', 'l'] (by decide)
  | .div => .plain ['d', 'i', 'v'] (by decide)
  | .rem => .plain ['r', 'e', 'm'] (by decide)

def assignOpStr : AssignOp → Word
  | .eq => .plain ['e', 'q'] (by decide)
  | .addEq => .plain ['a', 'd', 'd', 'e', 'q'] (by decide)
  | .subEq => .plain ['s', 'u', 'b', 'e', 'q'] (by decide)
  | .mulEq => .plain ['m', 'u', 'l', 'e', 'q'] (by decide)
  | .divEq => .plain ['d', 'i', 'v', 'e', 'q'] (by decide)
  | .remEq => .plain ['r', 'e', 'm', 'e', 'q'] (by decide)
  | .andEq => .plain ['a', 'n', 'd', 'e', 'q'] (by decide)
  | .orEq => .plain ['o', 'r', 'e', 'q'] (by decide)
  | .xorEq => .plain ['x', 'o', 'r', 'e', 'q'] (by decide)
  | .shlEq => .plain ['s', 'h', 'l', 'e', 'q'] (by decide)
  | .shrEq => .plain ['s', 'h', 'r', 'e', 'q'] (by decide)

def boolStr : Bool → Word
  | true => .plain ['t', 'r', 'u', 'e'] (by decide)
  | false => .plain ['f', 'a', 'l', 's', 'e'] (by decide)

/-- A word of letters, digits and these signs. -/
theorem plain_valid {w : Text} (hne : w ≠ [])
    (h : ∀ c ∈ w, Lexer.identPart c = true ∨ c.isDigit = true ∨ c = '.' ∨ c = '-') :
    Plain w := by
  refine ⟨hne, fun c hc => ⟨?_, ?_, ?_⟩⟩ <;>
  · rintro rfl
    exact absurd (h _ hc) (by decide)

theorem ident_parts (name : Ident) :
    name.text ≠ [] ∧ ∀ c ∈ name.text, Lexer.identPart c = true := by
  obtain ⟨text, h⟩ := name
  cases text with
  | nil => cases h
  | cons c cs =>
    simp only [isIdent, Bool.and_eq_true, List.all_eq_true] at h
    refine ⟨by simp, fun d hd => ?_⟩
    rcases List.mem_cons.mp hd with rfl | hd
    · simp [Lexer.identPart, h.1]
    · exact h.2 d hd

theorem ident_plain (name : Ident) : Plain name.text :=
  plain_valid (ident_parts name).1 fun c hc => .inl ((ident_parts name).2 c hc)

def identWord (name : Ident) : Word := .plain name.text (ident_plain name)

def pathText (p : Path Ident) : Text :=
  match p.member with
  | none => p.head.text
  | some m => p.head.text ++ '.' :: m.text

theorem pathText_plain (p : Path Ident) : Plain (pathText p) := by
  obtain ⟨head, member⟩ := p
  cases member with
  | none => exact ident_plain head
  | some m =>
    refine plain_valid (by simp [pathText]) fun c hc => ?_
    simp only [pathText, List.mem_append, List.mem_cons] at hc
    rcases hc with hc | rfl | hc
    · exact .inl ((ident_parts head).2 c hc)
    · exact .inr (.inr (.inl rfl))
    · exact .inl ((ident_parts m).2 c hc)

def pathWord (p : Path Ident) : Word := .plain (pathText p) (pathText_plain p)

theorem decimal_ne_nil (n : Nat) : decimal n ≠ [] := Nat.toDigits_ne_nil

theorem decimal_plain (n : Nat) : Plain (decimal n) :=
  plain_valid (decimal_ne_nil n) fun c hc => .inr (.inl (Mangling.decimal_digits n c hc))

def natWord (n : Nat) : Word := .plain (decimal n) (decimal_plain n)

def sizeWord (n : UInt64) : Word := natWord n.toNat

def byteWord (b : UInt8) : Word := natWord b.toNat

def intText (n : Int) : Text := if 0 ≤ n then decimal n.toNat else '-' :: decimal (-n).toNat

theorem intText_plain (n : Int) : Plain (intText n) := by
  by_cases hn : 0 ≤ n
  · rw [intText, if_pos hn]
    exact decimal_plain n.toNat
  · refine plain_valid (by simp [intText, hn]) fun c hc => ?_
    simp only [intText, hn, if_false, List.mem_cons] at hc
    rcases hc with rfl | hc
    · exact .inr (.inr (.inr rfl))
    · exact .inr (.inl (Mangling.decimal_digits _ c hc))

def intWord (n : Int) : Word := .plain (intText n) (intText_plain n)

/-- The finite floating numbers with their display: digits, perhaps a point and a sign, from which
the number is read again, also with a fraction of zero behind a whole number. -/
structure Floats (F : Type) where
  display : F → Text
  read : Text → Option F
  display_ne_nil : ∀ f, display f ≠ []
  display_chars : ∀ f, ∀ c ∈ display f, c.isDigit = true ∨ c = '.' ∨ c = '-'
  read_display : ∀ f, read (display f) = some f
  read_whole : ∀ f, '.' ∉ display f → read (display f ++ ['.', '0']) = some f

variable {F : Type} (fl : Floats F)

def fmtFloat (f : F) : Text :=
  let s := fl.display f
  if s.any (fun c => c ∈ ['.', 'e', 'E', 'n', 'i']) then s else s ++ ['.', '0']

theorem fmtFloat_plain (f : F) : Plain (fmtFloat fl f) := by
  have hne := fl.display_ne_nil f
  have hchars (c : Char) (hc : c ∈ fl.display f) :
      Lexer.identPart c = true ∨ c.isDigit = true ∨ c = '.' ∨ c = '-' :=
    .inr (fl.display_chars f c hc)
  rw [fmtFloat]
  split
  · exact plain_valid hne hchars
  · refine plain_valid (by simp) fun c hc => ?_
    simp only [List.mem_append, List.mem_cons, List.not_mem_nil, or_false] at hc
    rcases hc with hc | rfl | rfl
    · exact hchars c hc
    · exact .inr (.inr (.inl rfl))
    · exact .inr (.inl rfl)

def floatWord (f : F) : Word := .plain (fmtFloat fl f) (fmtFloat_plain fl f)

def strWord (s : String) : Word := .quoted s.toList

/-- An optional word. -/
def labelWords : Option Ident → List Word
  | none => []
  | some l => [identWord l]

def noneWord : Word := .plain ['n', 'o', 'n', 'e'] (by decide)

def singleWord : Word := .plain ['s', 'i', 'n', 'g', 'l', 'e'] (by decide)

def multiWord : Word := .plain ['m', 'u', 'l', 't', 'i'] (by decide)

end Payloads

section Dump

abbrev Lines := List (Nat × Line)

def line (d : Nat) (head : Head) (words : List Word) : Lines := [(d, ⟨head, words⟩)]

section Types

mutual

def ty (d : Nat) : Ty Ident → Lines
  | .slice inner => line d .slice [] ++ ty (d + 1) inner
  | .array inner n => line d .array [sizeWord n] ++ ty (d + 1) inner
  | .tag inner => line d .tag [] ++ ty (d + 1) inner
  | .crib inner => line d .cribTy [] ++ ty (d + 1) inner
  | .soa inner => line d .soa [] ++ ty (d + 1) inner
  | .fn params ret =>
    line d .fnTy [] ++ (line (d + 1) .params [] ++ tys (d + 2) params) ++
      (line (d + 1) .ret [] ++ ty (d + 2) ret)
  | .rawPtr => line d .rawptr []
  | .named name gens => line d .named [pathWord name] ++ tys (d + 1) gens

def tys (d : Nat) : List (Ty Ident) → Lines
  | [] => []
  | t :: ts => ty d t ++ tys d ts

end

def optTy (d : Nat) : Option (Ty Ident) → Lines
  | none => []
  | some t => ty d t

/-- A declared type, behind the line that announces it. -/
def typed (d : Nat) : Option (Ty Ident) → Lines
  | none => []
  | some t => line d .type [] ++ ty (d + 1) t

def typeargs (d : Nat) (g : List (Ty Ident)) : Lines :=
  if g.isEmpty then [] else line d .typeargs [] ++ tys (d + 1) g

def generics (d : Nat) (g : List Ident) : Lines := line d .generics (g.map identWord)

def params (d : Nat) (ps : List (Param Ident)) : Lines :=
  line d .params [] ++
    ps.flatMap fun p => line (d + 1) .param [identWord p.name] ++ ty (d + 2) p.ty

def ret (d : Nat) : RetType Ident → Lines
  | .none => line d .ret [noneWord]
  | .single t => line d .ret [singleWord] ++ ty (d + 1) t
  | .multi ts => line d .ret [multiWord] ++ tys (d + 1) ts

end Types

variable {F : Type} (fl : Floats F)

section Expressions

mutual

def expr (d : Nat) : Expr Ident F → Lines
  | .int n => line d .int [intWord n]
  | .float f => line d .float [floatWord fl f]
  | .str s => line d .str [strWord s]
  | .byte b => line d .byte [byteWord b]
  | .bool b => line d .bool [boolStr b]
  | .ghosted => line d .ghosted []
  | .name name gens => line d .name [identWord name] ++ typeargs (d + 1) gens
  | .unary op x => line d .unary [unopStr op] ++ expr (d + 1) x
  | .binary op l r => line d .binary [binopStr op] ++ expr (d + 1) l ++ expr (d + 1) r
  | .cast x t => line d .cast [] ++ expr (d + 1) x ++ ty (d + 1) t
  | .field base name gens =>
    line d .field [identWord name] ++ expr (d + 1) base ++ typeargs (d + 1) gens
  | .method receiver method gens args =>
    line d .method [identWord method] ++ (line (d + 1) .receiver [] ++ expr (d + 2) receiver) ++
      typeargs (d + 1) gens ++ (line (d + 1) .args [] ++ argList (d + 2) args)
  | .call callee args =>
    line d .call [] ++ (line (d + 1) .callee [] ++ expr (d + 2) callee) ++
      (line (d + 1) .args [] ++ argList (d + 2) args)
  | .index base index => line d .index [] ++ expr (d + 1) base ++ expr (d + 1) index
  | .trust tag crib => line d .trust [] ++ expr (d + 1) tag ++ expr (d + 1) crib
  | .struct lit => structLit d lit
  | .array elems => line d .arrayLit [] ++ exprs (d + 1) elems
  | .cop init crib =>
    line d .cop [] ++ copInit (d + 1) init ++ (line (d + 1) .crib [] ++ expr (d + 2) crib)

def exprs (d : Nat) : List (Expr Ident F) → Lines
  | [] => []
  | e :: es => expr d e ++ exprs d es

def structLit (d : Nat) : StructLit Ident F → Lines
  | .mk name gens fields =>
    line d .struct [pathWord name] ++ typeargs (d + 1) gens ++
      (line (d + 1) .fields [] ++ fieldList (d + 2) fields)

def fieldList (d : Nat) : List (FieldInit Ident F) → Lines
  | [] => []
  | .mk name value :: fs => line d .field [identWord name] ++ expr (d + 1) value ++ fieldList d fs

def argList (d : Nat) : List (Arg Ident F) → Lines
  | [] => []
  | .mk label value :: as => line d .arg (labelWords label) ++ expr (d + 1) value ++ argList d as

def copInit (d : Nat) : CopInit Ident F → Lines
  | .struct lit => structLit d lit
  | .variant name args =>
    line d .variant [pathWord name] ++ (line (d + 1) .args [] ++ argList (d + 2) args)

end

end Expressions

section Statements

def cribDecl (d : Nat) (c : CribDecl Ident) : Lines :=
  line d .crib [visStr c.vis, identWord c.name] ++ optTy (d + 1) c.ty

def constDecl (d : Nat) (c : ConstDecl Ident F) : Lines :=
  line d .const [visStr c.vis, identWord c.name] ++ typed (d + 1) c.ty ++
    (line (d + 1) .value [] ++ expr fl (d + 2) c.value)

def varDecl (d : Nat) (v : VarDecl Ident F) : Lines :=
  line d .var (visStr v.vis :: identWord v.target :: v.targets.map identWord) ++
    typed (d + 1) v.ty ++ (line (d + 1) .values [] ++ exprs fl (d + 2) v.values)

mutual

def block (d : Nat) : Block Ident F → Lines
  | .mk stmts => line d .block [] ++ stmtList (d + 1) stmts

def stmtList (d : Nat) : List (Stmt Ident F) → Lines
  | [] => []
  | s :: ss => stmt d s ++ stmtList d ss

def stmt (d : Nat) : Stmt Ident F → Lines
  | .var v => varDecl fl d v
  | .const c => constDecl fl d c
  | .crib c => cribDecl d c
  | .fr cond body elifs els =>
    line d .fr [] ++ expr fl (d + 1) cond ++ block (d + 1) body ++ elifList (d + 1) elifs ++
      optBlock (d + 1) .els els
  | .vibin cond body => line d .vibin [] ++ expr fl (d + 1) cond ++ block (d + 1) body
  | .squad var iter body =>
    line d .squad [identWord var] ++ expr fl (d + 1) iter ++ block (d + 1) body
  | .vibe scrutinee arms default =>
    line d .vibe [] ++ expr fl (d + 1) scrutinee ++ armList (d + 1) arms ++
      optBlock (d + 1) .default default
  | .holla binding tag crib live ghosted =>
    line d .holla [identWord binding] ++ (line (d + 1) .tag [] ++ expr fl (d + 2) tag) ++
      (line (d + 1) .crib [] ++ expr fl (d + 2) crib) ++
      (line (d + 1) .live [] ++ block (d + 2) live) ++
      (line (d + 1) .ghosted [] ++ block (d + 2) ghosted)
  | .sheesh body recover => line d .sheesh [] ++ block (d + 1) body ++ optRecover (d + 1) recover
  | .evict crib none => line d .evict [] ++ expr fl (d + 1) crib
  | .evict crib (some tag) => line d .evictSlot [] ++ expr fl (d + 1) tag ++ expr fl (d + 1) crib
  | .slide e => line d .slide [] ++ expr fl (d + 1) e
  | .bet values => line d .bet [] ++ exprs fl (d + 1) values
  | .bounce e => line d .bounce [] ++ expr fl (d + 1) e
  | .yeet e => line d .yeet [] ++ expr fl (d + 1) e
  | .dip => line d .dip []
  | .skip => line d .skip []
  | .assign targets op values =>
    line d .assign [assignOpStr op] ++ (line (d + 1) .targets [] ++ exprs fl (d + 2) targets) ++
      (line (d + 1) .values [] ++ exprs fl (d + 2) values)
  | .expr e => line d .exprStmt [] ++ expr fl (d + 1) e

def elifList (d : Nat) : List (Elif Ident F) → Lines
  | [] => []
  | .mk cond body :: es =>
    line d .elif [] ++ expr fl (d + 1) cond ++ block (d + 1) body ++ elifList d es

def armList (d : Nat) : List (MatchArm Ident F) → Lines
  | [] => []
  | .mk variant bindings body :: as =>
    line d .arm (pathWord variant :: bindings.map identWord) ++ block (d + 1) body ++ armList d as

def optBlock (d : Nat) (head : Head) : Option (Block Ident F) → Lines
  | none => []
  | some b => line d head [] ++ block (d + 1) b

def optRecover (d : Nat) : Option (Recover Ident F) → Lines
  | none => []
  | some (.mk name body) => line d .recover [identWord name] ++ block (d + 1) body

end

end Statements

section Items

def receiver (d : Nat) : Option (Param Ident) → Lines
  | none => []
  | some r => line d .receiver [identWord r.name] ++ ty (d + 1) r.ty

/-- `as` and the name, when the module is bound to another. -/
def aliasWords : Option Ident → List Word
  | none => []
  | some a => [.plain ['a', 's'] (by decide), identWord a]

def item (d : Nat) : Item Ident F → Lines
  | .pull p => line d .pull (strWord p.module :: aliasWords p.aliasName)
  | .func f =>
    line d .func [visStr f.vis, identWord f.name] ++ receiver (d + 1) f.receiver ++
      generics (d + 1) f.generics ++ params (d + 1) f.params ++ ret (d + 1) f.ret ++
      block fl (d + 1) f.body
  | .drip s =>
    line d .drip [visStr s.vis, identWord s.name] ++ generics (d + 1) s.generics ++
      s.fields.flatMap fun fld =>
        line (d + 1) .field [fieldVis fld.vis, identWord fld.name] ++ ty (d + 2) fld.ty
  | .moods m =>
    line d .moods [visStr m.vis, identWord m.name] ++ generics (d + 1) m.generics ++
      m.variants.flatMap fun v =>
        line (d + 1) .variant [identWord v.name] ++ tys (d + 2) v.payload
  | .crib c => cribDecl d c
  | .const c => constDecl fl d c
  | .var v => varDecl fl d v
  | .externFn e =>
    line d .externFn [strWord e.abi, identWord e.name] ++ params (d + 1) e.params ++
      ret (d + 1) e.ret

def program (p : Program Ident F) : Lines :=
  line 0 .program [] ++ p.items.flatMap (item fl 1)

/-- The text of the dump. -/
def ast (p : Program Ident F) : Text := Outline.text Line.text (program fl p)

end Items

end Dump

end BetLang.AstDump
