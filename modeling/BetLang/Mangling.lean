import BetLang.Collect
import BetLang.Joins
import BetLang.Lexer
import BetLang.MidirLexer

/-! The names that declarations get when the modules are merged, and the names of the instances of
generics. -/

namespace BetLang.Mangling

open Joins (joined)
open Midir (Unicode)

abbrev Text := List Char

def isIdent : Text → Bool
  | [] => false
  | c :: cs => Lexer.identStart c && cs.all Lexer.identPart

/-- A name that a source file can write. -/
structure Ident where
  text : Text
  valid : isIdent text = true
  deriving DecidableEq

inductive SymKind where
  | func
  | value
  | struct
  | sum
  | variant
  deriving DecidableEq

/-- What the naming reads of an item. -/
inductive Item where
  | func (name : Ident) (generics : List Ident)
  | const (name : Ident)
  | var (targets : List Ident)
  | crib (name : Ident)
  | drip (name : Ident) (generics : List Ident)
  | moods (name : Ident) (variants : List Ident)
  | externFn (name : Ident)
  | pull

structure Module where
  stem : Text
  items : List Item

/-- The modules in the order of the graph: the root is the last of them. -/
structure Graph where
  deps : List Module
  root : Module

def Graph.modules (g : Graph) : List Module := g.deps ++ [g.root]

def decimal (n : Nat) : Text := Nat.toDigits 10 n

section Resolve

/-- What the names of a module start with: nothing in the root. -/
def Graph.lead (g : Graph) (i : Nat) : Text :=
  match g.deps[i]? with
  | some m => m.stem ++ '$' :: (decimal i ++ ['$'])
  | none => []

structure Sym where
  kind : SymKind
  mangled : Text

/-- A later entry for the same name counts. -/
abbrev Table := List (Text × Sym)

/-- What an item puts into the table. -/
def Item.symbols : Item → List (Ident × SymKind)
  | .func name _ => [(name, .func)]
  | .const name => [(name, .value)]
  | .var targets => targets.map (·, .value)
  | .crib name => [(name, .value)]
  | .drip name _ => [(name, .struct)]
  | .moods name variants => (name, .sum) :: variants.map (·, .variant)
  | .externFn _ | .pull => []

def put (lead : Text) (t : Table) (entry : Ident × SymKind) : Table :=
  (entry.1.text, ⟨entry.2, lead ++ entry.1.text⟩) :: t

def buildTable (items : List Item) (lead : Text) : Table :=
  (items.flatMap Item.symbols).foldl (put lead) []

def ownMangle (t : Table) (name : Ident) : Text :=
  ((t.lookup name.text).map Sym.mangled).getD name.text

def Graph.items (g : Graph) (i : Nat) : List Item := (g.modules[i]?.map Module.items).getD []

/-- The name of a declaration of module `i` in the merged program. -/
def Graph.resolved (g : Graph) (i : Nat) (name : Ident) : Text :=
  ownMangle (buildTable (g.items i) (g.lead i)) name

/-- The declarations of a module, in order. -/
def Graph.symbolsAt (g : Graph) (i : Nat) : List (Ident × SymKind) :=
  (g.items i).flatMap Item.symbols

end Resolve

section Types

/-- A type that does not stand for others: `unnamed` has no word of its own but its number. -/
inductive Leaf where
  | bool
  | int (width : Ir.IntWidth) (signed : Bool)
  | f32
  | f64
  | str
  | void
  | rawPtr
  | yikes
  | unnamed (id : Nat)
  deriving DecidableEq

def Leaf.word : Leaf → Text
  | .bool => ['b', 'o', 'o', 'l']
  | .int width signed => (if signed then 'i' else 'u') :: decimal width.bits
  | .f32 => ['f', '3', '2']
  | .f64 => ['f', '6', '4']
  | .str => ['s', 't', 'r']
  | .void => ['v', 'o', 'i', 'd']
  | .rawPtr => ['r', 'a', 'w', 'p', 't', 'r']
  | .yikes => ['_', '_', 'y', 'i', 'k', 'e', 's']
  | .unnamed id => 't' :: decimal id

/-- What is made of one type. -/
inductive Mod where
  | slice
  | array (n : Nat)
  | tag
  | crib
  | ref
  deriving DecidableEq

def Mod.word : Mod → Text
  | .slice => ['s', 'l', 'i', 'c', 'e', '_']
  | .array n => ['a', 'r', 'r'] ++ (decimal n ++ ['_'])
  | .tag => ['t', 'a', 'g', '_']
  | .crib => ['c', 'r', 'i', 'b', '_']
  | .ref => ['r', 'e', 'f', '_']

/-- A type of the IR; a struct or sum is known by the module and name of its declaration, an
instance of a drip by its arguments as well. -/
inductive Ty where
  | leaf (l : Leaf)
  | named (i : Nat) (name : Ident)
  | inst (i : Nat) (name : Ident) (args : List Ty)
  | modified (m : Mod) (e : Ty)

mutual

def mangleTy (g : Graph) : Ty → Text
  | .leaf l => l.word
  | .named i name => g.resolved i name
  | .inst i name args => g.resolved i name ++ '$' :: joined '$' (mangleTys g args)
  | .modified m e => m.word ++ mangleTy g e

def mangleTys (g : Graph) : List Ty → List Text
  | [] => []
  | t :: ts => mangleTy g t :: mangleTys g ts

end

/-- The name of an instance of a generic. -/
def mangle (g : Graph) (base : Text) (args : List Ty) : Text :=
  base ++ '$' :: joined '$' (mangleTys g args)

end Types

section Programs

variable (g : Graph) (unnamed : List Nat)

/-- A name that means a type before any declaration is looked for. -/
def builtinName (name : Text) : Bool :=
  let s := String.ofList name
  s = "yikes" || (Collect.scalarKind s).isSome || (Dispatch.simdTypeName s).isSome

/-- A drip without parameters or a `moods` that a type can name. -/
def TypeName (i : Nat) (name : Ident) : Prop :=
  (.drip name [] ∈ g.items i ∨ ∃ variants, .moods name variants ∈ g.items i) ∧
    builtinName (g.resolved i name) = false

/-- A function or drip with so many type parameters; `stash` and `vec` with arguments mean
others. -/
inductive Generic : SymKind → Nat → Ident → Nat → Prop where
  | func {i : Nat} {name : Ident} {generics : List Ident} : .func name generics ∈ g.items i →
    generics ≠ [] → Generic .func i name generics.length
  | drip {i : Nat} {name : Ident} {generics : List Ident} : .drip name generics ∈ g.items i →
    generics ≠ [] → g.resolved i name ∉ [['s', 't', 'a', 's', 'h'], ['v', 'e', 'c']] →
    Generic .struct i name generics.length

def Leaf.Formable : Leaf → Prop
  | .unnamed id => id ∈ unnamed
  | _ => True

/-- The source has no type for a reference. -/
def Mod.Formable : Mod → Prop
  | .array n => n < 2 ^ 64
  | .ref => False
  | _ => True

/-- The types that can be arguments in the program; `unnamed` are the numbers of those that have
no word of their own. -/
inductive Formable : Ty → Prop where
  | leaf {l : Leaf} : l.Formable unnamed → Formable (.leaf l)
  | named {i : Nat} {name : Ident} : TypeName g i name → Formable (.named i name)
  | inst {i : Nat} {name : Ident} {args : List Ty} : Generic g .struct i name args.length →
    (∀ t ∈ args, Formable t) → Formable (.inst i name args)
  | modified {m : Mod} {e : Ty} : m.Formable → Formable e → Formable (.modified m e)

/-- A generic of the kind with a list of arguments for it. -/
def Instance (k : SymKind) (i : Nat) (name : Ident) (args : List Ty) : Prop :=
  Generic g k i name args.length ∧ ∀ t ∈ args, Formable g unnamed t

/-- The declarations that are emitted under their own name. -/
def Item.emitted : Item → List Ident
  | .func name generics => if generics = [] then [name] else []
  | .drip name generics => if generics = [] then [name] else []
  | .moods name variants => name :: variants
  | .crib name => [name]
  | _ => []

inductive Emitted : Text → Prop where
  | item {i : Nat} {item : Item} {name : Ident} : item ∈ g.items i → name ∈ item.emitted →
    Emitted (g.resolved i name)
  | externFn {i : Nat} {name : Ident} : .externFn name ∈ g.items i → Emitted name.text
  | inst {k : SymKind} {i : Nat} {name : Ident} {args : List Ty} :
    Instance g unnamed k i name args → Emitted (mangle g (g.resolved i name) args)

/-- No two declarations, nor instances, of one kind share a name, and every name is one identifier
of the text form. -/
structure Faithful (u : Unicode) : Prop where
  resolved : ∀ i j : Nat, ∀ s ∈ g.symbolsAt i, ∀ s' ∈ g.symbolsAt j,
    g.resolved i s.1 = g.resolved j s'.1 → i = j ∧ s.1 = s'.1
  declared : ∀ (i j p q : Nat) (s s' : Ident × SymKind), (g.symbolsAt i)[p]? = some s →
    (g.symbolsAt j)[q]? = some s' → s.2 = s'.2 → g.resolved i s.1 = g.resolved j s'.1 →
    i = j ∧ p = q
  instances : ∀ k i name args j name' args', Instance g unnamed k i name args →
    Instance g unnamed k j name' args' →
    mangle g (g.resolved i name) args = mangle g (g.resolved j name') args' →
    i = j ∧ name = name' ∧ args = args'
  fresh : ∀ k i name args j name', Instance g unnamed k i name args →
    (name', k) ∈ g.symbolsAt j → mangle g (g.resolved i name) args ≠ g.resolved j name'
  printable : ∀ name, Emitted g unnamed name → Midir.lex u name = .ok [.ident name]

end Programs

end BetLang.Mangling
