import BetLang.ControlExec

/-! Iteration over a collection: the interpreter's loop over its contents, and the counter loops of
lowering, which read the elements where they are. -/

namespace BetLang.Squad

open Control Control.Interp

variable {V ρ : Type}

def betVecLen (elemSize : Nat) (v : List V) : Nat := if elemSize = 0 then 0 else v.length

/-- Without an element at the index nothing is written. -/
def betVecGet (elemSize : Nat) (v : List V) (idx : Nat) (out : V) : Bool × V :=
  if idx ≥ betVecLen elemSize v then (false, out)
  else
    match v[idx]? with
    | some x => (true, x)
    | none => (false, out)

/-- What an iterated place holds. Its type fixes the number of elements of an array; of a vec the
elements are those behind the handle that the place holds. -/
inductive Source (V ρ : Type) where
  | array (n : Nat) (elems : ρ → Fin n → V)
  | vec (elemSize : Nat) (elems : ρ → List V)

def Source.contents : Source V ρ → ρ → List V
  | .array _ elems, s => List.ofFn (elems s)
  | .vec _ elems, s => elems s

/-- A loop body or a callback, with the variable it is given. It may change that variable, the
collection and everything else. -/
abbrev Body (V ρ : Type) := Comp (V × ρ)

/-- The elements that are visited, and how the loop ends. -/
structure Visits (V σ : Type) where
  visited : List V
  out : Option (Outcome σ)

def Visits.visit {σ : Type} (x : V) (rest : Visits V σ) : Visits V σ :=
  ⟨x :: rest.visited, rest.out⟩

inductive Loop (V ρ : Type) where
  | squad (body : Body V ρ)
  /-- `vibeCheck` and `glowUp`: the argument is evaluated, then its value is called. -/
  | builtin (arg : Comp ρ) (f : V → Comp ρ)

def mapOutcome {σ τ : Type} (g : σ → τ) : Outcome σ → Outcome τ
  | .normal s => .normal (g s)
  | .brk s => .brk (g s)
  | .cont s => .cont (g s)
  | .ret s => .ret (g s)
  | .panicked => .panicked
  | .nonExhaustive => .nonExhaustive
  | .fellOff => .fellOff

/-- A callback is passed a copy. -/
def callback (f : V → Comp ρ) : Body V ρ := fun (x, s) => (f x s).map (mapOutcome (x, ·))

namespace Interp

/-- The rounds over a copy of the contents. -/
def items (body : Body V ρ) : List V → ρ → Visits V ρ
  | [], s => ⟨[], some (.normal s)⟩
  | x :: rest, s =>
    match body (x, s) with
    | some (.normal (_, s')) | some (.cont (_, s')) => (items body rest s').visit x
    | some (.brk (_, s')) => ⟨[x], some (.normal s')⟩
    | out => ⟨[x], out.map (mapOutcome Prod.snd)⟩

def visits (src : Source V ρ) : Loop V ρ → ρ → Visits V ρ
  | .squad body, s => items body (src.contents s) s
  | .builtin arg f, s =>
    let xs := src.contents s
    match arg s with
    | some (.normal s') => items (callback f) xs s'
    | out => ⟨[], out⟩

end Interp

namespace Lower

/-- The locals of a lowered loop, beside everything else. -/
structure Counter (V ρ : Type) where
  len : Nat
  ctr : Nat
  /-- The local of the element. -/
  elem : V
  rest : ρ

/-- The length, once, and `counter = 0`. -/
def start (src : Source V ρ) (c : Counter V ρ) : Counter V ρ :=
  match src with
  | .array n _ => { c with len := n, ctr := 0 }
  | .vec elemSize elems => { c with len := betVecLen elemSize (elems c.rest), ctr := 0 }

/-- The element at the counter, from where the collection is now. What `bet_vec_get` returns is not
looked at. -/
def element (src : Source V ρ) (c : Counter V ρ) : Option (Counter V ρ) :=
  match src with
  | .array n elems => if h : c.ctr < n then some { c with elem := elems c.rest ⟨c.ctr, h⟩ } else none
  | .vec elemSize elems =>
    some { c with elem := (betVecGet elemSize (elems c.rest) c.ctr c.elem).2 }

def advance (c : Counter V ρ) : Counter V ρ := { c with ctr := c.ctr + 1 }

/-- The body works on its variable and on everything but the counter. -/
def inBody (body : Body V ρ) : Comp (Counter V ρ) := fun c =>
  (body (c.elem, c.rest)).map (mapOutcome fun (x, s) => { c with elem := x, rest := s })

/-- From the header on. -/
def rounds (src : Source V ρ) (body : Body V ρ) : Nat → Counter V ρ → Visits V (Counter V ρ)
  | 0, _ => ⟨[], none⟩
  | n + 1, c =>
    if c.ctr < c.len then
      match element src c with
      | none => ⟨[], some .panicked⟩
      | some c' =>
        match inBody body c' with
        | some (.normal c'') | some (.cont c'') => (rounds src body n (advance c'')).visit c'.elem
        | some (.brk c'') => ⟨[c'.elem], some (.normal c'')⟩
        | out => ⟨[c'.elem], out⟩
    else ⟨[], some (.normal c)⟩

/-- A loop from a state, with what the local of the element holds before. -/
def visits (src : Source V ρ) (elem : V) : Loop V ρ → ρ → Visits V (Counter V ρ)
  | .squad body, s =>
    let c := start src ⟨0, 0, elem, s⟩
    rounds src body (c.len + 1) c
  | .builtin arg f, s =>
    match arg s with
    | some (.normal s') =>
      let c := start src ⟨0, 0, elem, s'⟩
      rounds src (callback f) (c.len + 1) c
    | out => ⟨[], out.map (mapOutcome fun s' => ⟨0, 0, elem, s'⟩)⟩

/-- The parts of a loop over `src`, for the blocks that `lowerLoop` builds. -/
def parts (src : Source V ρ) : Sem Unit (Counter V ρ) where
  act
    | .start _, c => some (start src c)
    | .element _, c => element src c
    | .advance _, c => some (advance c)
    | _, c => some c
  test
    | .more _, c => c.ctr < c.len
    | _, _ => false
  variant _ _ := ""
  resolve _ _ := none
  callee _ _ := 0
  enter _ _ := none
  leave _ _ := none

end Lower

end BetLang.Squad
