import BetLang.Lockstep
import Mathlib.Logic.Function.Basic

/-! Generational arenas and `holla`: the interpreter binds a copy of the element and writes it
back, the live-reference semantics binds the element itself. -/

namespace BetLang.Holla

/-- A leaf of an element; an element is its leaves in declaration order. -/
inductive Value where
  | int (v : Int)
  | bool (b : Bool)
  | str (s : String)
  | tag (arena slot : Nat) (generation : BitVec 64)
  | ghosted
  deriving DecidableEq, Repr

structure Slot where
  value : List Value
  generation : BitVec 64
  live : Bool
  deriving DecidableEq, Repr

/-- A typed crib of elements with `width` leaves. -/
structure Arena where
  width : Nat
  slots : List Slot
  deriving DecidableEq, Repr

/-- The first freed slot is reused; else the slab grows. -/
def Arena.alloc (a : Arena) (value : List Value) : Arena × Nat × BitVec 64 :=
  match a.slots.findIdx? fun s => !s.live with
  | some i =>
    ({ a with slots := a.slots.modify i fun s => { s with value, live := true } },
      i, ((a.slots[i]?).map Slot.generation).getD 0)
  | none => ({ a with slots := a.slots ++ [⟨value, 0, true⟩] }, a.slots.length, 0)

def Slot.current (s : Slot) (generation : BitVec 64) : Bool :=
  s.live && s.generation == generation

def Arena.resolve (a : Arena) (slot : Nat) (generation : BitVec 64) : Option (List Value) :=
  ((a.slots[slot]?).filter fun s => s.current generation).map Slot.value

def Arena.resolveUnchecked (a : Arena) (slot : Nat) : Option (List Value) :=
  (a.slots[slot]?).map Slot.value

def Arena.writeSlot (a : Arena) (slot : Nat) (generation : BitVec 64) (value : List Value) :
    Arena :=
  { a with slots := a.slots.modify slot fun s =>
      if s.current generation then { s with value } else s }

def Arena.evict (a : Arena) : Arena :=
  { a with slots := a.slots.map fun s => { s with generation := s.generation + 1, live := false } }

def Arena.evictSlot (a : Arena) (slot : Nat) (generation : BitVec 64) : Arena :=
  { a with slots := a.slots.modify slot fun s =>
      if s.current generation then { s with live := false, generation := s.generation + 1 } else s }

/-- What a program does to its cribs without a binding. -/
inductive CribOp where
  | crib (width : Nat)
  | cop (arena : Nat) (init : List Value)
  | evict (arena : Nat)
  | evictSlot (arena slot : Nat) (generation : BitVec 64)
  | trust (arena slot leaf : Nat)

/-- Binding 0 is the innermost active holla's; a callee's hollas stack on its callers'. After an
error, `leaked` is a variable of the binding's name in a scope that the error left behind. -/
inductive Op where
  | crib (op : CribOp)
  | holla (arena slot : Nat) (generation : BitVec 64)
  | read (binding leaf : Nat)
  | write (binding leaf : Nat) (v : Value)
  | endHolla (leaked : Option (List Value))

inductive Obs where
  | unit
  | error
  | arena (id : Nat)
  | tag (arena slot : Nat) (generation : BitVec 64)
  | value (v : Value)
  | arm (live : Bool)
  deriving DecidableEq, Repr

def Obs.ofLeaf : Option Value → Obs
  | some v => .value v
  | none => .error

/-- The slot a tag of `arena` points at. -/
def slotAt (arenas : List Arena) (arena slot : Nat) : Option Slot :=
  (arenas[arena]?).bind (·.slots[slot]?)

def resolve (arenas : List Arena) (arena slot : Nat) (generation : BitVec 64) :
    Option (List Value) :=
  (arenas[arena]?).bind fun a => a.resolve slot generation

def cribStep (arenas : List Arena) : CribOp → List Arena × Obs
  | .crib width => (arenas ++ [⟨width, []⟩], .arena arenas.length)
  | .cop arena init =>
    match arenas[arena]? with
    | some a =>
      if init.length = a.width then
        let (a', slot, generation) := a.alloc init
        (arenas.set arena a', .tag arena slot generation)
      else (arenas, .error)
    | none => (arenas, .error)
  | .evict arena => (arenas.modify arena Arena.evict, .unit)
  | .evictSlot arena slot generation =>
    (arenas.modify arena fun a => a.evictSlot slot generation, .unit)
  | .trust arena slot leaf =>
    (arenas, .ofLeaf (((arenas[arena]?).bind fun a => a.resolveUnchecked slot).bind (·[leaf]?)))

/-- An `exec_holla` whose live block is running. -/
structure Binding where
  arena : Nat
  slot : Nat
  generation : BitVec 64
  snapshot : List Value
  value : List Value
  deriving DecidableEq, Repr

structure Interp where
  arenas : List Arena
  bindings : List Binding
  deriving DecidableEq, Repr

/-- `exec_holla` up to its live block: the binding is a copy of the element. -/
def Interp.enter (st : Interp) (arena slot : Nat) (generation : BitVec 64) : Interp × Obs :=
  match resolve st.arenas arena slot generation with
  | some val => ({ st with bindings := ⟨arena, slot, generation, val, val⟩ :: st.bindings }, .arm true)
  | none => (st, .arm false)

/-- `exec_holla` after its live block: the binding is written back if it changed. -/
def Interp.leave (st : Interp) (leaked : Option (List Value)) : Interp × Obs :=
  match st.bindings with
  | [] => (st, .error)
  | b :: rest =>
    let updated := leaked.getD b.value
    if updated ≠ b.snapshot then
      (⟨st.arenas.modify b.arena fun a => a.writeSlot b.slot b.generation updated, rest⟩, .unit)
    else (⟨st.arenas, rest⟩, .unit)

def Interp.step : Lockstep.Machine Interp Op Obs
  | st, .crib op =>
    let (arenas, o) := cribStep st.arenas op
    ({ st with arenas }, o)
  | st, .holla arena slot generation => st.enter arena slot generation
  | st, .read binding leaf => (st, .ofLeaf ((st.bindings[binding]?).bind (·.value[leaf]?)))
  | st, .write binding leaf v =>
    match st.bindings[binding]? with
    | some b =>
      if leaf < b.value.length then
        ({ st with bindings := st.bindings.set binding { b with value := b.value.set leaf v } }, .unit)
      else (st, .error)
    | none => (st, .error)
  | st, .endHolla leaked => st.leave leaked

/-! The live-reference semantics: a binding is the element's place. -/

structure Ref where
  arena : Nat
  slot : Nat
  deriving DecidableEq, Repr

structure Live where
  arenas : List Arena
  bindings : List Ref
  deriving DecidableEq, Repr

def Live.deref (st : Live) (binding : Nat) : Option (List Value) :=
  (st.bindings[binding]?).bind fun r => (slotAt st.arenas r.arena r.slot).map Slot.value

def storeLeaf (arenas : List Arena) (r : Ref) (leaf : Nat) (v : Value) : List Arena :=
  arenas.modify r.arena fun a =>
    { a with slots := a.slots.modify r.slot fun s => { s with value := s.value.set leaf v } }

def Live.step : Lockstep.Machine Live Op Obs
  | st, .crib op =>
    let (arenas, o) := cribStep st.arenas op
    ({ st with arenas }, o)
  | st, .holla arena slot generation =>
    match resolve st.arenas arena slot generation with
    | some _ => ({ st with bindings := ⟨arena, slot⟩ :: st.bindings }, .arm true)
    | none => (st, .arm false)
  | st, .read binding leaf => (st, .ofLeaf ((st.deref binding).bind (·[leaf]?)))
  | st, .write binding leaf v =>
    match st.bindings[binding]?, st.deref binding with
    | some r, some val =>
      if leaf < val.length then ({ st with arenas := storeLeaf st.arenas r leaf v }, .unit)
      else (st, .error)
    | _, _ => (st, .error)
  | st, .endHolla _ =>
    match st.bindings with
    | [] => (st, .error)
    | _ :: rest => ({ st with bindings := rest }, .unit)

end BetLang.Holla
