import BetLang.Layout
import BetLang.Regions

/-! The runtime's bump crib: chunks that are kept across resets, and a cursor that walks them. -/

namespace BetLang.Bump

open Regions

/-- One more than the largest `usize`. -/
def addressSpace : Nat := 2 ^ 64

def usizeMax : Nat := 2 ^ 64 - 1

def isizeMax : Nat := 2 ^ 63 - 1

structure Chunk where
  base : Nat
  cap : Nat
  align : Nat
  deriving DecidableEq, Repr

def Chunk.region (c : Chunk) : Region := ⟨c.base, c.cap⟩

structure BumpCrib where
  chunks : List Chunk
  current : Nat
  offset : Nat
  nextReserve : Nat
  deriving Repr

/-- What the system allocator answers to a size and an alignment while these chunks are in use;
`none` is a failure. -/
abbrev System := List Chunk → Nat → Nat → Option Nat

def alignUp (addr align : Nat) : Nat :=
  let align := max align 1
  (BitVec.ofNat 64 (addr + align - 1) &&& ~~~BitVec.ofNat 64 (align - 1)).toNat

def checkedAdd (a b : Nat) : Option Nat := if a + b ≤ usizeMax then some (a + b) else none

def saturatingAdd (a b : Nat) : Nat := min (a + b) usizeMax

def saturatingMul (a b : Nat) : Nat := min (a * b) usizeMax

/-- `Layout::from_size_align` takes powers of two, and sizes that can be rounded up. -/
def layoutOk (size align : Nat) : Bool :=
  align.isPowerOfTwo && max size 1 ≤ isizeMax + 1 - align

/-- The process dies on a bad layout and on a failed allocation. -/
def allocOrDie (sys : System) (chunks : List Chunk) (size align : Nat) : Option Nat :=
  if layoutOk size (max align 1) then sys chunks (max size 1) (max align 1) else none

def BumpCrib.new (sys : System) (reserve : Nat) : Option BumpCrib := do
  let cap := max reserve 16
  let base ← allocOrDie sys [] cap 16
  return { chunks := [⟨base, cap, 16⟩], current := 0, offset := 0, nextReserve := cap }

/-- The end of the request does not run past the end of the chunk, nor of the address space. -/
def fitsIn (aligned size base cap : Nat) : Bool :=
  match checkedAdd aligned size, checkedAdd base cap with
  | some stop, some limit => stop ≤ limit
  | _, _ => false

inductive Outcome where
  | block (addr : Nat) (crib : BumpCrib)
  | died
  /-- There is no chunk at the cursor. -/
  | panicked

/-- The next retained chunk can hold the request. -/
def reuses (b : BumpCrib) (size align : Nat) : Bool :=
  match b.chunks[b.current + 1]? with
  | some next => fitsIn (alignUp next.base align) size next.base next.cap
  | none => false

/-- A fresh chunk right behind the current one. -/
def splice (b : BumpCrib) (c : Chunk) : BumpCrib :=
  { b with
    chunks := b.chunks.take (b.current + 1) ++ c :: b.chunks.drop (b.current + 1)
    nextReserve := max (saturatingMul b.nextReserve 2) c.cap }

def wanted (b : BumpCrib) (size align : Nat) : Nat := max b.nextReserve (saturatingAdd size align)

/-- The crib with a chunk for the request behind the cursor. -/
def provide (sys : System) (b : BumpCrib) (size align : Nat) : Option BumpCrib :=
  if reuses b size align then some b
  else do
    let base ← allocOrDie sys b.chunks (wanted b size align) (max align 16)
    return splice b ⟨base, wanted b size align, max align 16⟩

def advance (b : BumpCrib) : BumpCrib := { b with current := b.current + 1, offset := 0 }

/-- At most `fuel` rounds of the loop. -/
def allocLoop (sys : System) (size align : Nat) : Nat → BumpCrib → Option Outcome
  | 0, _ => none
  | fuel + 1, b =>
    match b.chunks[b.current]? with
    | none => some .panicked
    | some chunk =>
      let aligned := alignUp (chunk.base + b.offset) align
      if fitsIn aligned size chunk.base chunk.cap then
        some (.block aligned { b with offset := aligned + size - chunk.base })
      else
        match provide sys b size align with
        | none => some .died
        | some b' => allocLoop sys size align fuel (advance b')

def BumpCrib.alloc (sys : System) (fuel : Nat) (b : BumpCrib) (size align : Nat) : Option Outcome :=
  allocLoop sys size (max align 1) fuel b

def BumpCrib.reset (b : BumpCrib) : BumpCrib := { b with current := 0, offset := 0 }

inductive Op where
  | alloc (size align : Nat)
  | reset

structure Block where
  region : Region
  align : Nat

/-- A crib, and the blocks that it has returned since the last reset. -/
structure Session where
  crib : BumpCrib
  live : List Block

/-- `none`: the process has died, or the fuel has run out. -/
def step (sys : System) (fuel : Nat) (s : Session) : Op → Option Session
  | .reset => some ⟨s.crib.reset, []⟩
  | .alloc size align =>
    match s.crib.alloc sys fuel size align with
    | some (.block addr crib) => some ⟨crib, s.live ++ [⟨⟨addr, size⟩, align⟩]⟩
    | _ => none

def run (sys : System) (fuel : Nat) : List Op → Session → Option Session
  | [], s => some s
  | op :: ops, s => (step sys fuel s op).bind (run sys fuel ops)

end BetLang.Bump
