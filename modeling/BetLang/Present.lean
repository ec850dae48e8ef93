import BetLang.Painting
import Mathlib.Algebra.Group.Int.Defs
import Mathlib.Algebra.Group.Nat.Defs

/-! Presenting a frame: an integer upscale into the window, between letterbox bars that are painted
once per layout. -/

namespace BetLang.Presenting

/-- `as i32`, and an `i32` operation that wraps. -/
def i32 (n : Int) : Int := n.bmod (2 ^ 32)

def usize (n : Nat) : Nat := n % 2 ^ 64

/-- One call: the frame, its size, and the size of the window. -/
structure Call where
  src : List UInt32
  cw : Nat
  ch : Nat
  winW : Nat
  winH : Nat
  deriving DecidableEq, Repr

/-- The window size, the scale and the offsets. -/
abbrev Layout := Nat × Nat × Nat × Int × Int

structure Present where
  buf : List UInt32
  laidOut : Option Layout
  scale : Nat
  offX : Int
  offY : Int
  deriving DecidableEq, Repr

def Present.new : Present := ⟨[], none, 1, 0, 0⟩

def resize (buf : List UInt32) (need : Nat) : List UInt32 :=
  buf.take need ++ List.replicate (need - buf.length) 0

/-- Exactly `need` pixels; new ones are black. -/
def Present.fit (p : Present) (need : Nat) : Present :=
  if p.buf.length = need then p else { p with buf := resize p.buf need }

/-- An empty frame, an empty window and a frame with too few pixels are not presented. -/
def Call.presented (c : Call) : Bool :=
  !(c.cw == 0 || c.ch == 0 || c.winW == 0 || c.winH == 0 || c.src.length < usize (c.cw * c.ch))

def Call.scale (c : Call) : Nat := max (min (c.winW / c.cw) (c.winH / c.ch)) 1

def Call.outW (c : Call) : Nat := usize (c.cw * c.scale)

def Call.outH (c : Call) : Nat := usize (c.ch * c.scale)

def Call.offX (c : Call) : Int := (i32 (i32 c.winW - i32 c.outW)).tdiv 2

def Call.offY (c : Call) : Int := (i32 (i32 c.winH - i32 c.outH)).tdiv 2

def Call.layout (c : Call) : Layout := (c.winW, c.winH, c.scale, c.offX, c.offY)

/-- The bars are painted when the layout changes. -/
def Present.layOut (p : Present) (layout : Layout) : Present :=
  if p.laidOut = some layout then p
  else { p with buf := p.buf.map fun _ => 0, laidOut := some layout }

/-- One pixel of the scale loop, where `row` starts the window row and `sy` is the frame's row. -/
def Call.paintPixel (c : Call) (row sy x : Nat) (buf : List UInt32) : List UInt32 :=
  let pxOut := i32 (c.offX + i32 x)
  if pxOut < 0 || pxOut ≥ i32 c.winW then buf
  else buf.set (row + pxOut.toNat) (c.src.getD (sy * c.cw + x / c.scale) 0)

def Call.paintRow (c : Call) (y : Nat) (buf : List UInt32) : List UInt32 :=
  let py := i32 (c.offY + i32 y)
  if py < 0 || py ≥ i32 c.winH then buf
  else
    let sy := y / c.scale
    let row := usize (py.toNat * c.winW)
    (List.range c.outW).foldl (fun buf x => c.paintPixel row sy x buf) buf

def Call.paint (c : Call) (buf : List UInt32) : List UInt32 :=
  (List.range c.outH).foldl (fun buf y => c.paintRow y buf) buf

def Present.compose (p : Present) (c : Call) : Present :=
  if !c.presented then p
  else
    let p := (p.fit (usize (c.winW * c.winH))).layOut c.layout
    { p with scale := c.scale, offX := c.offX, offY := c.offY, buf := c.paint p.buf }

end BetLang.Presenting
