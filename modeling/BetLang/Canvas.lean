import BetLang.Present

/-! The compositor canvas: the calls that size it, draw on it and present it. -/

namespace BetLang.Compositor

open Presenting (Present)

/-- What stops a drawing routine: an index out of range, or coordinates that leave `i32`. -/
inductive Fault where
  | index
  | overflow
  deriving DecidableEq, Repr

abbrev Canvas := List UInt32

structure Texture where
  w : UInt32
  h : UInt32
  px : List UInt32
  deriving DecidableEq, Repr

structure GgState where
  canvas : Canvas
  canvasW : UInt32
  canvasH : UInt32
  textures : List Texture
  present : Present
  deriving DecidableEq, Repr

def GgState.new : GgState := ⟨[], 0, 0, [], .new⟩

def asI32 (n : UInt32) : Int := n.toInt32.toInt

def checkI32 (n : Int) : Except Fault Int :=
  if -2 ^ 31 ≤ n ∧ n < 2 ^ 31 then .ok n else .error .overflow

def saturatingAdd (a b : Int) : Int := max (-2 ^ 31) (min (a + b) (2 ^ 31 - 1))

/-- `for i in lo..hi` over the canvas. -/
def loop (lo hi : Int) (body : Int → Canvas → Except Fault Canvas) (canvas : Canvas) :
    Except Fault Canvas :=
  (List.range (hi - lo).toNat).foldlM (fun canvas (i : Nat) => body (lo + i) canvas) canvas

def setAt (canvas : Canvas) (di : Nat) (value : UInt32 → UInt32) : Except Fault Canvas :=
  match canvas[di]? with
  | none => .error .index
  | some dst => .ok (canvas.set di (value dst))

/-- Pixel `i` of an upload, premultiplied; missing channels are zero. -/
def premultiplied (rgba : List UInt8) (i : Nat) : UInt32 :=
  let channel := fun (k : Nat) => (rgba.getD (i * 4 + k) 0).toUInt32
  let a := channel 3
  (a <<< 24) ||| ((channel 0 * a / 255) <<< 16) ||| ((channel 1 * a / 255) <<< 8) |||
    (channel 2 * a / 255)

def GgState.tex (s : GgState) (rgba : List UInt8) (w h : UInt32) : GgState :=
  if w = 0 ∨ h = 0 then s
  else
    let px := (List.range (w.toNat * h.toNat)).map (premultiplied rgba)
    { s with textures := s.textures ++ [⟨w, h, px⟩] }

/-- The canvas is resized if needed, and cleared. -/
def GgState.frame (s : GgState) (w h clearArgb : UInt32) : GgState :=
  let n := w.toNat * h.toNat
  let s :=
    if s.canvasW ≠ w ∨ s.canvasH ≠ h ∨ s.canvas.length ≠ n then
      { s with canvas := List.replicate n 0, canvasW := w, canvasH := h }
    else s
  { s with canvas := s.canvas.map fun _ => clearArgb &&& 0x00FFFFFF }

/-- Premultiplied src-over. -/
def blend (src dst : UInt32) : UInt32 :=
  let a : UInt32 := src >>> 24
  let inv := 255 - a
  let channel := fun (shift : UInt32) =>
    ((src >>> shift) &&& 0xFF) + ((dst >>> shift) &&& 0xFF) * inv / 255
  (channel 16 <<< 16) ||| (channel 8 <<< 8) ||| channel 0

/-- One source pixel, drawn at `(x, y)`; a transparent one leaves the canvas alone. -/
def blitPixel (t : Texture) (cwu : Nat) (sxi syi x y : Int) (canvas : Canvas) : Except Fault Canvas :=
  match t.px[syi.toNat * t.w.toNat + sxi.toNat]? with
  | none => .error .index
  | some src =>
    if src >>> 24 = 0 then .ok canvas else setAt canvas (y.toNat * cwu + x.toNat) (blend src)

/-- A destination coordinate off the canvas is skipped. -/
def onCanvas (coordinate : Except Fault Int) (size : Int) (draw : Int → Canvas → Except Fault Canvas)
    (canvas : Canvas) : Except Fault Canvas :=
  match coordinate with
  | .error fault => .error fault
  | .ok at_ => if at_ < 0 ∨ at_ ≥ size then .ok canvas else draw at_ canvas

/-- `d + (si - s)`, where the source coordinate `si` is drawn. -/
def target (d si s : Int) : Except Fault Int := (checkI32 (si - s)).bind fun r => checkI32 (d + r)

def GgState.blitSub (s : GgState) (tex : UInt32) (sx sy sw sh dx dy : Int) : Except Fault GgState :=
  if tex = 0 ∨ tex.toNat > s.textures.length then .ok s
  else
    match s.textures[tex.toNat - 1]? with
    | none => .error .index
    | some t =>
      let sx1 := min (saturatingAdd sx sw) (asI32 t.w)
      let sy1 := min (saturatingAdd sy sh) (asI32 t.h)
      let draw := loop (max sy 0) sy1 fun syi =>
        onCanvas (target dy syi sy) (asI32 s.canvasH) fun y =>
          loop (max sx 0) sx1 fun sxi =>
            onCanvas (target dx sxi sx) (asI32 s.canvasW) fun x =>
              blitPixel t s.canvasW.toNat sxi syi x y
      (draw s.canvas).map fun canvas => { s with canvas := canvas }

def GgState.sprite (s : GgState) (tex : UInt32) (dx dy : Int32) : Except Fault GgState :=
  match s.textures[(tex - 1).toNat]? with
  | none => .ok s
  | some t => s.blitSub tex 0 0 (asI32 t.w) (asI32 t.h) dx.toInt dy.toInt

def GgState.spriteSub (s : GgState) (tex : UInt32) (sx sy : Int32) (sw sh : UInt32)
    (dx dy : Int32) : Except Fault GgState :=
  s.blitSub tex sx.toInt sy.toInt (asI32 sw) (asI32 sh) dx.toInt dy.toInt

/-- Straight src-over. -/
def fill (argb dst : UInt32) : UInt32 :=
  let a : UInt32 := argb >>> 24
  let inv := 255 - a
  let channel := fun (shift : UInt32) =>
    (((argb >>> shift) &&& 0xFF) * a + ((dst >>> shift) &&& 0xFF) * inv) / 255
  if a = 255 then argb &&& 0x00FFFFFF
  else (channel 16 <<< 16) ||| (channel 8 <<< 8) ||| channel 0

def GgState.rect (s : GgState) (dx dy : Int32) (w h argb : UInt32) : Except Fault GgState :=
  if argb >>> 24 = 0 then .ok s
  else
    let draw := loop 0 (asI32 h) fun ry =>
      onCanvas (checkI32 (dy.toInt + ry)) (asI32 s.canvasH) fun y =>
        loop 0 (asI32 w) fun rx =>
          onCanvas (checkI32 (dx.toInt + rx)) (asI32 s.canvasW) fun x canvas =>
            setAt canvas (y.toNat * s.canvasW.toNat + x.toNat) (fill argb)
    (draw s.canvas).map fun canvas => { s with canvas := canvas }

/-- Nothing is presented while the canvas does not have the logical size. -/
def GgState.flush (s : GgState) (winW winH : Nat) : GgState :=
  let cw := s.canvasW.toNat
  let ch := s.canvasH.toNat
  if cw = 0 ∨ ch = 0 ∨ s.canvas.length ≠ cw * ch then s
  else { s with present := s.present.compose ⟨s.canvas, cw, ch, winW, winH⟩ }

/-- The shown frame's size becomes the logical size. -/
def GgState.show (s : GgState) (buf : List UInt32) (w h : UInt32) (winW winH : Nat) : GgState :=
  if w = 0 ∨ h = 0 then s
  else
    { s with
      canvasW := w, canvasH := h
      present := s.present.compose ⟨buf, w.toNat, h.toNat, winW, winH⟩ }

/-- A `gg` call; the window's size is the one it has by then. -/
inductive Call where
  | tex (rgba : List UInt8) (w h : UInt32)
  | frame (w h clearArgb : UInt32)
  | sprite (tex : UInt32) (dx dy : Int32)
  | spriteSub (tex : UInt32) (sx sy : Int32) (sw sh : UInt32) (dx dy : Int32)
  | rect (dx dy : Int32) (w h argb : UInt32)
  | flush (winW winH : Nat)
  | show (buf : List UInt32) (w h : UInt32) (winW winH : Nat)

def GgState.step (s : GgState) : Call → Except Fault GgState
  | .tex rgba w h => .ok (s.tex rgba w h)
  | .frame w h clearArgb => .ok (s.frame w h clearArgb)
  | .sprite tex dx dy => s.sprite tex dx dy
  | .spriteSub tex sx sy sw sh dx dy => s.spriteSub tex sx sy sw sh dx dy
  | .rect dx dy w h argb => s.rect dx dy w h argb
  | .flush winW winH => .ok (s.flush winW winH)
  | .show buf w h winW winH => .ok (s.show buf w h winW winH)

def GgState.run (s : GgState) (calls : List Call) : Except Fault GgState :=
  calls.foldlM GgState.step s

end BetLang.Compositor
