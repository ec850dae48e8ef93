import BetLang.Letterbox
import Mathlib.Tactic.Ring

/-! The mouse position in pixels of the canvas, against the picture in the window. -/

namespace BetLang.Presenting

/-- `i32` division; none is a panic. -/
def divI32 (a b : Int) : Option Int :=
  if b = 0 ∨ (a = -2 ^ 31 ∧ b = -1) then none else some (a.tdiv b)

def clamp (n lo hi : Int) : Int := if n < lo then lo else if hi < n then hi else n

/-- The position of the mouse for the window coordinates `mx` and `my`, on a canvas of the given
size. -/
def Present.mouse (p : Present) (canvasW canvasH : Nat) (mx my : Int) : Option (Int × Int) := do
  let scale := i32 (max p.scale 1 : Nat)
  let lx ← divI32 (i32 (mx - p.offX)) scale
  let ly ← divI32 (i32 (my - p.offY)) scale
  let maxX := max (i32 (i32 canvasW - 1)) 0
  let maxY := max (i32 (i32 canvasH - 1)) 0
  return (clamp lx 0 maxX, clamp ly 0 maxY)

/-- The scale loop writes the frame's pixel `sx`, `sy` to the pixel of the window. -/
def Call.Draws (c : Call) (px py sx sy : Nat) : Prop :=
  ∃ y < c.outH, ∃ x < c.outW,
    (i32 (c.offY + i32 y) = py ∧ (py : Int) < i32 c.winH ∧ sy = y / c.scale) ∧
      i32 (c.offX + i32 x) = px ∧ (px : Int) < i32 c.winW ∧ sx = x / c.scale

/-- How far the coordinate `p` is from the `scale` window pixels of the logical pixel `j`. -/
def gap (start : Int) (scale : Nat) (p : Int) (j : Nat) : Int :=
  max (max (start + j * scale - p) (p - (start + j * scale + scale - 1))) 0

def Nearest (start : Int) (scale size : Nat) (p : Int) (l : Nat) : Prop :=
  l < size ∧ ∀ j < size, gap start scale p l ≤ gap start scale p j

/-- In the picture that `compose` leaves, the mouse is over the pixel of the frame that is drawn
there, and beside the frame over the nearest one. -/
structure Inverts (p : Present) (c : Call) : Prop where
  drawn : ∀ px < c.winW, ∀ py < c.winH, ∀ sx sy : Nat, c.Draws px py sx sy →
    (p.compose c).mouse c.cw c.ch px py = some ((sx : Int), (sy : Int)) ∧
      (p.compose c).buf[py * c.winW + px]? = c.src[sy * c.cw + sx]?
  bars : ∀ px < c.winW, ∀ py < c.winH, (∀ sx sy, ¬c.Draws px py sx sy) →
    ∃ lx ly : Nat, (p.compose c).mouse c.cw c.ch px py = some ((lx : Int), (ly : Int)) ∧
      Nearest c.left c.scale c.cw px lx ∧ Nearest c.top c.scale c.ch py ly
  inside : ∀ px < c.winW, ∀ py < c.winH, ∃ lx < c.cw, ∃ ly < c.ch,
    (p.compose c).mouse c.cw c.ch px py = some ((lx : Int), (ly : Int))

section Axis

variable {start p : Int} {scale size : Nat}

/-- The logical coordinate of `p`. -/
def logical (start : Int) (scale size : Nat) (p : Int) : Int :=
  clamp ((p - start).tdiv scale) 0 (size - 1)

theorem logical_before (h : p < start) (hsize : 0 < size) : logical start scale size p = 0 := by
  have hquot : (p - start).tdiv scale ≤ 0 := by
    have hneg : (p - start).tdiv scale = -((start - p).tdiv scale) := by
      rw [← Int.neg_tdiv, Int.neg_sub]
    have hnonneg : 0 ≤ (start - p).tdiv scale :=
      Int.tdiv_nonneg (by omega) (Int.natCast_nonneg scale)
    omega
  rw [logical, clamp]
  split
  · rfl
  · rw [if_neg (by omega)]
    omega

/-- From the start on, the logical coordinate is the index of the pixel, up to the last one. -/
theorem logical_from (hle : start ≤ p) (hsize : 0 < size) :
    logical start scale size p = (min ((p - start).toNat / scale) (size - 1) : Nat) := by
  obtain ⟨d, hd⟩ : ∃ d : Nat, p - start = d := ⟨(p - start).toNat, by omega⟩
  rw [logical, hd, Int.toNat_natCast, Int.tdiv_eq_ediv_of_nonneg (by omega), ← Int.natCast_ediv]
  generalize d / scale = q
  rw [clamp, if_neg (by omega)]
  split
  · omega
  · omega

theorem gap_nonneg (start : Int) (scale : Nat) (p : Int) (j : Nat) : 0 ≤ gap start scale p j :=
  Int.le_max_right ..

theorem logical_inside (hle : start ≤ p) (hlt : p < start + (size * scale : Nat)) :
    logical start scale size p = ((p - start).toNat / scale : Nat) := by
  have hlt' : (p - start).toNat < scale * size := by
    rw [Nat.mul_comm]
    omega
  have hquot : (p - start).toNat / scale < size := Nat.div_lt_of_lt_mul hlt'
  rw [logical_from hle (Nat.zero_lt_of_lt hquot), Nat.min_eq_left (Nat.le_sub_one_of_lt hquot)]

theorem nearest_logical (start p : Int) (hscale : 0 < scale) (hsize : 0 < size) :
    ∃ l : Nat, logical start scale size p = l ∧ Nearest start scale size p l := by
  by_cases hbefore : p < start
  · refine ⟨0, logical_before hbefore hsize, hsize, fun j _ => ?_⟩
    have hmul : 0 ≤ (j : Int) * scale := Int.mul_nonneg (by omega) (by omega)
    simp only [gap, Int.natCast_zero, Int.zero_mul]
    omega
  · refine ⟨_, logical_from (by omega) hsize, ?_, fun j hj => ?_⟩
    · omega
    · obtain ⟨d, hd⟩ : ∃ d : Nat, p - start = d := ⟨(p - start).toNat, by omega⟩
      have hlow : d / scale * scale ≤ d := Nat.div_mul_le_self d scale
      have hhigh : d < d / scale * scale + scale := Nat.lt_div_mul_add hscale
      rw [hd, Int.toNat_natCast]
      by_cases hin : d / scale ≤ size - 1
      · have hzero : gap start scale p (d / scale : Nat) = 0 := by
          simp only [gap]
          omega
        rw [Nat.min_eq_left hin, hzero]
        exact gap_nonneg ..
      · have hlast : (size - 1) * scale + scale ≤ d := by
          have hmul : (size - 1 + 1) * scale ≤ d / scale * scale :=
            Nat.mul_le_mul_right scale (by omega)
          rw [Nat.add_mul, Nat.one_mul] at hmul
          omega
        have hmono : j * scale ≤ (size - 1) * scale := Nat.mul_le_mul_right scale (by omega)
        rw [Nat.min_eq_right (by omega)]
        simp only [gap]
        omega

end Axis

section Mouse

variable {c : Call} {p : Present} {px py sx sy : Nat}

theorem presented_pos (hpres : c.presented = true) : 0 < c.cw ∧ 0 < c.ch := by
  simp only [Call.presented, Bool.not_eq_true', Bool.or_eq_false_iff, beq_eq_false_iff_ne] at hpres
  omega

theorem presented_length (h : c.Small) (hpres : c.presented = true) :
    c.cw * c.ch ≤ c.src.length := by
  have hmul := Nat.mul_le_mul (Nat.le_of_lt h.cw) (Nat.le_of_lt h.ch)
  simp only [Call.presented, Bool.not_eq_true', Bool.or_eq_false_iff, decide_eq_false_iff_not,
    Nat.not_lt, usize_eq (Nat.lt_of_le_of_lt hmul (by decide))] at hpres
  exact hpres.2

theorem scale_pos (c : Call) : 0 < c.scale := Nat.le_max_right ..

theorem scale_lt (h : c.Small) (hpres : c.presented = true) : c.scale < 2 ^ 31 := by
  have hout := h.outW
  have hle := Nat.le_mul_of_pos_left c.scale (presented_pos hpres).1
  omega

/-- The way from the edge of the frame to a pixel of the window fits. -/
theorem distance_bounds {win out x : Nat} (hwin : win < 2 ^ 31) (hout : out < 2 ^ 31)
    (hx : x < win) : -2 ^ 31 < (x : Int) - ((win : Int) - out).tdiv 2 ∧
      (x : Int) - ((win : Int) - out).tdiv 2 < 2 ^ 31 := by
  obtain ⟨hpos, hneg⟩ := @tdiv_two ((win : Int) - out)
  omega

theorem divI32_scale {n : Int} {scale : Nat} (hscale : 0 < scale) :
    divI32 n scale = some (n.tdiv scale) := by
  rw [divI32, if_neg (by omega)]

theorem last_eq {size : Nat} (hsize : 0 < size) (hlt : size < 2 ^ 31) :
    max (i32 (i32 size - 1)) 0 = (size : Int) - 1 := by
  have hcast : i32 size = size := i32_eq (by omega) (by omega)
  have hpred : i32 ((size : Int) - 1) = size - 1 := i32_eq (by omega) (by omega)
  rw [hcast, hpred]
  omega

theorem compose_layout (p : Present) (hpres : c.presented = true) :
    (p.compose c).scale = c.scale ∧ (p.compose c).offX = c.offX ∧ (p.compose c).offY = c.offY := by
  have hskip : ¬(!c.presented) = true := by simp [hpres]
  simp only [Present.compose, if_neg hskip, and_self]

/-- With small sizes the mouse is in exact arithmetic. -/
theorem mouse_eq (h : c.Small) (hpres : c.presented = true) (hpx : px < c.winW)
    (hpy : py < c.winH) : (p.compose c).mouse c.cw c.ch px py =
      some (logical c.left c.scale c.cw px, logical c.top c.scale c.ch py) := by
  obtain ⟨hcw, hch⟩ := presented_pos hpres
  have hpos := scale_pos c
  have hlt := scale_lt h hpres
  have hone : i32 (max c.scale 1 : Nat) = c.scale := by
    rw [Nat.max_eq_left hpos]
    exact i32_eq (by omega) (by omega)
  have hxb : -2 ^ 31 < (px : Int) - c.left ∧ (px : Int) - c.left < 2 ^ 31 :=
    distance_bounds h.winW h.outW hpx
  have hyb : -2 ^ 31 < (py : Int) - c.top ∧ (py : Int) - c.top < 2 ^ 31 :=
    distance_bounds h.winH h.outH hpy
  have hx : i32 ((px : Int) - c.left) = px - c.left := i32_eq (by omega) (by omega)
  have hy : i32 ((py : Int) - c.top) = py - c.top := i32_eq (by omega) (by omega)
  obtain ⟨hscale, hoffX, hoffY⟩ := compose_layout p hpres
  rw [offX_eq h] at hoffX
  rw [offY_eq h] at hoffY
  simp only [Present.mouse, hscale, hoffX, hoffY, hone, hx, hy, divI32_scale hpos,
    last_eq hcw h.cw, last_eq hch h.ch, Option.bind_eq_bind, Option.bind_some, logical]
  rfl

/-- The pixels that are drawn are those of the destination rectangle. -/
theorem draws_iff (h : c.Small) (hpx : px < c.winW) (hpy : py < c.winH) :
    c.Draws px py sx sy ↔ c.InDest px py ∧ sx = (px - c.left).toNat / c.scale ∧
      sy = (py - c.top).toNat / c.scale := by
  have hwinW : i32 c.winW = c.winW := i32_eq (by omega) (by have := h.winW; omega)
  have hwinH : i32 c.winH = c.winH := i32_eq (by omega) (by have := h.winH; omega)
  have houtW := outW_eq h
  have houtH := outH_eq h
  constructor
  · rintro ⟨y, hy, x, hx, ⟨hpy', _, rfl⟩, hpx', _, rfl⟩
    rw [i32_y h hy] at hpy'
    rw [i32_x h hx] at hpx'
    have hxs : ((px : Int) - c.left).toNat = x := by omega
    have hys : ((py : Int) - c.top).toNat = y := by omega
    rw [hxs, hys]
    exact ⟨⟨by omega, by omega⟩, rfl, rfl⟩
  · rintro ⟨⟨⟨hleft, hright⟩, htop, hbottom⟩, rfl, rfl⟩
    have hx : ((px : Int) - c.left).toNat < c.outW := by omega
    have hy : ((py : Int) - c.top).toNat < c.outH := by omega
    refine ⟨_, hy, _, hx, ⟨?_, by omega, rfl⟩, ?_, by omega, rfl⟩
    · rw [i32_y h hy]
      omega
    · rw [i32_x h hx]
      omega

/-- With sides below `2 ^ 31` the mouse inverts the presentation. -/
theorem mouse_inverts (p : Present) (h : c.Small) (hpres : c.presented = true) :
    Inverts p c := by
  obtain ⟨hcw, hch⟩ := presented_pos hpres
  have hpos := scale_pos c
  constructor
  case drawn =>
    intro px hpx py hpy sx sy hdraws
    obtain ⟨hin, rfl, rfl⟩ := (draws_iff h hpx hpy).mp hdraws
    have hindex := upscaled_index_lt (presented_length h hpres) hin
    constructor
    · rw [mouse_eq h hpres hpx hpy, logical_inside hin.1.1 hin.1.2, logical_inside hin.2.1 hin.2.2]
    · rw [(compose_presented hpres).1, paint_pixel h (ground_length h p) hpx hpy, if_pos hin,
        Call.upscaled, List.getD_eq_getElem?_getD,
        List.getElem?_eq_getElem hindex, Option.getD_some]
  case bars =>
    intro px hpx py hpy _
    obtain ⟨lx, hlx, hnearx⟩ := nearest_logical c.left px hpos hcw
    obtain ⟨ly, hly, hneary⟩ := nearest_logical c.top py hpos hch
    exact ⟨lx, ly, by rw [mouse_eq h hpres hpx hpy, hlx, hly], hnearx, hneary⟩
  case inside =>
    intro px hpx py hpy
    obtain ⟨lx, hlx, hnearx, _⟩ := nearest_logical c.left px hpos hcw
    obtain ⟨ly, hly, hneary, _⟩ := nearest_logical c.top py hpos hch
    exact ⟨lx, hnearx, ly, hneary, by rw [mouse_eq h hpres hpx hpy, hlx, hly]⟩

/-- A frame of three pixels in a window of eight: two window pixels for each and a bar of one. -/
theorem mouse_inverts_three : Inverts Present.new ⟨[7, 8, 9], 3, 1, 8, 2⟩ :=
  mouse_inverts Present.new ⟨by decide, by decide, by decide, by decide⟩ (by decide)

/-- The width of this frame is `-2` as an `i32`. -/
def wideFrame : Call := ⟨List.replicate (2 ^ 32 - 2) 0, 2 ^ 32 - 2, 1, 10, 1⟩

/-- The frame's second pixel is drawn at the window's eighth, where the mouse is at the first. -/
theorem wide_frame_not_inverted : ¬∀ p c, c.presented = true → Inverts p c := by
  intro hall
  have hpres : wideFrame.presented = true := by
    have hlen : wideFrame.src.length = 2 ^ 32 - 2 := List.length_replicate
    simp only [Call.presented, hlen]
    decide
  have hdraws : wideFrame.Draws 7 0 1 0 := by
    refine ⟨0, by decide, 1, by decide, ⟨by decide, by decide, by decide⟩, by decide, by decide, ?_⟩
    decide
  obtain ⟨hmouse, _⟩ :=
    (hall Present.new wideFrame hpres).drawn 7 (by decide) 0 (by decide) 1 0 hdraws
  obtain ⟨hscale, hoffX, hoffY⟩ := compose_layout Present.new hpres
  rw [Present.mouse, hscale, hoffX, hoffY] at hmouse
  exact absurd hmouse (by decide)

end Mouse

end BetLang.Presenting
