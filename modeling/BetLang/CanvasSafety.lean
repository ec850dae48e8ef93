import BetLang.Canvas
import BetLang.Sequencing

/-! Which sequences of calls keep the canvas at its logical size, stay inside the canvas and the
textures, and change only what they draw on. -/

namespace BetLang.Compositor

open Painting

section Coordinates

theorem checkI32_ok {n : Int} (h : -2 ^ 31 ≤ n) (h' : n < 2 ^ 31) : checkI32 n = .ok n :=
  if_pos ⟨h, h'⟩

theorem asI32_eq (n : UInt32) : asI32 n = if n.toNat < 2 ^ 31 then (n.toNat : Int) else n.toNat - 2 ^ 32 := by
  show n.toBitVec.toInt = _
  rw [BitVec.toInt_eq_toNat_cond]
  show (if 2 * n.toNat < 2 ^ 32 then _ else _) = _
  split
  · rw [if_pos (by omega)]
    rfl
  · rw [if_neg (by omega)]
    rfl

theorem asI32_lt (n : UInt32) : asI32 n < 2 ^ 31 := by
  have hlt : n.toNat < 2 ^ 32 := n.toNat_lt
  rw [asI32_eq]
  split
  · omega
  · omega

/-- A coordinate below a cast size is below the size. -/
theorem toNat_lt {i : Int} {size : UInt32} (h0 : 0 ≤ i) (h : i < asI32 size) :
    i.toNat < size.toNat := by
  have hlt : size.toNat < 2 ^ 32 := size.toNat_lt
  rw [asI32_eq] at h
  split at h
  · omega
  · omega

/-- The coordinates `lo..hi`, drawn at a distance `d - s`, stay in `i32`. -/
def Fits (d s lo hi : Int) : Prop := lo < hi → d + (hi - s) ≤ 2 ^ 31

/-- One of them is on the canvas. -/
def Visible (d s lo hi size : Int) : Prop :=
  ∃ i, lo ≤ i ∧ i < hi ∧ 0 ≤ d + (i - s) ∧ d + (i - s) < size

/-- Clipping keeps the distance from the start of the source below its length. -/
theorem source_lt {s len i limit : Int} (hlen : len < 2 ^ 31) (hi : max s 0 ≤ i)
    (hi' : i < min (saturatingAdd s len) limit) (hlimit : limit < 2 ^ 31) : i - s < 2 ^ 31 := by
  unfold saturatingAdd at hi'
  omega

theorem target_ok {d s i lo hi : Int} (hd : -2 ^ 31 ≤ d) (hlo : s ≤ lo) (hi' : lo ≤ i) (hhi : i < hi)
    (hsub : i - s < 2 ^ 31) (hfits : Fits d s lo hi) : target d i s = .ok (d + (i - s)) := by
  have hbound := hfits (Int.lt_of_le_of_lt hi' hhi)
  unfold target
  rw [checkI32_ok (by omega) hsub]
  exact checkI32_ok (by omega) (by omega)

end Coordinates

section Routines

variable {n : Nat} {area : Nat → Prop}

theorem draws_setAt {di : Nat} {value : UInt32 → UInt32} (hdi : di < n) (harea : area di) :
    Draws (setAt · di value) n area := by
  intro canvas hlen
  have hget : canvas[di]? = some canvas[di] := List.getElem?_eq_getElem (hlen ▸ hdi)
  refine ⟨canvas.set di (value canvas[di]), ?_, List.length_set.trans hlen, fun i hi => ?_⟩
  · simp only [setAt, hget]
  · refine List.getElem?_set_ne fun heq : di = i => hi ?_
    rw [← heq]
    exact harea

theorem draws_range {lo hi : Int} {body : Int → Canvas → Except Fault Canvas}
    (h : ∀ i, lo ≤ i → i < hi → Draws (body i) n area) : Draws (loop lo hi body) n area := by
  refine draws_loop fun k hk => h _ (by omega) ?_
  rw [List.mem_range] at hk
  omega

theorem draws_onCanvas {at_ size : Int} {draw : Int → Canvas → Except Fault Canvas}
    (h : 0 ≤ at_ → at_ < size → Draws (draw at_) n area) :
    Draws (onCanvas (.ok at_) size draw) n area := by
  intro canvas hlen
  unfold onCanvas
  dsimp only
  by_cases hout : at_ < 0 ∨ at_ ≥ size
  · rw [if_pos hout]
    exact draws_nothing canvas hlen
  · rw [if_neg hout]
    exact h (by omega) (by omega) canvas hlen

theorem draws_bind {state : Canvas → GgState} {draw : Canvas → Except Fault Canvas}
    (h : Draws draw n area) {canvas : Canvas} (hlen : canvas.length = n) :
    ∃ canvas', (draw canvas).map state = .ok (state canvas') ∧ canvas'.length = n ∧
      ∀ i, ¬area i → canvas'[i]? = canvas[i]? := by
  obtain ⟨canvas', hok, hlen', hkept⟩ := h canvas hlen
  exact ⟨canvas', by rw [hok]; rfl, hlen', hkept⟩

/-- The pixel is in the rectangle of `w * h` pixels at `(dx, dy)`. -/
def InRect (dx dy w h : Int) (x y : Int) : Prop := (dx ≤ x ∧ x < dx + w) ∧ dy ≤ y ∧ y < dy + h

/-- The cells of the canvas that are in the rectangle. -/
def Cells (cw ch : Nat) (rect : Int → Int → Prop) (i : Nat) : Prop :=
  ∃ px < cw, ∃ py < ch, rect px py ∧ i = py * cw + px

theorem cells_at {cw ch : UInt32} (rect : Int → Int → Prop) {x y : Int} (hx : 0 ≤ x)
    (hx' : x < asI32 cw) (hy : 0 ≤ y) (hy' : y < asI32 ch) (hin : rect x y) :
    Cells cw.toNat ch.toNat rect (y.toNat * cw.toNat + x.toNat) := by
  refine ⟨x.toNat, toNat_lt hx hx', y.toNat, toNat_lt hy hy', ?_, rfl⟩
  rw [Int.toNat_of_nonneg hx, Int.toNat_of_nonneg hy]
  exact hin

theorem cells_lt {cw ch : Nat} {rect : Int → Int → Prop} {i : Nat} (h : Cells cw ch rect i) :
    i < cw * ch := by
  obtain ⟨px, hpx, py, hpy, _, rfl⟩ := h
  exact index_lt hpx hpy

/-- The coordinates of the rectangle stay in `i32`: the rows, and the columns if a row is drawn. -/
def RectFits (s : GgState) (dx dy : Int32) (w h argb : UInt32) : Prop :=
  argb >>> 24 = 0 ∨ Fits dy.toInt 0 0 (asI32 h) ∧
    (Visible dy.toInt 0 0 (asI32 h) (asI32 s.canvasH) → Fits dx.toInt 0 0 (asI32 w))

theorem asI32_le (n : UInt32) : asI32 n ≤ n.toNat := by
  rw [asI32_eq]
  split
  · exact Int.le_refl _
  · omega

theorem int32_lower (d : Int32) : -2 ^ 31 ≤ d.toInt := Int32.le_toInt d

/-- `0..len` at a distance `d`. -/
theorem checkI32_offset {d r len : Int} (hd : -2 ^ 31 ≤ d) (hr : 0 ≤ r) (hr' : r < len)
    (hfits : Fits d 0 0 len) : checkI32 (d + r) = .ok (d + r) := by
  have hbound := hfits (Int.lt_of_le_of_lt hr hr')
  exact checkI32_ok (by omega) (by omega)

theorem draws_rect {s : GgState} {dx dy : Int32} {w h argb : UInt32}
    (hlen : s.canvas.length = s.canvasW.toNat * s.canvasH.toNat)
    (hfits : RectFits s dx dy w h argb) :
    ∃ canvas, s.rect dx dy w h argb = .ok { s with canvas := canvas } ∧
      canvas.length = s.canvasW.toNat * s.canvasH.toNat ∧
      ∀ i, ¬Cells s.canvasW.toNat s.canvasH.toNat (InRect dx.toInt dy.toInt w.toNat h.toNat) i →
        canvas[i]? = s.canvas[i]? := by
  unfold GgState.rect
  by_cases hclear : argb >>> 24 = 0
  · exact ⟨s.canvas, if_pos hclear, hlen, fun _ _ => rfl⟩
  · rw [if_neg hclear]
    obtain ⟨hrows, hcols⟩ := hfits.resolve_left hclear
    refine draws_bind (draws_range fun ry hry hry' => ?_) hlen
    rw [checkI32_offset (int32_lower dy) hry hry' hrows]
    refine draws_onCanvas fun hy hy' => draws_range fun rx hrx hrx' => ?_
    have hvisible : Visible dy.toInt 0 0 (asI32 h) (asI32 s.canvasH) :=
      ⟨ry, hry, hry', by omega, by omega⟩
    rw [checkI32_offset (int32_lower dx) hrx hrx' (hcols hvisible)]
    refine draws_onCanvas fun hx hx' => ?_
    have hcell := cells_at (InRect dx.toInt dy.toInt w.toNat h.toNat) hx hx' hy hy' ?_
    · exact draws_setAt (cells_lt hcell) hcell
    · have hw := asI32_le w
      have hh := asI32_le h
      exact ⟨⟨by omega, by omega⟩, by omega, by omega⟩

/-- A texture has its pixels. -/
def Texture.Whole (t : Texture) : Prop := t.px.length = t.w.toNat * t.h.toNat

/-- The rows and columns of the texture that a blit reads. -/
def BlitFits (s : GgState) (t : Texture) (sx sy sw sh dx dy : Int) : Prop :=
  Fits dy sy (max sy 0) (min (saturatingAdd sy sh) (asI32 t.h)) ∧
    (Visible dy sy (max sy 0) (min (saturatingAdd sy sh) (asI32 t.h)) (asI32 s.canvasH) →
      Fits dx sx (max sx 0) (min (saturatingAdd sx sw) (asI32 t.w)))

theorem draws_blitPixel {t : Texture} (ht : t.Whole) {cwu : Nat} {sxi syi x y : Int}
    (hsx : 0 ≤ sxi) (hsx' : sxi < asI32 t.w) (hsy : 0 ≤ syi) (hsy' : syi < asI32 t.h)
    (hdi : y.toNat * cwu + x.toNat < n) (harea : area (y.toNat * cwu + x.toNat)) :
    Draws (blitPixel t cwu sxi syi x y) n area := by
  have hidx : syi.toNat * t.w.toNat + sxi.toNat < t.px.length := by
    rw [ht]
    exact index_lt (toNat_lt hsx hsx') (toNat_lt hsy hsy')
  intro canvas hlen
  simp only [blitPixel, List.getElem?_eq_getElem hidx]
  split
  · exact draws_nothing canvas hlen
  · exact draws_setAt hdi harea canvas hlen

theorem draws_blitSub {s : GgState} {tex : UInt32} (sx sy : Int) {sw sh dx dy : Int}
    (hwhole : ∀ t ∈ s.textures, t.Whole)
    (hlen : s.canvas.length = s.canvasW.toNat * s.canvasH.toNat)
    (hsw : sw < 2 ^ 31) (hsh : sh < 2 ^ 31) (hdx : -2 ^ 31 ≤ dx) (hdy : -2 ^ 31 ≤ dy)
    (hfits : tex ≠ 0 → ∀ t, s.textures[tex.toNat - 1]? = some t → BlitFits s t sx sy sw sh dx dy) :
    ∃ canvas, s.blitSub tex sx sy sw sh dx dy = .ok { s with canvas := canvas } ∧
      canvas.length = s.canvasW.toNat * s.canvasH.toNat ∧
      ∀ i, ¬Cells s.canvasW.toNat s.canvasH.toNat (InRect dx dy sw sh) i →
        canvas[i]? = s.canvas[i]? := by
  unfold GgState.blitSub
  by_cases hnone : tex = 0 ∨ tex.toNat > s.textures.length
  · exact ⟨s.canvas, if_pos hnone, hlen, fun _ _ => rfl⟩
  · rw [if_neg hnone]
    have hlt : tex.toNat - 1 < s.textures.length := by
      have hpos : tex.toNat ≠ 0 := fun h => hnone (.inl (UInt32.toNat_inj.mp h))
      omega
    obtain ⟨t, ht⟩ : ∃ t, s.textures[tex.toNat - 1]? = some t := ⟨_, List.getElem?_eq_getElem hlt⟩
    obtain ⟨hrows, hcols⟩ := hfits (fun h => hnone (.inl h)) t ht
    have htw := asI32_lt t.w
    have hth := asI32_lt t.h
    simp only [ht]
    refine draws_bind (draws_range fun syi hsy hsy' => ?_) hlen
    have hsub := source_lt hsh hsy hsy' hth
    rw [target_ok hdy (Int.le_max_left sy 0) hsy hsy' hsub hrows]
    refine draws_onCanvas fun hy hy' => draws_range fun sxi hsx hsx' => ?_
    have hsub' := source_lt hsw hsx hsx' htw
    rw [target_ok hdx (Int.le_max_left sx 0) hsx hsx' hsub' (hcols ⟨syi, hsy, hsy', hy, hy'⟩)]
    refine draws_onCanvas fun hx hx' => ?_
    have hcell := cells_at (InRect dx dy sw sh) hx hx' hy hy' ?_
    · refine draws_blitPixel (hwhole t (List.mem_of_getElem? ht)) ?_ ?_ ?_ ?_ (cells_lt hcell) hcell
      · omega
      · omega
      · omega
      · omega
    · unfold saturatingAdd at hsy' hsx'
      exact ⟨⟨by omega, by omega⟩, by omega, by omega⟩

end Routines

section Converse

theorem checkI32_inv {n m : Int} (h : checkI32 n = .ok m) : m = n ∧ n < 2 ^ 31 := by
  unfold checkI32 at h
  split at h
  · rename_i hin
    cases h
    exact ⟨rfl, hin.2⟩
  · cases h

theorem target_inv {d i s at_ : Int} (h : target d i s = .ok at_) :
    at_ = d + (i - s) ∧ at_ < 2 ^ 31 := by
  unfold target at h
  cases hsub : checkI32 (i - s) with
  | error fault =>
    rw [hsub] at h
    cases h
  | ok r =>
    rw [hsub] at h
    obtain ⟨rfl, _⟩ := checkI32_inv hsub
    obtain ⟨rfl, hlt⟩ := checkI32_inv h
    exact ⟨rfl, hlt⟩

theorem offset_inv {d r at_ : Int} (h : checkI32 (d + r) = .ok at_) :
    at_ = d + (r - 0) ∧ at_ < 2 ^ 31 := by
  obtain ⟨rfl, hlt⟩ := checkI32_inv h
  exact ⟨by omega, hlt⟩

theorem onCanvas_inv {coordinate : Except Fault Int} {size : Int}
    {draw : Int → Canvas → Except Fault Canvas} {canvas canvas' : Canvas}
    (h : onCanvas coordinate size draw canvas = .ok canvas') :
    ∃ at_, coordinate = .ok at_ ∧ (0 ≤ at_ → at_ < size → draw at_ canvas = .ok canvas') := by
  unfold onCanvas at h
  cases coordinate with
  | error fault => cases h
  | ok at_ =>
    refine ⟨at_, rfl, fun h0 hlt => ?_⟩
    dsimp only at h
    rw [if_neg (by omega)] at h
    exact h

/-- A loop over the coordinates of one axis that goes through has seen no overflow, and has drawn at
every coordinate on the canvas. -/
theorem fits_of_ok {d s lo hi size : Int} {coord : Int → Except Fault Int}
    {draw : Int → Int → Canvas → Except Fault Canvas} {canvas canvas' : Canvas}
    (hcoord : ∀ i at_, coord i = .ok at_ → at_ = d + (i - s) ∧ at_ < 2 ^ 31)
    (h : loop lo hi (fun i => onCanvas (coord i) size (draw i)) canvas = .ok canvas') :
    Fits d s lo hi ∧ ∀ i, lo ≤ i → i < hi → 0 ≤ d + (i - s) → d + (i - s) < size →
      ∃ before after, draw i (d + (i - s)) before = .ok after := by
  have hround : ∀ i, lo ≤ i → i < hi → ∃ before after at_, coord i = .ok at_ ∧
      (0 ≤ at_ → at_ < size → draw i at_ before = .ok after) := by
    intro i hlo hhi
    have hmem : (i - lo).toNat ∈ List.range (hi - lo).toNat := List.mem_range.mpr (by omega)
    obtain ⟨before, after, hok⟩ := ok_each h hmem
    rw [show lo + ((i - lo).toNat : Int) = i by omega] at hok
    obtain ⟨at_, hat, hdraw⟩ := onCanvas_inv hok
    exact ⟨before, after, at_, hat, hdraw⟩
  constructor
  · intro hlt
    obtain ⟨_, _, at_, hat, _⟩ := hround (hi - 1) (by omega) (by omega)
    have hbound := hcoord _ _ hat
    omega
  · intro i hlo hhi h0 hsize
    obtain ⟨before, after, at_, hat, hdraw⟩ := hround i hlo hhi
    obtain ⟨rfl, _⟩ := hcoord _ _ hat
    exact ⟨before, after, hdraw h0 hsize⟩

theorem rectFits_of_ok {s s' : GgState} {dx dy : Int32} {w h argb : UInt32}
    (hok : s.rect dx dy w h argb = .ok s') : RectFits s dx dy w h argb := by
  unfold GgState.rect at hok
  by_cases hclear : argb >>> 24 = 0
  · exact .inl hclear
  · rw [if_neg hclear] at hok
    obtain ⟨canvas, hrows, _⟩ := except_map_ok hok
    obtain ⟨hfits, hrow⟩ := fits_of_ok (fun _ _ => offset_inv) hrows
    refine .inr ⟨hfits, fun ⟨ry, hry, hry', hy, hy'⟩ => ?_⟩
    obtain ⟨_, _, hcols⟩ := hrow ry hry hry' hy hy'
    exact (fits_of_ok (fun _ _ => offset_inv) hcols).1

theorem blitFits_of_ok {s s' : GgState} {tex : UInt32} {sx sy sw sh dx dy : Int} {t : Texture}
    (htex : tex ≠ 0) (ht : s.textures[tex.toNat - 1]? = some t)
    (hok : s.blitSub tex sx sy sw sh dx dy = .ok s') : BlitFits s t sx sy sw sh dx dy := by
  have hlt := (List.getElem?_eq_some_iff.mp ht).1
  have hpos : tex.toNat ≠ 0 := fun h => htex (UInt32.toNat_inj.mp h)
  have hsome : ¬(tex = 0 ∨ tex.toNat > s.textures.length) := not_or.mpr ⟨htex, by omega⟩
  unfold GgState.blitSub at hok
  rw [if_neg hsome] at hok
  simp only [ht] at hok
  obtain ⟨canvas, hrows, _⟩ := except_map_ok hok
  obtain ⟨hfits, hrow⟩ := fits_of_ok (fun _ _ => target_inv) hrows
  refine ⟨hfits, fun ⟨syi, hsy, hsy', hy, hy'⟩ => ?_⟩
  obtain ⟨_, _, hcols⟩ := hrow syi hsy hsy' hy hy'
  exact (fits_of_ok (fun _ _ => target_inv) hcols).1

end Converse

section Steps

variable {s : GgState}

/-- The canvas has the logical size. -/
def Matches (s : GgState) : Prop := s.canvas.length = s.canvasW.toNat * s.canvasH.toNat

structure Sound (s : GgState) : Prop where
  matches_ : Matches s
  whole : ∀ t ∈ s.textures, t.Whole

theorem sound_new : Sound GgState.new := ⟨rfl, List.forall_mem_nil _⟩

/-- The condition on a call in a state: coordinates stay in `i32`, and a frame is shown only with as
many pixels as the canvas has. -/
def Meets (s : GgState) : Call → Prop
  | .sprite tex dx dy => tex ≠ 0 → ∀ t, s.textures[tex.toNat - 1]? = some t →
    BlitFits s t 0 0 (asI32 t.w) (asI32 t.h) dx.toInt dy.toInt
  | .spriteSub tex sx sy sw sh dx dy => tex ≠ 0 → ∀ t, s.textures[tex.toNat - 1]? = some t →
    BlitFits s t sx.toInt sy.toInt (asI32 sw) (asI32 sh) dx.toInt dy.toInt
  | .rect dx dy w h argb => RectFits s dx dy w h argb
  | .show _ w h _ _ => w = 0 ∨ h = 0 ∨ s.canvas.length = w.toNat * h.toNat
  | .tex .. | .frame .. | .flush .. => True

def Call.draws : Call → Bool
  | .sprite .. | .spriteSub .. | .rect .. => true
  | .tex .. | .frame .. | .flush .. | .show .. => false

/-- The destination rectangle of a drawing call. -/
def Call.dest (s : GgState) : Call → Int → Int → Prop
  | .sprite id dx dy => fun x y => ∃ t, s.textures[id.toNat - 1]? = some t ∧
    InRect dx.toInt dy.toInt t.w.toNat t.h.toNat x y
  | .spriteSub _ _ _ sw sh dx dy => InRect dx.toInt dy.toInt sw.toNat sh.toNat
  | .rect dx dy w h _ => InRect dx.toInt dy.toInt w.toNat h.toNat
  | .tex .. | .frame .. | .flush .. | .show .. => fun _ _ => False

/-- The call goes through, the canvas has the logical size after it, and a drawing call changes only
pixels of its destination rectangle. -/
def SafeStep (s : GgState) (c : Call) : Prop :=
  ∃ s', s.step c = .ok s' ∧ Matches s' ∧
    (c.draws = true → ∀ i, ¬Cells s.canvasW.toNat s.canvasH.toNat (c.dest s) i →
      s'.canvas[i]? = s.canvas[i]?)

theorem matches_frame (s : GgState) (w h clearArgb : UInt32) : Matches (s.frame w h clearArgb) := by
  unfold GgState.frame
  dsimp only
  split
  · exact (List.length_map _).trans List.length_replicate
  · rename_i hsame
    simp only [not_or, not_not] at hsame
    obtain ⟨hw, hh, hlen⟩ := hsame
    show (s.canvas.map _).length = s.canvasW.toNat * s.canvasH.toNat
    rw [List.length_map, hlen, hw, hh]

theorem sound_frame (h : Sound s) (w h' clearArgb : UInt32) : Sound (s.frame w h' clearArgb) := by
  refine ⟨matches_frame s w h' clearArgb, ?_⟩
  unfold GgState.frame
  dsimp only
  split
  · exact h.whole
  · exact h.whole

theorem sound_tex (h : Sound s) (rgba : List UInt8) (w h' : UInt32) : Sound (s.tex rgba w h') := by
  unfold GgState.tex
  split
  · exact h
  · refine ⟨h.matches_, fun t ht => ?_⟩
    rcases List.mem_append.mp ht with ht | ht
    · exact h.whole t ht
    · cases List.mem_singleton.mp ht
      exact (List.length_map _).trans List.length_range

theorem sound_flush (h : Sound s) (winW winH : Nat) : Sound (s.flush winW winH) := by
  unfold GgState.flush
  dsimp only
  split
  · exact h
  · exact ⟨h.matches_, h.whole⟩

theorem matches_show (h : Sound s) (buf : List UInt32) (w h' : UInt32) (winW winH : Nat) :
    Matches (s.show buf w h' winW winH) ↔ Meets s (.show buf w h' winW winH) := by
  show _ ↔ w = 0 ∨ h' = 0 ∨ s.canvas.length = w.toNat * h'.toNat
  unfold GgState.show
  by_cases hnone : w = 0 ∨ h' = 0
  · rw [if_pos hnone]
    exact ⟨fun _ => or_assoc.mp (.inl hnone), fun _ => h.matches_⟩
  · rw [if_neg hnone, ← or_assoc, or_iff_right hnone]
    rfl

theorem cells_mono {cw ch : Nat} {rect rect' : Int → Int → Prop} (h : ∀ x y, rect x y → rect' x y)
    {i : Nat} (hi : Cells cw ch rect i) : Cells cw ch rect' i := by
  obtain ⟨px, hpx, py, hpy, hin, rfl⟩ := hi
  exact ⟨px, hpx, py, hpy, h _ _ hin, rfl⟩

theorem inRect_cast {dx dy x y : Int} {w h : UInt32} (hin : InRect dx dy (asI32 w) (asI32 h) x y) :
    InRect dx dy w.toNat h.toNat x y := by
  have hw := asI32_le w
  have hh := asI32_le h
  obtain ⟨⟨hx, hx'⟩, hy, hy'⟩ := hin
  exact ⟨⟨hx, by omega⟩, hy, by omega⟩

theorem sprite_zero (s : GgState) (dx dy : Int32) : s.sprite 0 dx dy = .ok s := by
  unfold GgState.sprite
  split
  · rfl
  · exact if_pos (.inl rfl)

theorem toNat_sub_one {tex : UInt32} (htex : tex ≠ 0) : (tex - 1).toNat = tex.toNat - 1 := by
  have hpos : tex.toNat ≠ 0 := fun h => htex (UInt32.toNat_inj.mp h)
  refine UInt32.toNat_sub_of_le _ _ (UInt32.le_iff_toNat_le.mpr ?_)
  show 1 ≤ tex.toNat
  omega

theorem sprite_none {tex : UInt32} (htex : tex ≠ 0) (h : s.textures[tex.toNat - 1]? = none)
    (dx dy : Int32) : s.sprite tex dx dy = .ok s := by
  rw [← toNat_sub_one htex] at h
  simp only [GgState.sprite, h]

theorem sprite_some {tex : UInt32} (htex : tex ≠ 0) {t : Texture}
    (h : s.textures[tex.toNat - 1]? = some t) (dx dy : Int32) :
    s.sprite tex dx dy = s.blitSub tex 0 0 (asI32 t.w) (asI32 t.h) dx.toInt dy.toInt := by
  rw [← toNat_sub_one htex] at h
  simp only [GgState.sprite, h]

theorem safeStep_same {c : Call} (h : Sound s) (hok : s.step c = .ok s) : SafeStep s c :=
  ⟨s, hok, h.matches_, fun _ _ _ => rfl⟩

/-- What a drawing routine guarantees, under the destination rectangle of its call. -/
theorem safeStep_of_draws {c : Call} {rect : Int → Int → Prop}
    (h : ∃ canvas, s.step c = .ok { s with canvas := canvas } ∧
      canvas.length = s.canvasW.toNat * s.canvasH.toNat ∧
      ∀ i, ¬Cells s.canvasW.toNat s.canvasH.toNat rect i → canvas[i]? = s.canvas[i]?)
    (hrect : ∀ x y, rect x y → c.dest s x y) : SafeStep s c := by
  obtain ⟨canvas, hok, hlen, hkept⟩ := h
  exact ⟨_, hok, hlen, fun _ i hi => hkept i fun hcell => hi (cells_mono hrect hcell)⟩

theorem safeStep_of_meets {c : Call} (h : Sound s) (hmeets : Meets s c) : SafeStep s c := by
  cases c with
  | tex rgba w h' => exact ⟨_, rfl, (sound_tex h rgba w h').matches_, fun hd => nomatch hd⟩
  | frame w h' clearArgb => exact ⟨_, rfl, matches_frame s w h' clearArgb, fun hd => nomatch hd⟩
  | flush winW winH => exact ⟨_, rfl, (sound_flush h winW winH).matches_, fun hd => nomatch hd⟩
  | «show» buf w h' winW winH =>
    exact ⟨_, rfl, (matches_show h buf w h' winW winH).mpr hmeets, fun hd => nomatch hd⟩
  | rect dx dy w h' argb =>
    exact safeStep_of_draws (draws_rect h.matches_ hmeets) fun _ _ hin => hin
  | spriteSub tex sx sy sw sh dx dy =>
    exact safeStep_of_draws (draws_blitSub _ _ h.whole h.matches_ (asI32_lt sw) (asI32_lt sh)
      (int32_lower dx) (int32_lower dy) hmeets) fun _ _ hin => inRect_cast hin
  | sprite tex dx dy =>
    by_cases htex : tex = 0
    · subst htex
      exact safeStep_same h (sprite_zero s dx dy)
    · cases ht : s.textures[tex.toNat - 1]? with
      | none => exact safeStep_same h (sprite_none htex ht dx dy)
      | some t =>
        have hblit := draws_blitSub 0 0 h.whole h.matches_ (asI32_lt t.w) (asI32_lt t.h)
          (int32_lower dx) (int32_lower dy) fun htex t' ht' => by
            cases ht.symm.trans ht'
            exact hmeets htex t ht
        rw [← sprite_some htex ht] at hblit
        exact safeStep_of_draws hblit fun _ _ hin => ⟨t, ht, inRect_cast hin⟩

theorem meets_of_safeStep {c : Call} (h : Sound s) (hsafe : SafeStep s c) : Meets s c := by
  obtain ⟨s', hok, hmatches, _⟩ := hsafe
  cases c with
  | tex | frame | flush => trivial
  | «show» buf w h' winW winH =>
    cases hok
    exact (matches_show h buf w h' winW winH).mp hmatches
  | rect dx dy w h' argb => exact rectFits_of_ok hok
  | spriteSub tex sx sy sw sh dx dy => exact fun htex t ht => blitFits_of_ok htex ht hok
  | sprite tex dx dy =>
    intro htex t ht
    rw [show s.step (.sprite tex dx dy) = s.sprite tex dx dy from rfl, sprite_some htex ht] at hok
    exact blitFits_of_ok htex ht hok

theorem blitSub_textures {s' : GgState} {tex : UInt32} {sx sy sw sh dx dy : Int}
    (hok : s.blitSub tex sx sy sw sh dx dy = .ok s') : s'.textures = s.textures := by
  unfold GgState.blitSub at hok
  split at hok
  · cases hok
    rfl
  · split at hok
    · cases hok
    · obtain ⟨canvas, _, rfl⟩ := except_map_ok hok
      rfl

theorem textures_kept {s' : GgState} {c : Call} (h : Sound s) (hok : s.step c = .ok s') :
    ∀ t ∈ s'.textures, t.Whole := by
  cases c with
  | tex rgba w h' =>
    cases hok
    exact (sound_tex h rgba w h').whole
  | frame w h' clearArgb =>
    cases hok
    exact (sound_frame h w h' clearArgb).whole
  | flush winW winH =>
    cases hok
    exact (sound_flush h winW winH).whole
  | «show» buf w h' winW winH =>
    cases hok
    unfold GgState.show
    split
    · exact h.whole
    · exact h.whole
  | rect dx dy w h' argb =>
    replace hok : s.rect dx dy w h' argb = .ok s' := hok
    unfold GgState.rect at hok
    split at hok
    · cases hok
      exact h.whole
    · obtain ⟨canvas, _, rfl⟩ := except_map_ok hok
      exact h.whole
  | spriteSub tex sx sy sw sh dx dy =>
    rw [blitSub_textures hok]
    exact h.whole
  | sprite tex dx dy =>
    replace hok : s.sprite tex dx dy = .ok s' := hok
    unfold GgState.sprite at hok
    split at hok
    · cases hok
      exact h.whole
    · rw [blitSub_textures hok]
      exact h.whole

end Steps

section Runs

/-- Each call of the run meets the condition where the run comes to it. -/
def StepsMeet : GgState → List Call → Prop
  | _, [] => True
  | s, c :: calls => Meets s c ∧ ∀ s', s.step c = .ok s' → StepsMeet s' calls

/-- The run comes to each of its calls, and each is safe there. -/
def SafeRun (s : GgState) (calls : List Call) : Prop :=
  ∀ before c after, calls = before ++ c :: after → ∃ s', s.run before = .ok s' ∧ SafeStep s' c

theorem safeRun_cons {s : GgState} {c : Call} {calls : List Call} :
    SafeRun s (c :: calls) ↔ SafeStep s c ∧ ∀ s', s.step c = .ok s' → SafeRun s' calls := by
  constructor
  · intro h
    refine ⟨?_, fun s' hok before c' after heq => ?_⟩
    · obtain ⟨s', hrun, hsafe⟩ := h [] c calls rfl
      cases hrun
      exact hsafe
    · obtain ⟨s'', hrun, hsafe⟩ := h (c :: before) c' after (congrArg (c :: ·) heq)
      refine ⟨s'', ?_, hsafe⟩
      unfold GgState.run at hrun
      rw [List.foldlM_cons, hok] at hrun
      exact hrun
  · rintro ⟨hfirst, hrest⟩ before c' after heq
    cases before with
    | nil =>
      cases heq
      exact ⟨s, rfl, hfirst⟩
    | cons b before =>
      cases heq
      obtain ⟨s', hok, _⟩ := hfirst
      obtain ⟨s'', hrun, hsafe⟩ := hrest s' hok before c' after rfl
      refine ⟨s'', ?_, hsafe⟩
      unfold GgState.run
      rw [List.foldlM_cons, hok]
      exact hrun

theorem safeRun_iff {s : GgState} (h : Sound s) (calls : List Call) :
    SafeRun s calls ↔ StepsMeet s calls := by
  induction calls generalizing s with
  | nil =>
    refine ⟨fun _ => trivial, fun _ before c after heq => ?_⟩
    exact absurd heq.symm (List.append_ne_nil_of_right_ne_nil _ (List.cons_ne_nil _ _))
  | cons c calls ih =>
    have hnext : SafeStep s c → ∀ s', s.step c = .ok s' → Sound s' := by
      rintro ⟨s₁, hok₁, hmatches, _⟩ s' hok
      cases hok₁.symm.trans hok
      exact ⟨hmatches, textures_kept h hok⟩
    rw [safeRun_cons]
    constructor
    · rintro ⟨hfirst, hrest⟩
      exact ⟨meets_of_safeStep h hfirst,
        fun s' hok => (ih (hnext hfirst s' hok)).mp (hrest s' hok)⟩
    · rintro ⟨hmeets, hrest⟩
      have hfirst := safeStep_of_meets h hmeets
      exact ⟨hfirst, fun s' hok => (ih (hnext hfirst s' hok)).mpr (hrest s' hok)⟩

/-- Every call of a run goes through without an index out of range or an overflow, leaves the canvas
at its logical size and draws only in its destination rectangle, exactly when every coordinate stays
in `i32` and every frame that is shown has as many pixels as the canvas. -/
theorem canvas_safe_iff (calls : List Call) : SafeRun .new calls ↔ StepsMeet .new calls :=
  safeRun_iff sound_new calls

/-- Drawing after a frame was shown without `frame`: the pixel is not in the canvas. -/
theorem rect_after_show : ¬∀ calls, SafeRun .new calls := by
  intro h
  obtain ⟨s, hrun, hsafe⟩ :=
    h [.show [0] 1 1 2 2, .rect 0 0 1 1 0xFF000000] [.show [0] 1 1 2 2] (.rect 0 0 1 1 0xFF000000) [] rfl
  cases hrun
  obtain ⟨s', hok, _⟩ := hsafe
  cases hok

end Runs

end BetLang.Compositor
