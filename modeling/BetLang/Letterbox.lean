import BetLang.Present

/-! What the window shows after each frame, and when the bars are left as they are although the frame
no longer covers them. -/

namespace BetLang.Presenting

open Painting

/-- Every size fits in an `i32`. -/
structure Call.Small (c : Call) : Prop where
  cw : c.cw < 2 ^ 31
  ch : c.ch < 2 ^ 31
  winW : c.winW < 2 ^ 31
  winH : c.winH < 2 ^ 31

def Call.left (c : Call) : Int := ((c.winW : Int) - (c.cw * c.scale : Nat)).tdiv 2

def Call.top (c : Call) : Int := ((c.winH : Int) - (c.ch * c.scale : Nat)).tdiv 2

/-- The pixel of the window is in the destination rectangle. -/
def Call.InDest (c : Call) (px py : Nat) : Prop :=
  (c.left ≤ px ∧ (px : Int) < c.left + (c.cw * c.scale : Nat)) ∧
    c.top ≤ py ∧ (py : Int) < c.top + (c.ch * c.scale : Nat)

instance (c : Call) (px py : Nat) : Decidable (c.InDest px py) :=
  inferInstanceAs (Decidable ((_ ∧ _) ∧ _ ∧ _))

/-- The integer-upscaled image at a pixel of the window. -/
def Call.upscaled (c : Call) (px py : Nat) : UInt32 :=
  c.src.getD ((py - c.top).toNat / c.scale * c.cw + (px - c.left).toNat / c.scale) 0

/-- The window holds the upscaled image in the destination rectangle, and black elsewhere. -/
structure Call.Shows (c : Call) (buf : List UInt32) : Prop where
  length : buf.length = c.winW * c.winH
  pixel : ∀ px < c.winW, ∀ py < c.winH,
    buf[py * c.winW + px]? = some (if c.InDest px py then c.upscaled px py else 0)

section Sizes

theorem i32_eq {n : Int} (h : -2 ^ 31 ≤ n) (h' : n < 2 ^ 31) : i32 n = n := by
  unfold i32
  exact Int.bmod_eq_of_le (by omega) (by omega)

theorem usize_eq {n : Nat} (h : n < 2 ^ 64) : usize n = n := Nat.mod_eq_of_lt h

theorem tdiv_two {n : Int} : (0 ≤ n → 0 ≤ n.tdiv 2 ∧ n.tdiv 2 ≤ n) ∧ (n ≤ 0 → n ≤ n.tdiv 2 ∧ n.tdiv 2 ≤ 0) := by
  constructor
  · intro h
    rw [Int.tdiv_eq_ediv_of_nonneg h]
    omega
  · intro h
    have hneg : n.tdiv 2 = -((-n).tdiv 2) := by rw [Int.neg_tdiv, Int.neg_neg]
    rw [hneg, Int.tdiv_eq_ediv_of_nonneg (by omega)]
    omega

variable {c : Call}

theorem scaled_lt {size win other : Nat} (hsize : size < 2 ^ 31) (hwin : win < 2 ^ 31) :
    size * max (min (win / size) other) 1 < 2 ^ 31 := by
  have hle : size * (win / size) ≤ win := Nat.mul_div_le win size
  by_cases h : min (win / size) other ≤ 1
  · rw [Nat.max_eq_right h, Nat.mul_one]
    exact hsize
  · rw [Nat.max_eq_left (by omega)]
    have hmul := Nat.mul_le_mul_left size (Nat.min_le_left (win / size) other)
    omega

theorem Call.Small.outW (h : c.Small) : c.cw * c.scale < 2 ^ 31 := scaled_lt h.cw h.winW

theorem Call.Small.outH (h : c.Small) : c.ch * c.scale < 2 ^ 31 := by
  unfold Call.scale
  rw [Nat.min_comm]
  exact scaled_lt h.ch h.winH

theorem outW_eq (h : c.Small) : c.outW = c.cw * c.scale :=
  usize_eq (Nat.lt_trans h.outW (by decide))

theorem outH_eq (h : c.Small) : c.outH = c.ch * c.scale :=
  usize_eq (Nat.lt_trans h.outH (by decide))

theorem i32_sub {a b : Nat} (ha : a < 2 ^ 31) (hb : b < 2 ^ 31) :
    i32 (i32 a - i32 b) = (a : Int) - b := by
  rw [i32_eq (n := a) (by omega) (by omega), i32_eq (n := b) (by omega) (by omega)]
  exact i32_eq (by omega) (by omega)

theorem offX_eq (h : c.Small) : c.offX = c.left := by
  unfold Call.offX Call.left
  rw [outW_eq h, i32_sub h.winW h.outW]

theorem offY_eq (h : c.Small) : c.offY = c.top := by
  unfold Call.offY Call.top
  rw [outH_eq h, i32_sub h.winH h.outH]

/-- Window coordinates do not overflow, and those in the window are the exact ones. -/
theorem i32_coordinate {win out x : Nat} (hwin : win < 2 ^ 31) (hout : out < 2 ^ 31) (hx : x < out) :
    i32 (((win : Int) - out).tdiv 2 + i32 x) = ((win : Int) - out).tdiv 2 + x := by
  obtain ⟨hpos, hneg⟩ := @tdiv_two ((win : Int) - out)
  rw [i32_eq (n := x) (by omega) (by omega)]
  rcases Int.le_total 0 ((win : Int) - out) with hle | hle
  · have hbound := hpos hle
    exact i32_eq (by omega) (by omega)
  · have hbound := hneg hle
    exact i32_eq (by omega) (by omega)

theorem i32_x (h : c.Small) {x : Nat} (hx : x < c.outW) : i32 (c.offX + i32 x) = c.left + x := by
  rw [offX_eq h]
  exact i32_coordinate h.winW h.outW (outW_eq h ▸ hx)

theorem i32_y (h : c.Small) {y : Nat} (hy : y < c.outH) : i32 (c.offY + i32 y) = c.top + y := by
  rw [offY_eq h]
  exact i32_coordinate h.winH h.outH (outH_eq h ▸ hy)

end Sizes

section Painted

variable {c : Call}

/-- The image as a function of the index in the window buffer. -/
def Call.value (c : Call) (i : Nat) : UInt32 := c.upscaled (i % c.winW) (i / c.winW)

theorem value_eq {px py : Nat} (hpx : px < c.winW) : c.value (py * c.winW + px) = c.upscaled px py := by
  unfold Call.value
  rw [index_mod py hpx, index_div py hpx]

/-- The index `i` is the pixel of column `x` and row `y` of the scaled frame. -/
def Call.At (c : Call) (y x i : Nat) : Prop :=
  ∃ px < c.winW, ∃ py < c.winH, (px : Int) = c.left + x ∧ (py : Int) = c.top + y ∧ i = py * c.winW + px

theorem upscaled_at {px py x y : Nat} (hx : (px : Int) = c.left + x) (hy : (py : Int) = c.top + y) :
    c.upscaled px py = c.src.getD (y / c.scale * c.cw + x / c.scale) 0 := by
  have hxs : ((px : Int) - c.left).toNat = x := by omega
  have hys : ((py : Int) - c.top).toNat = y := by omega
  unfold Call.upscaled
  rw [hxs, hys]

theorem paints_pixel (h : c.Small) {x y py : Nat} (hx : x < c.outW) (hpy : py < c.winH)
    (hy : (py : Int) = c.top + y) :
    Paints (c.paintPixel (py * c.winW) (y / c.scale) x) (c.At y x) c.value := by
  have hwin := h.winW
  unfold Call.paintPixel
  rw [i32_x h hx, i32_eq (n := c.winW) (by omega) (by omega)]
  dsimp only
  by_cases hskip : (decide (c.left + x < 0) || decide (c.left + x ≥ c.winW)) = true
  · simp only [if_pos hskip]
    refine paints_nothing ?_
    rintro i ⟨px, hpx, _, _, heq, _⟩
    rw [Bool.or_eq_true, decide_eq_true_iff, decide_eq_true_iff] at hskip
    omega
  · simp only [if_neg hskip]
    rw [Bool.or_eq_true, decide_eq_true_iff, decide_eq_true_iff] at hskip
    obtain ⟨px, hpx⟩ : ∃ px : Nat, (px : Int) = c.left + x := ⟨(c.left + x).toNat, by omega⟩
    rw [← hpx, Int.toNat_natCast]
    refine (paints_set (py * c.winW + px) ?_).congr fun i => ⟨?_, ?_⟩
    · rw [value_eq (by omega), upscaled_at hpx hy]
    · rintro ⟨px', _, py', _, hpx', hpy', rfl⟩
      have hpx : px' = px := by omega
      have hpy : py' = py := by omega
      rw [hpx, hpy]
    · rintro rfl
      exact ⟨px, by omega, py, hpy, hpx, hy, rfl⟩

theorem paints_row (h : c.Small) {y : Nat} (hy : y < c.outH) :
    Paints (c.paintRow y) (fun i => ∃ x ∈ List.range c.outW, c.At y x i) c.value := by
  have hw := h.winW
  have hh := h.winH
  unfold Call.paintRow
  rw [i32_y h hy, i32_eq (n := c.winH) (by omega) (by omega)]
  dsimp only
  by_cases hskip : (decide (c.top + y < 0) || decide (c.top + y ≥ c.winH)) = true
  · simp only [if_pos hskip]
    refine paints_nothing ?_
    rintro i ⟨_, _, _, _, py, hpy, _, heq, _⟩
    rw [Bool.or_eq_true, decide_eq_true_iff, decide_eq_true_iff] at hskip
    omega
  · simp only [if_neg hskip]
    rw [Bool.or_eq_true, decide_eq_true_iff, decide_eq_true_iff] at hskip
    obtain ⟨py, hpy⟩ : ∃ py : Nat, (py : Int) = c.top + y := ⟨(c.top + y).toNat, by omega⟩
    have hlt : py < c.winH := by omega
    have hrow : py * c.winW < 2 ^ 64 := by
      have hmul := Nat.mul_le_mul (Nat.le_of_lt (Nat.lt_trans hlt hh)) (Nat.le_of_lt hw)
      exact Nat.lt_of_le_of_lt hmul (by decide)
    rw [← hpy, Int.toNat_natCast, usize_eq hrow]
    exact Paints.loop fun x hx => paints_pixel h (List.mem_range.mp hx) hlt hpy

theorem paints_frame (h : c.Small) :
    Paints c.paint (fun i => ∃ y ∈ List.range c.outH, ∃ x ∈ List.range c.outW, c.At y x i) c.value :=
  Paints.loop fun _ hy => paints_row h (List.mem_range.mp hy)

theorem inDest_iff (h : c.Small) {px py : Nat} (hpx : px < c.winW) (hpy : py < c.winH) :
    c.InDest px py ↔
      ∃ y ∈ List.range c.outH, ∃ x ∈ List.range c.outW, c.At y x (py * c.winW + px) := by
  rw [outH_eq h, outW_eq h]
  constructor
  · rintro ⟨⟨hleft, hright⟩, htop, hbottom⟩
    refine ⟨(py - c.top).toNat, List.mem_range.mpr (by omega), (px - c.left).toNat,
      List.mem_range.mpr (by omega), px, hpx, py, hpy, by omega, by omega, rfl⟩
  · rintro ⟨y, hy, x, hx, px', hpx', py', hpy', heqx, heqy, heq⟩
    rw [List.mem_range] at hy hx
    have hpxs : px = px' := by rw [← index_mod py hpx, heq, index_mod py' hpx']
    have hpys : py = py' := by rw [← index_div py hpx, heq, index_div py' hpx']
    exact ⟨⟨by omega, by omega⟩, by omega, by omega⟩

/-- The frame over what was in the buffer. -/
theorem paint_pixel (h : c.Small) {buf : List UInt32} (hlen : buf.length = c.winW * c.winH)
    {px py : Nat} (hpx : px < c.winW) (hpy : py < c.winH) :
    (c.paint buf)[py * c.winW + px]? =
      if c.InDest px py then some (c.upscaled px py) else buf[py * c.winW + px]? := by
  have hlt : py * c.winW + px < buf.length := by
    rw [hlen]
    exact index_lt hpx hpy
  by_cases hin : c.InDest px py
  · rw [if_pos hin, (paints_frame h).inside buf _ ((inDest_iff h hpx hpy).mp hin) hlt, value_eq hpx]
  · rw [if_neg hin, (paints_frame h).outside buf _ fun ha => hin ((inDest_iff h hpx hpy).mpr ha)]

/-- No index runs past the frame. -/
theorem upscaled_index_lt {px py : Nat} (hlen : c.cw * c.ch ≤ c.src.length) (hin : c.InDest px py) :
    (py - c.top).toNat / c.scale * c.cw + (px - c.left).toNat / c.scale < c.src.length := by
  obtain ⟨⟨hleft, hright⟩, htop, hbottom⟩ := hin
  have hx : (px - c.left).toNat / c.scale < c.cw := by
    refine Nat.div_lt_of_lt_mul ?_
    rw [Nat.mul_comm]
    omega
  have hy : (py - c.top).toNat / c.scale < c.ch := by
    refine Nat.div_lt_of_lt_mul ?_
    rw [Nat.mul_comm]
    omega
  exact Nat.lt_of_lt_of_le (index_lt hx hy) hlen

end Painted

section Composing

variable {c : Call} {p : Present} {last : Option Call}

/-- What the last presented call left. -/
def Held (p : Present) : Option Call → Prop
  | none => p.laidOut = none
  | some c => c.Shows p.buf ∧ p.laidOut = some c.layout

/-- The pixels that only the earlier frame covers were black in it. -/
def LeavesBlack (prev c : Call) : Prop :=
  ∀ px < c.winW, ∀ py < c.winH, prev.InDest px py → ¬c.InDest px py → prev.upscaled px py = 0

instance (prev c : Call) : Decidable (LeavesBlack prev c) :=
  inferInstanceAs (Decidable (∀ px < c.winW, ∀ py < c.winH, _ → _ → _))

theorem length_resize (buf : List UInt32) (need : Nat) : (resize buf need).length = need := by
  unfold resize
  rw [List.length_append, List.length_take, List.length_replicate]
  omega

theorem length_fit (p : Present) (need : Nat) : (p.fit need).buf.length = need := by
  unfold Present.fit
  split
  · assumption
  · exact length_resize _ _

theorem fit_laidOut (p : Present) (need : Nat) : (p.fit need).laidOut = p.laidOut := by
  unfold Present.fit
  split
  · rfl
  · rfl

theorem usize_window (h : c.Small) : usize (c.winW * c.winH) = c.winW * c.winH := by
  have hmul := Nat.mul_le_mul (Nat.le_of_lt h.winW) (Nat.le_of_lt h.winH)
  exact usize_eq (Nat.lt_of_le_of_lt hmul (by decide))

/-- The buffer that the scale loop starts from. -/
def Present.ground (p : Present) (c : Call) : Present :=
  (p.fit (usize (c.winW * c.winH))).layOut c.layout

theorem ground_laidOut (p : Present) (c : Call) : (p.ground c).laidOut = some c.layout := by
  unfold Present.ground Present.layOut
  split
  · assumption
  · rfl

theorem ground_length (h : c.Small) (p : Present) : (p.ground c).buf.length = c.winW * c.winH := by
  have hfit := length_fit p (usize (c.winW * c.winH))
  rw [usize_window h] at hfit
  unfold Present.ground Present.layOut
  rw [usize_window h]
  split
  · exact hfit
  · exact (List.length_map _).trans hfit

/-- A new layout starts from black. -/
theorem ground_fresh (h : c.Small) (hp : p.laidOut ≠ some c.layout) {i : Nat}
    (hi : i < c.winW * c.winH) : (p.ground c).buf[i]? = some 0 := by
  have hlen := length_fit p (usize (c.winW * c.winH))
  rw [usize_window h] at hlen
  unfold Present.ground Present.layOut
  rw [fit_laidOut, if_neg hp, usize_window h]
  dsimp only
  rw [List.getElem?_map, List.getElem?_eq_getElem (by rw [hlen]; exact hi)]
  rfl

/-- The layout of the call before keeps its pixels. -/
theorem ground_kept {prev : Call} (h : c.Small) (hlayout : prev.layout = c.layout)
    (hp : prev.Shows p.buf ∧ p.laidOut = some prev.layout) : (p.ground c).buf = p.buf := by
  have hw : prev.winW = c.winW := congrArg (·.1) hlayout
  have hh : prev.winH = c.winH := congrArg (·.2.1) hlayout
  have hlen : p.buf.length = c.winW * c.winH := by rw [hp.1.length, hw, hh]
  unfold Present.ground Present.layOut Present.fit
  rw [usize_window h, if_pos hlen, if_pos (by rw [hp.2, hlayout])]

theorem compose_presented (hpres : c.presented = true) :
    (p.compose c).buf = c.paint (p.ground c).buf ∧ (p.compose c).laidOut = some c.layout := by
  have hskip : ¬(!c.presented) = true := by rw [hpres]; decide
  unfold Present.compose
  rw [if_neg hskip]
  exact ⟨rfl, ground_laidOut p c⟩

theorem compose_skipped (hpres : ¬c.presented = true) : p.compose c = p := by
  unfold Present.compose
  rw [if_pos (by simpa using hpres)]

/-- The new frame is shown exactly when the bars that are not repainted are black. -/
theorem shows_iff (h : c.Small) (hpres : c.presented = true) (hheld : Held p last) :
    c.Shows (p.compose c).buf ↔
      ∀ prev ∈ last, prev.layout = c.layout → LeavesBlack prev c := by
  rw [(compose_presented hpres).1]
  have hlen : (c.paint (p.ground c).buf).length = c.winW * c.winH := by
    rw [(paints_frame h).length, ground_length h]
  constructor
  · rintro hshows prev hprev hlayout px hpx py hpy hin hout
    cases hprev
    have hw : prev.winW = c.winW := congrArg (·.1) hlayout
    have hh : prev.winH = c.winH := congrArg (·.2.1) hlayout
    have hnew := hshows.pixel px hpx py hpy
    rw [paint_pixel h (ground_length h p) hpx hpy, if_neg hout, if_neg hout,
      ground_kept h hlayout hheld, ← hw, hheld.1.pixel px (hw ▸ hpx) py (hh ▸ hpy), if_pos hin] at hnew
    exact Option.some.inj hnew
  · intro hblack
    refine ⟨hlen, fun px hpx py hpy => ?_⟩
    rw [paint_pixel h (ground_length h p) hpx hpy]
    by_cases hin : c.InDest px py
    · rw [if_pos hin, if_pos hin]
    · rw [if_neg hin, if_neg hin]
      by_cases hsame : p.laidOut = some c.layout
      · cases last with
        | none =>
          rw [show p.laidOut = none from hheld] at hsame
          cases hsame
        | some prev =>
          have hlayout : prev.layout = c.layout := Option.some.inj (hheld.2.symm.trans hsame)
          have hw : prev.winW = c.winW := congrArg (·.1) hlayout
          have hh : prev.winH = c.winH := congrArg (·.2.1) hlayout
          rw [ground_kept h hlayout hheld, ← hw, hheld.1.pixel px (hw ▸ hpx) py (hh ▸ hpy)]
          by_cases hold : prev.InDest px py
          · rw [if_pos hold, hblack prev rfl hlayout px hpx py hpy hold hin]
          · rw [if_neg hold]
      · exact ground_fresh h hsame (index_lt hpx hpy)

end Composing

section Runs

variable {p : Present} {last : Option Call}

/-- After every presented call of the run, the window shows that call's frame. -/
def ShownAfterEach (p : Present) (calls : List Call) : Prop :=
  ∀ before c after, calls = before ++ c :: after → c.presented = true →
    c.Shows ((before ++ [c]).foldl Present.compose p).buf

/-- No presented call leaves more than black of the call before it, when the layout stays. -/
def Steady : Option Call → List Call → Prop
  | _, [] => True
  | last, c :: calls =>
    (c.presented = true → ∀ prev ∈ last, prev.layout = c.layout → LeavesBlack prev c) ∧
      Steady (if c.presented then some c else last) calls

theorem shownAfterEach_cons {c : Call} {calls : List Call} :
    ShownAfterEach p (c :: calls) ↔ (c.presented = true → c.Shows (p.compose c).buf) ∧
      ShownAfterEach (p.compose c) calls := by
  constructor
  · intro h
    refine ⟨h [] c calls rfl, fun before c' after heq => ?_⟩
    exact h (c :: before) c' after (congrArg (c :: ·) heq)
  · rintro ⟨hfirst, hrest⟩ before c' after heq
    cases before with
    | nil =>
      cases heq
      exact hfirst
    | cons b before =>
      cases heq
      exact hrest before c' after rfl

theorem held_compose {c : Call} (hheld : Held p last)
    (hshows : c.presented = true → c.Shows (p.compose c).buf) :
    Held (p.compose c) (if c.presented then some c else last) := by
  by_cases hpres : c.presented = true
  · rw [if_pos hpres]
    exact ⟨hshows hpres, (compose_presented hpres).2⟩
  · rw [if_neg hpres, compose_skipped hpres]
    exact hheld

theorem shownAfterEach_iff {calls : List Call} (hsmall : ∀ c ∈ calls, c.Small)
    (hheld : Held p last) : ShownAfterEach p calls ↔ Steady last calls := by
  induction calls generalizing p last with
  | nil =>
    refine ⟨fun _ => trivial, fun _ before c after heq => ?_⟩
    exact absurd heq.symm (List.append_ne_nil_of_right_ne_nil _ (List.cons_ne_nil _ _))
  | cons c calls ih =>
    have h := hsmall c List.mem_cons_self
    have hrest : ∀ c ∈ calls, c.Small := fun c' hc' => hsmall c' (List.mem_cons_of_mem _ hc')
    rw [shownAfterEach_cons]
    constructor
    · rintro ⟨hfirst, hafter⟩
      refine ⟨fun hpres => (shows_iff h hpres hheld).mp (hfirst hpres), ?_⟩
      exact (ih hrest (held_compose hheld hfirst)).mp hafter
    · rintro ⟨hfirst, hafter⟩
      have hshows : c.presented = true → c.Shows (p.compose c).buf :=
        fun hpres => (shows_iff h hpres hheld).mpr (hfirst hpres)
      exact ⟨hshows, (ih hrest (held_compose hheld hshows)).mpr hafter⟩

/-- From a new present buffer on: every frame is shown between black bars exactly when, under an
unchanged layout, each frame leaves only black pixels of the one before uncovered. -/
theorem letterbox_iff {calls : List Call} (hsmall : ∀ c ∈ calls, c.Small) :
    ShownAfterEach Present.new calls ↔ Steady none calls :=
  shownAfterEach_iff hsmall rfl

/-- A one-pixel-narrower frame, then a new window, then a wider frame. -/
theorem letterbox_iff_three : ShownAfterEach Present.new
    [⟨[7, 7], 2, 1, 10, 4⟩, ⟨[7, 7, 7, 7], 4, 1, 5, 1⟩, ⟨[9, 9, 9, 9, 9], 5, 1, 5, 1⟩] := by
  refine (letterbox_iff ?_).mpr ⟨fun _ _ h => (nomatch h), ?_, ?_, trivial⟩
  · intro c hc
    simp only [List.mem_cons, List.not_mem_nil, or_false] at hc
    rcases hc with rfl | rfl | rfl <;> exact ⟨by decide, by decide, by decide, by decide⟩
  · rintro _ _ ⟨⟩ hlayout
    exact absurd hlayout (by decide)
  · rintro _ _ ⟨⟩ _
    decide

/-- A white frame as wide as the window, then one that is a pixel narrower: the layout is the same,
and the last column keeps the first frame. -/
theorem bars_not_repainted : ¬∀ calls, ShownAfterEach Present.new calls := by
  intro h
  have hshows := h [⟨[9, 9, 9, 9, 9], 5, 1, 5, 1⟩, ⟨[7, 7, 7, 7], 4, 1, 5, 1⟩]
    [⟨[9, 9, 9, 9, 9], 5, 1, 5, 1⟩] ⟨[7, 7, 7, 7], 4, 1, 5, 1⟩ [] rfl rfl
  exact absurd (hshows.pixel 4 (by decide) 0 (by decide)) (by decide)

end Runs

end BetLang.Presenting
