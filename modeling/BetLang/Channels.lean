import BetLang.CanvasSafety

/-! The channels of a pixel under the blends: none spills into its neighbour. -/

namespace BetLang.Compositor

/-- Channel `k` of a pixel: blue, green, red, alpha. -/
def chan (v : UInt32) (k : Nat) : Nat := v.toNat / 256 ^ k % 256

/-- No colour channel is above alpha. -/
def Premultiplied (v : UInt32) : Prop := ∀ k < 3, chan v k ≤ chan v 3

/-- `0x00RRGGBB`. -/
def Rgb (v : UInt32) : Prop := v.toNat < 256 ^ 3

/-- The truncated source-over blend of each channel, for a premultiplied source. -/
def Over (src dst out : UInt32) : Prop :=
  Rgb out ∧ ∀ k < 3, chan out k = chan src k + chan dst k * (255 - chan src 3) / 255

/-- The truncated source-over blend of each channel, for a straight source. -/
def OverStraight (argb dst out : UInt32) : Prop :=
  Rgb out ∧ ∀ k < 3,
    chan out k = (chan argb k * chan argb 3 + chan dst k * (255 - chan argb 3)) / 255

section Arithmetic

theorem chan_lt (v : UInt32) (k : Nat) : chan v k < 256 := Nat.mod_lt _ (by decide)

/-- The source's way to read the channel at `shift`. -/
abbrev byte (v shift : UInt32) : UInt32 := (v >>> shift) &&& 0xFF

abbrev alpha (v : UInt32) : UInt32 := v >>> 24

theorem byte_toNat (v : UInt32) : (v &&& 0xFF).toNat = v.toNat % 256 := by
  rw [UInt32.toNat_and]
  exact Nat.and_two_pow_sub_one_eq_mod v.toNat 8

theorem chan_eq (v : UInt32) {shift : UInt32} {k : Nat} (hk : k < 3)
    (hshift : shift.toNat = 8 * k) : (byte v shift).toNat = chan v k := by
  have hmod : shift.toNat % 32 = 8 * k := by omega
  rw [byte_toNat, UInt32.toNat_shiftRight, hmod, Nat.shiftRight_eq_div_pow, Nat.pow_mul]
  rfl

theorem chan_three (v : UInt32) : (alpha v).toNat = chan v 3 := by
  have hlt : v.toNat < 2 ^ 32 := v.toNat_lt
  have hquot : v.toNat / 2 ^ 24 < 256 := by omega
  rw [UInt32.toNat_shiftRight, Nat.shiftRight_eq_div_pow]
  exact (Nat.mod_eq_of_lt hquot).symm

theorem shiftLeft_toNat {v : UInt32} (n : Nat) (shift : UInt32) (hshift : shift.toNat % 32 = n)
    (hlt : v.toNat * 2 ^ n < 2 ^ 32) : (v <<< shift).toNat = v.toNat * 2 ^ n := by
  rw [UInt32.toNat_shiftLeft, hshift, Nat.shiftLeft_eq, Nat.mod_eq_of_lt hlt]

/-- Bytes side by side. -/
theorem or_toNat {n m : Nat} (hm : m < 256) : n * 256 ||| m = n * 256 + m := by
  have hor := Nat.shiftLeft_add_eq_or_of_lt (i := 8) hm n
  rw [Nat.shiftLeft_eq] at hor
  exact hor.symm

theorem mul_or (n m : Nat) : n * 256 ||| m * 256 = (n ||| m) * 256 := by
  have hor : (n ||| m) <<< 8 = n <<< 8 ||| m <<< 8 := Nat.shiftLeft_or_distrib
  simp only [Nat.shiftLeft_eq] at hor
  exact hor.symm

theorem pack_toNat {r g b : UInt32} (hr : r.toNat < 256) (hg : g.toNat < 256)
    (hb : b.toNat < 256) : ((r <<< 16) ||| (g <<< 8) ||| b).toNat =
      (r.toNat * 256 + g.toNat) * 256 + b.toNat := by
  have hred : (r <<< 16).toNat = r.toNat * 256 * 256 := by
    rw [shiftLeft_toNat 16 16 rfl (by omega)]
    omega
  have hgreen : (g <<< 8).toNat = g.toNat * 256 := shiftLeft_toNat 8 8 rfl (by omega)
  rw [UInt32.toNat_or, UInt32.toNat_or, hred, hgreen, mul_or, or_toNat hg, or_toNat hb]

theorem pack_alpha_toNat {a r g b : UInt32} (ha : a.toNat < 256) (hr : r.toNat < 256)
    (hg : g.toNat < 256) (hb : b.toNat < 256) :
    ((a <<< 24) ||| (r <<< 16) ||| (g <<< 8) ||| b).toNat =
      ((a.toNat * 256 + r.toNat) * 256 + g.toNat) * 256 + b.toNat := by
  have halpha : (a <<< 24).toNat = a.toNat * 256 * 256 * 256 := by
    rw [shiftLeft_toNat 24 24 rfl (by omega)]
    omega
  have hred : (r <<< 16).toNat = r.toNat * 256 * 256 := by
    rw [shiftLeft_toNat 16 16 rfl (by omega)]
    omega
  have hgreen : (g <<< 8).toNat = g.toNat * 256 := shiftLeft_toNat 8 8 rfl (by omega)
  rw [UInt32.toNat_or, UInt32.toNat_or, UInt32.toNat_or, halpha, hred, hgreen, mul_or, mul_or,
    mul_or, or_toNat hr, or_toNat hg, or_toNat hb]

/-- The channels of four bytes. -/
theorem chan_pack {v : UInt32} {a r g b : Nat} (ha : a < 256) (hr : r < 256) (hg : g < 256)
    (hb : b < 256) (hv : v.toNat = ((a * 256 + r) * 256 + g) * 256 + b) :
    chan v 3 = a ∧ chan v 2 = r ∧ chan v 1 = g ∧ chan v 0 = b := by
  simp only [chan, hv]
  refine ⟨?_, ?_, ?_, ?_⟩
  · omega
  · omega
  · omega
  · omega

/-- A pixel put together from the channels that `f` gives at the three shifts. -/
theorem pack_channels {f : UInt32 → UInt32} {value : Nat → Nat}
    (hf : ∀ k < 3, ∀ shift, shift.toNat = 8 * k → (f shift).toNat = value k ∧ value k < 256) :
    Rgb ((f 16 <<< 16) ||| (f 8 <<< 8) ||| f 0) ∧
      ∀ k < 3, chan ((f 16 <<< 16) ||| (f 8 <<< 8) ||| f 0) k = value k := by
  obtain ⟨hr, hrlt⟩ := hf 2 (by omega) 16 rfl
  obtain ⟨hg, hglt⟩ := hf 1 (by omega) 8 rfl
  obtain ⟨hb, hblt⟩ := hf 0 (by omega) 0 rfl
  have hpack := pack_toNat (hr ▸ hrlt) (hg ▸ hglt) (hb ▸ hblt)
  rw [hr, hg, hb] at hpack
  constructor
  · rw [Rgb, hpack]
    omega
  · obtain ⟨_, hred, hgreen, hblue⟩ := chan_pack (by decide : 0 < 256) hrlt hglt hblt
      (by rw [hpack, Nat.zero_mul, Nat.zero_add])
    intro k hk
    obtain rfl | rfl | rfl : k = 0 ∨ k = 1 ∨ k = 2 := by omega
    · exact hblue
    · exact hgreen
    · exact hred

/-- A fraction of a byte. -/
theorem mul_div_le {d f : Nat} (hd : d < 256) : d * f / 255 ≤ f := by
  have hmul : d * f ≤ 255 * f := Nat.mul_le_mul_right f (by omega)
  omega

theorem mul_lt {d f : Nat} (hd : d < 256) (hf : f < 256) : d * f ≤ 255 * 255 :=
  Nat.mul_le_mul (by omega) (by omega)

theorem inverse_toNat {a : UInt32} (ha : a.toNat < 256) : (255 - a).toNat = 255 - a.toNat := by
  refine UInt32.toNat_sub_of_le _ _ (UInt32.le_iff_toNat_le.mpr ?_)
  exact Nat.le_of_lt_succ ha

theorem mul_toNat {d f : UInt32} (hd : d.toNat < 256) (hf : f.toNat < 256) :
    (d * f).toNat = d.toNat * f.toNat := by
  have hle := mul_lt hd hf
  rw [UInt32.toNat_mul, Nat.mod_eq_of_lt (by omega)]

theorem over_toNat {s d a : UInt32} (hs : s.toNat ≤ a.toNat) (ha : a.toNat < 256)
    (hd : d.toNat < 256) :
    (s + d * (255 - a) / 255).toNat = s.toNat + d.toNat * (255 - a.toNat) / 255 ∧
      (s + d * (255 - a) / 255).toNat < 256 := by
  have hinv := inverse_toNat ha
  have hle := mul_div_le (f := 255 - a.toNat) hd
  have hval : (d * (255 - a) / 255).toNat = d.toNat * (255 - a.toNat) / 255 := by
    rw [UInt32.toNat_div, mul_toNat hd (by omega), hinv]
    rfl
  rw [UInt32.toNat_add, hval, Nat.mod_eq_of_lt (by omega)]
  omega

theorem straight_toNat {s d a : UInt32} (hs : s.toNat < 256) (ha : a.toNat < 256)
    (hd : d.toNat < 256) :
    ((s * a + d * (255 - a)) / 255).toNat =
        (s.toNat * a.toNat + d.toNat * (255 - a.toNat)) / 255 ∧
      ((s * a + d * (255 - a)) / 255).toNat < 256 := by
  have hinv := inverse_toNat ha
  have hsle : s.toNat * a.toNat ≤ 255 * a.toNat := Nat.mul_le_mul_right _ (by omega)
  have hdle : d.toNat * (255 - a.toNat) ≤ 255 * (255 - a.toNat) :=
    Nat.mul_le_mul_right _ (by omega)
  have hval : ((s * a + d * (255 - a)) / 255).toNat =
      (s.toNat * a.toNat + d.toNat * (255 - a.toNat)) / 255 := by
    rw [UInt32.toNat_div, UInt32.toNat_add, mul_toNat hs ha, mul_toNat hd (by omega), hinv,
      Nat.mod_eq_of_lt (by omega)]
    rfl
  rw [hval]
  omega

/-- One channel of `blend`. -/
theorem blend_channel {src : UInt32} (hsrc : Premultiplied src) (dst : UInt32) {k : Nat}
    (hk : k < 3) {shift : UInt32} (hshift : shift.toNat = 8 * k) :
    (byte src shift + byte dst shift * (255 - alpha src) / 255).toNat =
        chan src k + chan dst k * (255 - chan src 3) / 255 ∧
      chan src k + chan dst k * (255 - chan src 3) / 255 < 256 := by
  have ha := chan_three src
  have hs := chan_eq src hk hshift
  have hd := chan_eq dst hk hshift
  have hle := hsrc k hk
  have hlt := chan_lt src 3
  have hlt' := chan_lt dst k
  rw [← hs, ← ha] at hle
  rw [← ha] at hlt
  rw [← hd] at hlt'
  obtain ⟨heq, hbyte⟩ := over_toNat hle hlt hlt'
  rw [heq] at hbyte
  rw [hs, hd, ha] at heq hbyte
  exact ⟨heq, hbyte⟩

theorem blend_over {src : UInt32} (hsrc : Premultiplied src) (dst : UInt32) :
    Over src dst (blend src dst) := by
  have hpack := pack_channels fun k hk shift (hshift : shift.toNat = 8 * k) =>
    blend_channel hsrc dst hk hshift
  exact hpack

/-- One channel of `fill`. -/
theorem fill_channel (argb dst : UInt32) {k : Nat} (hk : k < 3) {shift : UInt32}
    (hshift : shift.toNat = 8 * k) :
    ((byte argb shift * alpha argb + byte dst shift * (255 - alpha argb)) / 255).toNat =
        (chan argb k * chan argb 3 + chan dst k * (255 - chan argb 3)) / 255 ∧
      (chan argb k * chan argb 3 + chan dst k * (255 - chan argb 3)) / 255 < 256 := by
  have ha := chan_three argb
  have hs := chan_eq argb hk hshift
  have hd := chan_eq dst hk hshift
  have hlt := chan_lt argb k
  have hlt' := chan_lt argb 3
  have hlt'' := chan_lt dst k
  rw [← hs] at hlt
  rw [← ha] at hlt'
  rw [← hd] at hlt''
  obtain ⟨heq, hbyte⟩ := straight_toNat hlt hlt' hlt''
  rw [heq] at hbyte
  rw [hs, hd, ha] at heq hbyte
  exact ⟨heq, hbyte⟩

theorem colour_toNat (argb : UInt32) : (argb &&& 0x00FFFFFF).toNat = argb.toNat % 256 ^ 3 := by
  rw [UInt32.toNat_and]
  exact Nat.and_two_pow_sub_one_eq_mod argb.toNat 24

theorem colour_rgb (argb : UInt32) : Rgb (argb &&& 0x00FFFFFF) := by
  rw [Rgb, colour_toNat]
  exact Nat.mod_lt _ (by decide)

/-- An opaque colour replaces the pixel, which is what the blend comes to. -/
theorem solid_over {argb : UInt32} (ha : chan argb 3 = 255) (dst : UInt32) :
    OverStraight argb dst (argb &&& 0x00FFFFFF) := by
  refine ⟨colour_rgb argb, fun k hk => ?_⟩
  rw [ha, Nat.sub_self, Nat.mul_zero, Nat.add_zero, Nat.mul_div_cancel _ (by decide), chan,
    colour_toNat, chan]
  obtain rfl | rfl | rfl : k = 0 ∨ k = 1 ∨ k = 2 := by omega
  · omega
  · omega
  · omega

theorem fill_over (argb dst : UInt32) : OverStraight argb dst (fill argb dst) := by
  have ha := chan_three argb
  have hpack := pack_channels fun k hk shift (hshift : shift.toNat = 8 * k) =>
    fill_channel argb dst hk hshift
  by_cases hsolid : alpha argb = 255
  · rw [fill, if_pos hsolid]
    rw [hsolid] at ha
    exact solid_over ha.symm dst
  · rw [fill, if_neg hsolid]
    exact hpack

/-- The upload multiplies every colour channel by alpha. -/
theorem premultiplied_upload (rgba : List UInt8) (i : Nat) :
    Premultiplied (premultiplied rgba i) := by
  let channel := fun (k : Nat) => (rgba.getD (i * 4 + k) 0).toUInt32
  have hbyte : ∀ k, (channel k).toNat < 256 := fun k => (rgba.getD (i * 4 + k) 0).toNat_lt
  have hcolour : ∀ k, (channel k * channel 3 / 255).toNat ≤ (channel 3).toNat := by
    intro k
    rw [UInt32.toNat_div, mul_toNat (hbyte k) (hbyte 3)]
    exact mul_div_le (hbyte k)
  have ha := hbyte 3
  have hr := hcolour 0
  have hg := hcolour 1
  have hb := hcolour 2
  have hpack : (premultiplied rgba i).toNat =
      (((channel 3).toNat * 256 + (channel 0 * channel 3 / 255).toNat) * 256 +
        (channel 1 * channel 3 / 255).toNat) * 256 + (channel 2 * channel 3 / 255).toNat :=
    pack_alpha_toNat ha (Nat.lt_of_le_of_lt hr ha) (Nat.lt_of_le_of_lt hg ha)
      (Nat.lt_of_le_of_lt hb ha)
  obtain ⟨halpha, hred, hgreen, hblue⟩ := chan_pack ha (Nat.lt_of_le_of_lt hr ha)
    (Nat.lt_of_le_of_lt hg ha) (Nat.lt_of_le_of_lt hb ha) hpack
  intro k hk
  rw [halpha]
  obtain rfl | rfl | rfl : k = 0 ∨ k = 1 ∨ k = 2 := by omega
  · rw [hblue]
    exact hb
  · rw [hgreen]
    exact hg
  · rw [hred]
    exact hr

end Arithmetic

section Drawing

open Painting

variable {write : Nat → UInt32 → UInt32 → Prop}

theorem touches_setAt {di : Nat} {value : UInt32 → UInt32} (h : ∀ old, write di old (value old)) :
    Touches (setAt · di value) (· = di) write := by
  intro canvas canvas' hok
  simp only [setAt] at hok
  cases hget : canvas[di]? with
  | none =>
    rw [hget] at hok
    cases hok
  | some dst =>
    rw [hget] at hok
    cases hok
    have hlt : di < canvas.length := (List.getElem?_eq_some_iff.mp hget).1
    refine ⟨List.length_set, fun i => ?_⟩
    by_cases hi : i = di
    · subst hi
      exact .inr ⟨rfl, dst, value dst, hget, List.getElem?_set_self hlt, h dst⟩
    · exact .inl (List.getElem?_set_ne fun heq => hi heq.symm)

theorem touches_range {lo hi : Int} {body : Int → Canvas → Except Fault Canvas}
    {area : Int → Nat → Prop} (h : ∀ i, lo ≤ i → i < hi → Touches (body i) (area i) write)
    (hdisjoint : ∀ i j c, area i c → area j c → i = j) :
    Touches (loop lo hi body) (fun c => ∃ i, area i c) write := by
  have hrounds : Touches (loop lo hi body)
      (fun c => ∃ k ∈ List.range (hi - lo).toNat, area (lo + k) c) write := by
    refine touches_loop (fun k hk => h _ (by omega) ?_) ?_
    · rw [List.mem_range] at hk
      omega
    · refine List.Pairwise.imp ?_ List.pairwise_lt_range
      intro k k' hlt c hin hin'
      have heq := hdisjoint _ _ c hin hin'
      omega
  exact hrounds.mono fun c ⟨k, _, hin⟩ => ⟨lo + k, hin⟩

theorem touches_onCanvas {coordinate : Except Fault Int} {size : Int}
    {draw : Int → Canvas → Except Fault Canvas} {area : Int → Nat → Prop}
    (h : ∀ at_, coordinate = .ok at_ → 0 ≤ at_ → at_ < size → Touches (draw at_) (area at_) write) :
    Touches (onCanvas coordinate size draw)
      (fun c => ∃ at_, coordinate = .ok at_ ∧ 0 ≤ at_ ∧ at_ < size ∧ area at_ c) write := by
  intro canvas canvas' hok
  cases coordinate with
  | error fault => cases hok
  | ok at_ =>
    simp only [onCanvas] at hok
    split at hok
    · exact touches_nothing canvas canvas' hok
    · have hdraw := h at_ rfl (by omega) (by omega)
      exact hdraw.mono (fun c hin => ⟨at_, rfl, by omega, by omega, hin⟩) canvas canvas' hok

/-- The columns of the row `y`. -/
theorem touches_row {coordX : Int → Except Fault Int} {cw : UInt32} {lo hi : Int} {y : Nat}
    {pixel : Int → Int → Canvas → Except Fault Canvas}
    (hinj : ∀ i j x, coordX i = .ok x → coordX j = .ok x → i = j)
    (h : ∀ j x, lo ≤ j → j < hi → coordX j = .ok x → 0 ≤ x → x < asI32 cw →
      Touches (pixel j x) (· = y * cw.toNat + x.toNat) write) :
    Touches (loop lo hi fun j => onCanvas (coordX j) (asI32 cw) (pixel j))
      (fun c => c / cw.toNat = y) write := by
  have hcolumns : Touches (loop lo hi fun j => onCanvas (coordX j) (asI32 cw) (pixel j))
      (fun c => ∃ j x, coordX j = .ok x ∧ 0 ≤ x ∧ x < asI32 cw ∧ c = y * cw.toNat + x.toNat)
      write := by
    refine touches_range (fun j hlo hhi => touches_onCanvas fun x hx h0 hlt =>
      h j x hlo hhi hx h0 hlt) ?_
    rintro i j c ⟨x, hx, h0, hlt, rfl⟩ ⟨x', hx', h0', hlt', heq⟩
    have hxx : x = x' := by omega
    exact hinj i j x hx (hxx ▸ hx')
  refine hcolumns.mono ?_
  rintro c ⟨j, x, _, h0, hlt, rfl⟩
  exact index_div y (toNat_lt h0 hlt)

/-- The two loops of a drawing routine write each cell of the canvas at most once. -/
theorem touches_grid {coordX coordY : Int → Except Fault Int} {cw : UInt32} {ch lo hi lo' hi' : Int}
    {pixel : Int → Int → Int → Int → Canvas → Except Fault Canvas}
    (hinjX : ∀ i j x, coordX i = .ok x → coordX j = .ok x → i = j)
    (hinjY : ∀ i j y, coordY i = .ok y → coordY j = .ok y → i = j)
    (h : ∀ i j y x, lo ≤ i → i < hi → lo' ≤ j → j < hi' → coordY i = .ok y → 0 ≤ y →
      coordX j = .ok x → 0 ≤ x → x < asI32 cw →
      Touches (pixel i y j x) (· = y.toNat * cw.toNat + x.toNat) write) :
    Touches (loop lo hi fun i => onCanvas (coordY i) ch fun y =>
      loop lo' hi' fun j => onCanvas (coordX j) (asI32 cw) (pixel i y j))
      (fun _ => True) write := by
  have hrows : Touches (loop lo hi fun i => onCanvas (coordY i) ch fun y =>
      loop lo' hi' fun j => onCanvas (coordX j) (asI32 cw) (pixel i y j))
      (fun c => ∃ i y, coordY i = .ok y ∧ 0 ≤ y ∧ y < ch ∧ c / cw.toNat = y.toNat) write := by
    refine touches_range (fun i hlo hhi => touches_onCanvas fun y hy h0 _ => touches_row hinjX
      fun j x hlo' hhi' hx h0' hlt => h i j y x hlo hhi hlo' hhi' hy h0 hx h0' hlt) ?_
    rintro i j c ⟨y, hy, h0, _, hc⟩ ⟨y', hy', h0', _, hc'⟩
    have hyy : y = y' := by omega
    exact hinjY i j y hy (hyy ▸ hy')
  exact hrows.mono fun _ _ => trivial

/-- The cell `i` shows the pixel of the texture that the blit puts there, over what it showed. -/
def BlitWrites (t : Texture) (cw : Nat) (sx sy dx dy : Int) (i : Nat) (old new : UInt32) : Prop :=
  ∃ (sxi syi x y : Nat) (src : UInt32), t.px[syi * t.w.toNat + sxi]? = some src ∧
    ((x : Int) = dx + (sxi - sx) ∧ (y : Int) = dy + (syi - sy)) ∧ (x < cw ∧ i = y * cw + x) ∧
    Over src old new

theorem target_injective {d s i j at_ : Int} (h : target d i s = .ok at_)
    (h' : target d j s = .ok at_) : i = j := by
  have heq := (target_inv h).1
  have heq' := (target_inv h').1
  omega

theorem touches_blit {s : GgState} {t : Texture} {sx sy dx dy lo hi : Int} {lo' hi' : Int}
    (ht : ∀ px ∈ t.px, Premultiplied px) (hlo : 0 ≤ lo) (hlo' : 0 ≤ lo') :
    Touches (loop lo hi fun syi => onCanvas (target dy syi sy) (asI32 s.canvasH) fun y =>
        loop lo' hi' fun sxi => onCanvas (target dx sxi sx) (asI32 s.canvasW) fun x =>
          blitPixel t s.canvasW.toNat sxi syi x y)
      (fun _ => True) (BlitWrites t s.canvasW.toNat sx sy dx dy) := by
  refine touches_grid (fun _ _ _ => target_injective) (fun _ _ _ => target_injective) ?_
  intro syi sxi y x hsy _ hsx _ hy h0 hx h0' hlt canvas canvas' hok
  simp only [blitPixel] at hok
  cases hget : t.px[syi.toNat * t.w.toNat + sxi.toNat]? with
  | none =>
    rw [hget] at hok
    cases hok
  | some src =>
    rw [hget] at hok
    dsimp only at hok
    split at hok
    · exact touches_nothing canvas canvas' hok
    · refine touches_setAt (fun old => ?_) canvas canvas' hok
      have hx' := (target_inv hx).1
      have hy' := (target_inv hy).1
      exact ⟨sxi.toNat, syi.toNat, x.toNat, y.toNat, src, hget, ⟨by omega, by omega⟩,
        ⟨toNat_lt h0' hlt, rfl⟩, blend_over (ht src (List.mem_of_getElem? hget)) old⟩

end Drawing

section Steps

variable {s s' : GgState}

/-- Textures are premultiplied, and the canvas has no fourth channel. -/
structure Channels (s : GgState) : Prop where
  textures : ∀ t ∈ s.textures, ∀ px ∈ t.px, Premultiplied px
  canvas : ∀ px ∈ s.canvas, Rgb px

/-- How a drawing call changes the cell `i` of the canvas. -/
def Writes (s : GgState) : Call → Nat → UInt32 → UInt32 → Prop
  | .sprite tex dx dy => fun i old new => ∃ t, s.textures[tex.toNat - 1]? = some t ∧
    BlitWrites t s.canvasW.toNat 0 0 dx.toInt dy.toInt i old new
  | .spriteSub tex sx sy _ _ dx dy => fun i old new => ∃ t, s.textures[tex.toNat - 1]? = some t ∧
    BlitWrites t s.canvasW.toNat sx.toInt sy.toInt dx.toInt dy.toInt i old new
  | .rect _ _ _ _ argb => fun _ old new => OverStraight argb old new
  | .tex .. | .frame .. | .flush .. | .show .. => fun _ _ _ => False

/-- The cell is as it was, or as the call writes it. -/
def Changed (write : Nat → UInt32 → UInt32 → Prop) (canvas canvas' : Canvas) : Prop :=
  canvas'.length = canvas.length ∧ ∀ i, canvas'[i]? = canvas[i]? ∨
    ∃ old new, canvas[i]? = some old ∧ canvas'[i]? = some new ∧ write i old new

theorem changed_same (write : Nat → UInt32 → UInt32 → Prop) (canvas : Canvas) :
    Changed write canvas canvas :=
  ⟨rfl, fun _ => .inl rfl⟩

theorem changed_of_touches {draw : Canvas → Except Fault Canvas} {area : Nat → Prop}
    {write : Nat → UInt32 → UInt32 → Prop} (h : Painting.Touches draw area write)
    {canvas canvas' : Canvas} (hok : draw canvas = .ok canvas') : Changed write canvas canvas' := by
  obtain ⟨hlen, hcells⟩ := h canvas canvas' hok
  refine ⟨hlen, fun i => ?_⟩
  rcases hcells i with hkept | ⟨_, hwrite⟩
  · exact .inl hkept
  · exact .inr hwrite

theorem blitSub_changed (h : Channels s) {tex : UInt32} {sx sy sw sh dx dy : Int}
    (hok : s.blitSub tex sx sy sw sh dx dy = .ok s') :
    s'.textures = s.textures ∧ (s'.canvas = s.canvas ∨ ∃ t, s.textures[tex.toNat - 1]? = some t ∧
      Changed (BlitWrites t s.canvasW.toNat sx sy dx dy) s.canvas s'.canvas) := by
  refine ⟨blitSub_textures hok, ?_⟩
  simp only [GgState.blitSub] at hok
  split at hok
  · cases hok
    exact .inl rfl
  · split at hok
    · cases hok
    · rename_i t ht
      obtain ⟨canvas, hdraw, rfl⟩ := except_map_ok hok
      have hpx := h.textures t (List.mem_of_getElem? ht)
      exact .inr ⟨t, ht, changed_of_touches
        (touches_blit hpx (Int.le_max_right sy 0) (Int.le_max_right sx 0)) hdraw⟩

theorem rect_changed {dx dy : Int32} {w h argb : UInt32} (hok : s.rect dx dy w h argb = .ok s') :
    s'.textures = s.textures ∧
      Changed (fun _ old new => OverStraight argb old new) s.canvas s'.canvas := by
  simp only [GgState.rect] at hok
  split at hok
  · cases hok
    exact ⟨rfl, changed_same _ _⟩
  · obtain ⟨canvas, hdraw, rfl⟩ := except_map_ok hok
    have hinj : ∀ (d i j at_ : Int), checkI32 (d + i) = .ok at_ → checkI32 (d + j) = .ok at_ →
        i = j := by
      intro d i j at_ hi hj
      have heq := (checkI32_inv hi).1
      have heq' := (checkI32_inv hj).1
      omega
    refine ⟨rfl, changed_of_touches (touches_grid (hinj _) (hinj _) ?_) hdraw⟩
    intro _ _ _ _ _ _ _ _ _ _ _ _ _
    exact touches_setAt fun old => fill_over argb old

theorem Changed.mono {write write' : Nat → UInt32 → UInt32 → Prop} {canvas canvas' : Canvas}
    (h : Changed write canvas canvas') (hwrite : ∀ i old new, write i old new → write' i old new) :
    Changed write' canvas canvas' := by
  refine ⟨h.1, fun i => ?_⟩
  rcases h.2 i with hkept | ⟨old, new, hold, hnew, hw⟩
  · exact .inl hkept
  · exact .inr ⟨old, new, hold, hnew, hwrite i old new hw⟩

/-- A blit over the texture of the id `tex`. -/
theorem blit_writes (h : Channels s) {tex : UInt32} {sx sy sw sh dx dy : Int}
    (hok : s.blitSub tex sx sy sw sh dx dy = .ok s') :
    Changed (fun i old new => ∃ t, s.textures[tex.toNat - 1]? = some t ∧
      BlitWrites t s.canvasW.toNat sx sy dx dy i old new) s.canvas s'.canvas := by
  obtain ⟨_, hsame | ⟨t, ht, hchanged⟩⟩ := blitSub_changed h hok
  · rw [hsame]
    exact changed_same _ _
  · exact hchanged.mono fun i old new hw => ⟨t, ht, hw⟩

/-- A drawing call leaves each cell alone or puts the blend of its source and the cell there. -/
theorem step_changed (h : Channels s) {c : Call} (hdraws : c.draws = true)
    (hok : s.step c = .ok s') :
    s'.textures = s.textures ∧ Changed (Writes s c) s.canvas s'.canvas := by
  cases c with
  | tex | frame | flush | «show» => cases hdraws
  | rect dx dy w h' argb => exact rect_changed hok
  | spriteSub tex sx sy sw sh dx dy => exact ⟨(blitSub_changed h hok).1, blit_writes h hok⟩
  | sprite tex dx dy =>
    simp only [GgState.step, GgState.sprite] at hok
    split at hok
    · cases hok
      exact ⟨rfl, changed_same _ _⟩
    · exact ⟨(blitSub_changed h hok).1, blit_writes h hok⟩

theorem writes_rgb {c : Call} {i : Nat} {old new : UInt32} (h : Writes s c i old new) :
    Rgb new := by
  cases c with
  | tex | frame | flush | «show» => exact h.elim
  | rect dx dy w h' argb => exact h.1
  | spriteSub tex sx sy sw sh dx dy =>
    obtain ⟨_, _, _, _, _, _, _, _, _, _, hover⟩ := h
    exact hover.1
  | sprite tex dx dy =>
    obtain ⟨_, _, _, _, _, _, _, _, _, _, hover⟩ := h
    exact hover.1

theorem Channels.changed (h : Channels s) {c : Call} (htextures : s'.textures = s.textures)
    (hchanged : Changed (Writes s c) s.canvas s'.canvas) : Channels s' := by
  constructor
  · rw [htextures]
    exact h.textures
  · intro px hpx
    obtain ⟨i, hi⟩ := List.mem_iff_getElem?.mp hpx
    rcases hchanged.2 i with hkept | ⟨old, new, _, hnew, hwrite⟩
    · rw [hkept] at hi
      exact h.canvas px (List.mem_of_getElem? hi)
    · have heq : new = px := Option.some.inj (hnew.symm.trans hi)
      rw [← heq]
      exact writes_rgb hwrite

theorem channels_tex (h : Channels s) (rgba : List UInt8) (w h' : UInt32) :
    Channels (s.tex rgba w h') := by
  simp only [GgState.tex]
  split
  · exact h
  · refine ⟨fun t ht px hpx => ?_, h.canvas⟩
    rcases List.mem_append.mp ht with ht | ht
    · exact h.textures t ht px hpx
    · cases List.mem_singleton.mp ht
      obtain ⟨i, _, rfl⟩ := List.mem_map.mp hpx
      exact premultiplied_upload rgba i

theorem channels_frame (h : Channels s) (w h' clearArgb : UInt32) :
    Channels (s.frame w h' clearArgb) := by
  constructor
  · simp only [GgState.frame]
    split
    · exact h.textures
    · exact h.textures
  · intro px hpx
    obtain ⟨_, _, rfl⟩ := List.mem_map.mp hpx
    exact colour_rgb clearArgb

theorem channels_new : Channels GgState.new := ⟨List.forall_mem_nil _, List.forall_mem_nil _⟩

theorem channels_step (h : Channels s) {c : Call} (hok : s.step c = .ok s') : Channels s' := by
  cases c with
  | tex rgba w h' =>
    cases hok
    exact channels_tex h rgba w h'
  | frame w h' clearArgb =>
    cases hok
    exact channels_frame h w h' clearArgb
  | flush winW winH =>
    cases hok
    simp only [GgState.flush]
    split
    · exact h
    · exact ⟨h.textures, h.canvas⟩
  | «show» buf w h' winW winH =>
    cases hok
    simp only [GgState.show]
    split
    · exact h
    · exact ⟨h.textures, h.canvas⟩
  | sprite | spriteSub | rect =>
    obtain ⟨htextures, hchanged⟩ := step_changed h rfl hok
    exact h.changed htextures hchanged

theorem channels_run (h : Channels s) {calls : List Call} (hok : s.run calls = .ok s') :
    Channels s' := by
  induction calls generalizing s with
  | nil =>
    cases hok
    exact h
  | cons c calls ih =>
    simp only [GgState.run, List.foldlM_cons] at hok
    obtain ⟨mid, hfirst, hrest⟩ := except_bind_ok hok
    exact ih (channels_step h hfirst) hrest

end Steps

end BetLang.Compositor
