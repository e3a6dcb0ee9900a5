import Qmk.Painter.Pixels

/-! # Surfaces

The part of a surface that painter images are drawn to: pixels that are streamed to the
viewport go from its left to its right edge, row by row. `qp_internal_appender` collects
the pixels of an image in a buffer and streams the buffer whenever it is full.
-/

namespace Qmk.Painter

/-- The geometry of a device, and `qp_internal_num_pixels_in_buffer`. -/
structure Panel where
  width : ℕ
  height : ℕ
  maxPixels : ℕ
  width_lt : width < 2 ^ 16
  height_lt : height < 2 ^ 16
  maxPixels_pos : 0 < maxPixels

structure Viewport where
  l : ℕ
  t : ℕ
  r : ℕ
  b : ℕ
  pixdataX : ℕ
  pixdataY : ℕ

/-- `surface_painter_device_t`, with the pixels in native colors. -/
structure Surface (γ : Type*) where
  viewport : Viewport
  screen : ℕ → ℕ → γ

section Driver

variable {γ : Type*} (panel : Panel)

def Surface.setViewport (left top right bottom : ℕ) (d : Surface γ) : Surface γ :=
  { d with viewport := ⟨left, top, right, bottom, left, top⟩ }

/-- `qp_surface_increment_pixdata_location`. -/
def Viewport.increment (v : Viewport) : Viewport :=
  let x := (v.pixdataX + 1) % 2 ^ 16
  let v := if v.r < x then { v with pixdataX := v.l, pixdataY := (v.pixdataY + 1) % 2 ^ 16 }
    else { v with pixdataX := x }
  if v.b < v.pixdataY then { v with pixdataY := v.t } else v

def Surface.setpixel (x y : ℕ) (c : γ) (d : Surface γ) : Surface γ :=
  if panel.width ≤ x ∨ panel.height ≤ y then d
  else { d with screen := fun a b => if a = x ∧ b = y then c else d.screen a b }

def Surface.appendPixel (d : Surface γ) (c : γ) : Surface γ :=
  let d := d.setpixel panel d.viewport.pixdataX d.viewport.pixdataY c
  { d with viewport := d.viewport.increment }

def Surface.streamPixdata (data : List γ) (d : Surface γ) : Surface γ :=
  data.foldl (Surface.appendPixel panel) d

/-- `qp_internal_pixel_output_state_t`, with the device and the global buffer. -/
structure PixelOutput (γ : Type*) where
  device : Surface γ
  buffer : ℕ → γ
  pixelWritePos : ℕ := 0

def PixelOutput.pixdata (t : PixelOutput γ) : List γ := (List.range t.pixelWritePos).map t.buffer

def PixelOutput.send (t : PixelOutput γ) : PixelOutput γ :=
  { t with device := t.device.streamPixdata panel t.pixdata, pixelWritePos := 0 }

def pixelAppender (palette : UInt8 → γ) (index : UInt8) (t : PixelOutput γ) :
    Bool × PixelOutput γ :=
  let t := { t with
    buffer := fun n => if n = t.pixelWritePos then palette index else t.buffer n
    pixelWritePos := t.pixelWritePos + 1 }
  (true, if t.pixelWritePos = panel.maxPixels then t.send panel else t)

def internalAppender {σ : Type*} (input : σ → Option UInt8 × σ) (palette : UInt8 → γ)
    (buffer : ℕ → γ) (bpp pixelCount : ℕ) (s : σ) (d : Surface γ) : Bool × σ × Surface γ :=
  let r := decodePalette input (pixelAppender panel palette) bpp pixelCount s
    { device := d, buffer }
  let t := if r.1 ∧ 0 < r.2.2.pixelWritePos then r.2.2.send panel else r.2.2
  (r.1, r.2.1, t.device)

end Driver

section Streaming

variable {γ : Type*} {panel : Panel} {palette : UInt8 → γ} {t : PixelOutput γ}

theorem streamPixdata_append (as bs : List γ) (d : Surface γ) :
    d.streamPixdata panel (as ++ bs) = (d.streamPixdata panel as).streamPixdata panel bs :=
  List.foldl_append

def PixelOutput.sent (panel : Panel) (t : PixelOutput γ) : Surface γ :=
  t.device.streamPixdata panel t.pixdata

theorem sent_send (t : PixelOutput γ) : (t.send panel).sent panel = t.sent panel := rfl

theorem sent_pixelAppender (index : UInt8) :
    (pixelAppender panel palette index t).2.sent panel =
      (t.sent panel).streamPixdata panel [palette index] := by
  have hpixdata : PixelOutput.pixdata { t with
      buffer := fun n => if n = t.pixelWritePos then palette index else t.buffer n
      pixelWritePos := t.pixelWritePos + 1 } = t.pixdata ++ [palette index] := by
    simp only [PixelOutput.pixdata, List.range_succ, List.map_append, List.map_singleton, if_true]
    congr 1
    apply List.map_congr_left
    intro n hn
    rw [if_neg (List.mem_range.mp hn).ne]
  unfold pixelAppender
  dsimp only
  split_ifs
  · rw [sent_send, PixelOutput.sent, hpixdata, streamPixdata_append]
    rfl
  · rw [PixelOutput.sent, hpixdata, streamPixdata_append]
    rfl

theorem sent_outputAll (indices : List UInt8) (t : PixelOutput γ) :
    (outputAll (pixelAppender panel palette) indices t).1 = true ∧
      (outputAll (pixelAppender panel palette) indices t).2.sent panel =
        (t.sent panel).streamPixdata panel (indices.map palette) := by
  induction indices generalizing t with
  | nil => exact ⟨rfl, rfl⟩
  | cons p ps ih =>
    obtain ⟨hok, hsent⟩ := ih (pixelAppender panel palette p t).2
    have hhead : (pixelAppender panel palette p t).1 = true := rfl
    rw [outputAll, if_pos hhead]
    refine ⟨hok, ?_⟩
    rw [hsent, sent_pixelAppender]
    rfl

/-- All pixels of an image are streamed to the device, whatever the size of the buffer. -/
theorem internalAppender_indices {σ : Type*} {input : σ → Option UInt8 × σ} {buffer : ℕ → γ}
    {format : Format} (hformat : format.Indexed) {im : Converted} (him : im.Suits format)
    {raw : List UInt8} (hraw : convertImageBytes format im = some raw) {s : σ}
    (hinput : (pull input raw.length s).1 = raw.map some) (d : Surface γ) :
    (internalAppender panel input palette buffer format.bpp (indices format im).length s d).1 =
        true ∧
      (internalAppender panel input palette buffer format.bpp (indices format im).length s d).2.2 =
        d.streamPixdata panel ((indices format im).map palette) := by
  have hdecoded := @decodePalette_indices _ _ input (pixelAppender panel palette) format hformat im
    him raw hraw s hinput ⟨d, buffer, 0⟩
  obtain ⟨hall, hsent⟩ := @sent_outputAll _ panel palette (indices format im) ⟨d, buffer, 0⟩
  rw [← hdecoded.1] at hall
  rw [← hdecoded.2] at hsent
  simp only [internalAppender, hall, true_and]
  rw [show d.streamPixdata panel _ = _ from hsent.symm]
  split_ifs with hpos
  · rfl
  · rw [PixelOutput.sent, PixelOutput.pixdata, Nat.eq_zero_of_not_pos hpos]
    rfl

theorem internalAppender_none {σ : Type*} {input : σ → Option UInt8 × σ} {buffer : ℕ → γ}
    {bpp pixelCount : ℕ} {s : σ} (hs : (input s).1 = none) (hcount : pixelCount ≠ 0)
    (d : Surface γ) :
    (internalAppender panel input palette buffer bpp pixelCount s d).1 = false := by
  unfold internalAppender
  exact decodePalette_none hs hcount _

end Streaming

section Raster

variable {γ : Type*} {panel : Panel} {d : Surface γ} {im : Image γ} {l t : ℕ}

theorem Image.toList_eq_range (im : Image γ) : im.toList =
    (List.range (im.width * im.height)).map fun k => im.pixel (k % im.width) (k / im.width) := by
  obtain ⟨w, h, pixel⟩ := im
  unfold Image.toList
  induction h with
  | zero => rfl
  | succ h ih =>
    rw [List.range_succ, List.flatMap_append, ih, Nat.mul_succ, List.range_add, List.map_append,
      List.flatMap_singleton, List.map_map]
    congr 1
    apply List.map_congr_left
    intro x hx
    have hx : x < w := List.mem_range.mp hx
    dsimp only [Function.comp_apply]
    rw [Nat.mul_add_mod, Nat.mod_eq_of_lt hx, Nat.mul_add_div (by omega), Nat.div_eq_of_lt hx,
      Nat.add_zero]

/-- The first `k` pixels of an image are drawn at `l` and `t`. -/
structure Drawn (im : Image γ) (l t : ℕ) (d : Surface γ) (k : ℕ) (d' : Surface γ) : Prop where
  viewport : k < im.width * im.height → d'.viewport = ⟨l, t, l + im.width - 1, t + im.height - 1,
    l + k % im.width, t + k / im.width⟩
  screen : d'.screen = fun a b => if l ≤ a ∧ a < l + im.width ∧ t ≤ b ∧ b < t + im.height ∧
    (b - t) * im.width + (a - l) < k then im.pixel (a - l) (b - t) else d.screen a b

theorem next_pixel {w : ℕ} (hw : 0 < w) (k : ℕ) :
    k % w + 1 < w ∧ (k + 1) % w = k % w + 1 ∧ (k + 1) / w = k / w ∨
      k % w + 1 = w ∧ (k + 1) % w = 0 ∧ (k + 1) / w = k / w + 1 := by
  have hlt := Nat.mod_lt k hw
  have hk := Nat.mod_add_div k w
  rcases Nat.lt_or_ge (k % w + 1) w with hx | hx
  · have := (Nat.div_mod_unique (a := k + 1) (d := k / w) (c := k % w + 1) hw).mpr ⟨by omega, hx⟩
    exact .inl ⟨hx, this.2, this.1⟩
  · have hmul : w * (k / w + 1) = w * (k / w) + w := Nat.mul_succ _ _
    have := (Nat.div_mod_unique (a := k + 1) (d := k / w + 1) (c := 0) hw).mpr ⟨by omega, hw⟩
    exact .inr ⟨by omega, this.2, this.1⟩

theorem increment_raster {w h k : ℕ} (hwidth : l + w < 2 ^ 16) (hheight : t + h < 2 ^ 16)
    (hk : k + 1 < w * h) :
    (⟨l, t, l + w - 1, t + h - 1, l + k % w, t + k / w⟩ : Viewport).increment =
      ⟨l, t, l + w - 1, t + h - 1, l + (k + 1) % w, t + (k + 1) / w⟩ := by
  have hw : 0 < w := Nat.pos_of_ne_zero fun hw => by simp [hw] at hk
  have hrow : (k + 1) / w < h := Nat.div_lt_of_lt_mul hk
  unfold Viewport.increment
  rcases next_pixel hw k with ⟨hx, hmod, hdiv⟩ | ⟨hx, hmod, hdiv⟩
  · have hcolumn : (l + k % w + 1) % 2 ^ 16 = l + k % w + 1 := Nat.mod_eq_of_lt (by omega)
    have hright : ¬ l + w - 1 < l + k % w + 1 := by omega
    have hbottom : ¬ t + h - 1 < t + k / w := by omega
    simp only [hmod, hdiv, hcolumn, if_neg hright, if_neg hbottom]
    rfl
  · have hcolumn : (l + k % w + 1) % 2 ^ 16 = l + w := by
      rw [Nat.add_assoc, hx]
      exact Nat.mod_eq_of_lt (by omega)
    have hnext : (t + k / w + 1) % 2 ^ 16 = t + k / w + 1 := Nat.mod_eq_of_lt (by omega)
    have hright : l + w - 1 < l + w := by omega
    have hbottom : ¬ t + h - 1 < t + k / w + 1 := by omega
    simp only [hmod, hdiv, hcolumn, hnext, if_pos hright, if_neg hbottom]
    rfl

theorem viewport_appendPixel (d : Surface γ) (c : γ) :
    (d.appendPixel panel c).viewport = d.viewport.increment := by
  unfold Surface.appendPixel Surface.setpixel
  split_ifs <;> rfl

theorem screen_appendPixel {x y : ℕ} (hx : d.viewport.pixdataX = x) (hy : d.viewport.pixdataY = y)
    (hinside : x < panel.width ∧ y < panel.height) (c : γ) (a b : ℕ) :
    (d.appendPixel panel c).screen a b = if a = x ∧ b = y then c else d.screen a b := by
  subst hx hy
  unfold Surface.appendPixel Surface.setpixel
  rw [if_neg (by omega)]

theorem Drawn.succ {k : ℕ} {d' : Surface γ} (hwidth : l + im.width ≤ panel.width)
    (hheight : t + im.height ≤ panel.height) (hk : k < im.width * im.height)
    (h : Drawn im l t d k d') : Drawn im l t d (k + 1)
      (d'.appendPixel panel (im.pixel (k % im.width) (k / im.width))) := by
  have hw : 0 < im.width := Nat.pos_of_ne_zero fun hw => by simp [hw] at hk
  have hpanel := panel.width_lt
  have hpanel' := panel.height_lt
  have hx := Nat.mod_lt k hw
  have hrow : k / im.width < im.height := Nat.div_lt_of_lt_mul hk
  have hsplit := Nat.mod_add_div k im.width
  have hviewport := h.viewport hk
  refine ⟨fun hnext => ?_, ?_⟩
  · rw [viewport_appendPixel, hviewport]
    exact increment_raster (by omega) (by omega) hnext
  ext a b
  rw [screen_appendPixel (x := l + k % im.width) (y := t + k / im.width) (by rw [hviewport])
    (by rw [hviewport]) (by omega), h.screen]
  by_cases hab : a = l + k % im.width ∧ b = t + k / im.width
  · obtain ⟨rfl, rfl⟩ := hab
    rw [if_pos ⟨rfl, rfl⟩, Nat.add_sub_cancel_left, Nat.add_sub_cancel_left, if_pos]
    rw [Nat.mul_comm (k / im.width)]
    exact ⟨by omega, by omega, Nat.le_add_right _ _, by omega, by omega⟩
  · rw [if_neg hab]
    apply if_congr _ rfl rfl
    constructor
    · rintro ⟨hl, hr, ht, hb, hlt⟩
      exact ⟨hl, hr, ht, hb, by omega⟩
    · rintro ⟨hl, hr, ht, hb, hlt⟩
      refine ⟨hl, hr, ht, hb, Nat.lt_of_le_of_ne (by omega) fun heq => hab ?_⟩
      have := (Nat.div_mod_unique (a := k) (d := b - t) (c := a - l) hw).mpr
        ⟨by rw [Nat.mul_comm]; omega, by omega⟩
      omega

theorem streamPixdata_image (hwidth : l + im.width ≤ panel.width)
    (hheight : t + im.height ≤ panel.height) (d : Surface γ) :
    ((d.setViewport l t (l + im.width - 1) (t + im.height - 1)).streamPixdata panel
      im.toList).screen = fun a b =>
        if l ≤ a ∧ a < l + im.width ∧ t ≤ b ∧ b < t + im.height then im.pixel (a - l) (b - t)
        else d.screen a b := by
  have hdrawn : ∀ k ≤ im.width * im.height, Drawn im l t d k
      ((d.setViewport l t (l + im.width - 1) (t + im.height - 1)).streamPixdata panel
        ((List.range k).map fun k => im.pixel (k % im.width) (k / im.width))) := by
    intro k hk
    induction k with
    | zero => exact ⟨fun _ => by simp [Surface.setViewport, Surface.streamPixdata], by simp; rfl⟩
    | succ k ih =>
      rw [List.range_succ, List.map_append, streamPixdata_append]
      exact (ih (by omega)).succ hwidth hheight hk
  rw [Image.toList_eq_range, (hdrawn _ le_rfl).screen]
  ext a b
  apply if_congr _ rfl rfl
  constructor
  · rintro ⟨hl, hr, ht, hb, -⟩
    exact ⟨hl, hr, ht, hb⟩
  · rintro ⟨hl, hr, ht, hb⟩
    refine ⟨hl, hr, ht, hb, ?_⟩
    have hrow : (b - t + 1) * im.width ≤ im.height * im.width :=
      Nat.mul_le_mul_right _ (by omega)
    rw [Nat.succ_mul, Nat.mul_comm im.height] at hrow
    omega

theorem streamPixdata_edges (hwidth : l + im.width ≤ panel.width)
    (hheight : t + im.height ≤ panel.height) {r b : ℕ}
    (hedges : 0 < im.width * im.height → r = l + im.width - 1 ∧ b = t + im.height - 1)
    (d : Surface γ) : ((d.setViewport l t r b).streamPixdata panel im.toList).screen = fun x y =>
      if l ≤ x ∧ x < l + im.width ∧ t ≤ y ∧ y < t + im.height then im.pixel (x - l) (y - t)
      else d.screen x y := by
  rcases Nat.eq_zero_or_pos (im.width * im.height) with hempty | hpos
  · have hnil : im.toList = [] := List.eq_nil_of_length_eq_zero (im.length_toList.trans hempty)
    rw [hnil]
    ext x y
    rw [if_neg]
    · rfl
    · rcases Nat.mul_eq_zero.mp hempty with hw | hh <;> omega
  · obtain ⟨rfl, rfl⟩ := hedges hpos
    exact streamPixdata_image hwidth hheight d

end Raster

end Qmk.Painter
