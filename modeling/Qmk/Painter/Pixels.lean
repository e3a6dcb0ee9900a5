import Mathlib.Data.Nat.Bitwise
import Mathlib.Tactic.NormNum
import Qmk.Painter.Rle

/-! # Pixels as bytes

`convert_image_bytes` of `painter.py` and the palette decoder of `qp_draw_codec.c`. With
at most eight bits for a pixel, a byte holds several pixels, the first one in its lowest
bits. The conversions that an image goes through before are not part of this repository.
-/

namespace Qmk.Painter

/-- An image, by columns and rows. -/
structure Image (α : Type*) where
  width : ℕ
  height : ℕ
  pixel : ℕ → ℕ → α

namespace Image

variable {α β : Type*}

/-- `tobytes`: the pixels row by row. -/
def toList (im : Image α) : List α :=
  (List.range im.height).flatMap fun y => (List.range im.width).map fun x => im.pixel x y

def crop (im : Image α) (left top right bottom : ℕ) : Image α where
  width := right - left
  height := bottom - top
  pixel x y := im.pixel (left + x) (top + y)

def map (f : α → β) (im : Image α) : Image β where
  width := im.width
  height := im.height
  pixel x y := f (im.pixel x y)

theorem toList_map (f : α → β) (im : Image α) : (im.map f).toList = im.toList.map f := by
  simp [toList, map, List.map_flatMap, Function.comp_def]

end Image

abbrev Rgb := UInt8 × UInt8 × UInt8

section Formats

inductive ImageFormat
  | grayscale | palette | rgb565 | rgb888
  deriving DecidableEq, Repr

structure Format where
  imageFormat : ImageFormat
  bpp : ℕ
  hasPalette : Bool
  numColors : ℕ
  imageFormatByte : UInt8
  deriving DecidableEq, Repr

namespace Format

def rgb888 : Format := ⟨.rgb888, 24, false, 16777216, 0x09⟩

def rgb565 : Format := ⟨.rgb565, 16, false, 65536, 0x08⟩

def pal256 : Format := ⟨.palette, 8, true, 256, 0x07⟩

def pal16 : Format := ⟨.palette, 4, true, 16, 0x06⟩

def pal4 : Format := ⟨.palette, 2, true, 4, 0x05⟩

def pal2 : Format := ⟨.palette, 1, true, 2, 0x04⟩

def mono256 : Format := ⟨.grayscale, 8, false, 256, 0x03⟩

def mono16 : Format := ⟨.grayscale, 4, false, 16, 0x02⟩

def mono4 : Format := ⟨.grayscale, 2, false, 4, 0x01⟩

def mono2 : Format := ⟨.grayscale, 1, false, 2, 0x00⟩

end Format

def validFormats : List Format :=
  [.rgb888, .rgb565, .pal256, .pal16, .pal4, .pal2, .mono256, .mono16, .mono4, .mono2]

end Formats

section Encoder

/-- `rescale_byte`. The quotient is never halfway between two integers, and the division of the
source is exact enough to round it as here. -/
def rescaleByte (val : UInt8) (maxval : ℕ) : ℕ := (2 * val.toNat * maxval + 255) / 510

def rgbTo565 : Rgb → List ℕ
  | (r, g, b) =>
    [((r.toNat >>> 3 &&& 0x1F) <<< 3) + (g.toNat >>> 5 &&& 0x07),
      ((g.toNat >>> 2 &&& 0x07) <<< 5) + (b.toNat >>> 3 &&& 0x1F)]

/-- One byte: the pixels behind `offset`, as far as there are any. -/
def packByte (shifter pixelsPerByte offset : ℕ) (pixels : List ℕ) : ℕ :=
  (List.range pixelsPerByte).foldl (fun byte n =>
    match pixels[offset + n]? with
    | some p => byte ||| p <<< (n * shifter)
    | none => byte) 0

def packBytes (shifter pixelsPerByte expectedByteCount : ℕ) (pixels : List ℕ) : List ℕ :=
  (List.range expectedByteCount).map fun x =>
    packByte shifter pixelsPerByte (x * pixelsPerByte) pixels

/-- An image in the mode that `convert_requested_format` leads to. -/
inductive Converted
  | rgb (im : Image Rgb)
  | paletted (im : Image UInt8) (palette : List Rgb)

def convertImageBytes (format : Format) (im : Converted) : Option (List UInt8) :=
  let shifter := format.numColors.log2
  let pixelsPerByte := 8 / shifter
  let expected (width height : ℕ) := if pixelsPerByte ≠ 0
    then (width * height + (pixelsPerByte - 1)) / pixelsPerByte
    else width * height * ((shifter + 7) / 8)
  let checked (count : ℕ) (bytearray : List ℕ) := if bytearray.length ≠ count then none
    else toBytes bytearray
  match format.imageFormat, im with
  | .grayscale, .rgb im =>
    checked (expected im.width im.height) (packBytes shifter pixelsPerByte
      (expected im.width im.height) (im.toList.map fun p => rescaleByte p.1 (format.numColors - 1)))
  | .palette, .paletted im _ =>
    checked (expected im.width im.height) (packBytes shifter pixelsPerByte
      (expected im.width im.height) (im.toList.map fun p => p.toNat &&& (format.numColors - 1)))
  | .rgb565, .rgb im =>
    checked (expected im.width im.height) (im.toList.flatMap rgbTo565)
  | .rgb888, .rgb im =>
    checked (expected im.width im.height)
      (im.toList.flatMap fun p => [p.1.toNat, p.2.1.toNat, p.2.2.toNat])
  | _, _ => none

end Encoder

section Decoder

variable {σ τ : Type*} (input : σ → Option UInt8 × σ) (output : UInt8 → τ → Bool × τ)

/-- The loop of `qp_internal_decode_palette` over the pixels of a byte. -/
def outputPixels (bitsPerPixel : ℕ) : ℕ → ℕ → τ → Bool × τ
  | 0, _, t => (true, t)
  | q + 1, byteval, t =>
    let r := output (UInt8.ofNat (byteval &&& (2 ^ bitsPerPixel - 1))) t
    if r.1 then outputPixels bitsPerPixel q (byteval >>> bitsPerPixel) r.2 else r

/-- The loop of `qp_internal_decode_palette`, with a bound for the remaining pixels. -/
def decodePaletteLoop (bitsPerPixel : ℕ) : ℕ → ℕ → σ → τ → Bool × σ × τ
  | 0, _, s, t => (true, s, t)
  | bound + 1, remainingPixels, s, t =>
    if remainingPixels = 0 then (true, s, t)
    else
      match input s with
      | (none, s) => (false, s, t)
      | (some byteval, s) =>
        let loopPixels := min remainingPixels (8 / bitsPerPixel)
        let r := outputPixels output bitsPerPixel loopPixels byteval.toNat t
        if r.1 then
          decodePaletteLoop bitsPerPixel bound (remainingPixels - loopPixels) s r.2
        else (false, s, r.2)

def decodePalette (bitsPerPixel pixelCount : ℕ) (s : σ) (t : τ) : Bool × σ × τ :=
  decodePaletteLoop input output bitsPerPixel pixelCount pixelCount s t

end Decoder

section Chunks

variable {s k : ℕ}

def packChunk (s : ℕ) : List ℕ → ℕ
  | [] => 0
  | p :: chunk => p ||| packChunk s chunk <<< s

theorem foldl_pack (l : List ℕ) (m acc : ℕ) :
    (List.range k).foldl (fun byte n => match l[n]? with
      | some p => byte ||| p <<< ((n + m) * s)
      | none => byte) acc = acc ||| packChunk s (l.take k) <<< (m * s) := by
  induction k generalizing l m acc with
  | zero => simp [packChunk]
  | succ k ih =>
    rw [List.range_succ_eq_map, List.foldl_cons, List.foldl_map]
    cases l with
    | nil => simp [packChunk]
    | cons p l =>
      have hnext := ih l (m + 1) (acc ||| p <<< (m * s))
      simp only [List.getElem?_cons_zero, List.getElem?_cons_succ, Nat.zero_add,
        List.take_succ_cons, packChunk, Nat.succ_eq_add_one, Nat.add_assoc, Nat.add_comm 1 m]
        at hnext ⊢
      rw [hnext, Nat.shiftLeft_or_distrib, ← Nat.shiftLeft_add, Nat.or_assoc, Nat.add_mul,
        Nat.one_mul, Nat.add_comm s]

theorem packByte_eq (offset : ℕ) (pixels : List ℕ) :
    packByte s k offset pixels = packChunk s ((pixels.drop offset).take k) := by
  have := foldl_pack (s := s) (k := k) (pixels.drop offset) 0 0
  simpa [packByte, List.getElem?_drop] using this

theorem packChunk_cons {p : ℕ} (hp : p < 2 ^ s) (chunk : List ℕ) :
    packChunk s (p :: chunk) = packChunk s chunk * 2 ^ s + p := by
  rw [packChunk, Nat.lor_comm, ← Nat.shiftLeft_add_eq_or_of_lt hp, Nat.shiftLeft_eq]

theorem packChunk_lt {chunk : List ℕ} (hchunk : ∀ p ∈ chunk, p < 2 ^ s) :
    packChunk s chunk < 2 ^ (s * chunk.length) := by
  induction chunk with
  | nil => simp [packChunk]
  | cons p chunk ih =>
    have hp := hchunk p List.mem_cons_self
    have htail := ih fun q hq => hchunk q (List.mem_cons_of_mem p hq)
    rw [packChunk_cons hp, List.length_cons, Nat.mul_succ, Nat.pow_add]
    have := Nat.mul_le_mul_right (2 ^ s) (Nat.succ_le_of_lt htail)
    rw [Nat.succ_mul] at this
    omega

end Chunks

section Unpacking

variable {σ τ : Type*} {input : σ → Option UInt8 × σ} (output : UInt8 → τ → Bool × τ)

def outputAll : List UInt8 → τ → Bool × τ
  | [], t => (true, t)
  | p :: ps, t => if (output p t).1 then outputAll ps (output p t).2 else output p t

variable {output}

theorem outputAll_append (ps qs : List UInt8) (t : τ) : outputAll output (ps ++ qs) t =
    if (outputAll output ps t).1 then outputAll output qs (outputAll output ps t).2
      else outputAll output ps t := by
  induction ps generalizing t with
  | nil => rfl
  | cons p ps ih =>
    simp only [List.cons_append, outputAll]
    split_ifs <;> simp_all

variable {s : ℕ}

theorem outputPixels_packChunk {chunk : List ℕ} (hchunk : ∀ p ∈ chunk, p < 2 ^ s) (t : τ) :
    outputPixels output s chunk.length (packChunk s chunk) t =
      outputAll output (chunk.map UInt8.ofNat) t := by
  induction chunk generalizing t with
  | nil => rfl
  | cons p chunk ih =>
    have hp := hchunk p List.mem_cons_self
    have hlow : packChunk s (p :: chunk) &&& (2 ^ s - 1) = p := by
      rw [packChunk_cons hp, Nat.and_two_pow_sub_one_eq_mod, Nat.mul_add_mod_self_right,
        Nat.mod_eq_of_lt hp]
    have hhigh : packChunk s (p :: chunk) >>> s = packChunk s chunk := by
      rw [packChunk_cons hp, Nat.shiftRight_eq_div_pow, Nat.add_comm,
        Nat.add_mul_div_right _ _ (Nat.two_pow_pos s), Nat.div_eq_of_lt hp, Nat.zero_add]
    simp only [List.length_cons, outputPixels, hlow, hhigh, List.map_cons, outputAll]
    split_ifs
    · exact ih (fun q hq => hchunk q (List.mem_cons_of_mem p hq)) _
    · rfl

/-- The number of bytes that hold `n` pixels. -/
def packedCount (ppb n : ℕ) : ℕ := (n + (ppb - 1)) / ppb

theorem packBytes_cons {ppb : ℕ} (hppb : 0 < ppb) {pixels : List ℕ} (hne : pixels ≠ []) :
    packBytes s ppb (packedCount ppb pixels.length) pixels = packChunk s (pixels.take ppb) ::
      packBytes s ppb (packedCount ppb (pixels.drop ppb).length) (pixels.drop ppb) := by
  have hlen := List.length_pos_iff.mpr hne
  have hcount : packedCount ppb pixels.length =
      packedCount ppb (pixels.drop ppb).length + 1 := by
    rw [packedCount, packedCount, List.length_drop]
    rcases Nat.le_total pixels.length ppb with hle | hle
    · rw [Nat.sub_eq_zero_of_le hle, Nat.zero_add, Nat.div_eq_of_lt (show ppb - 1 < ppb by omega)]
      exact Nat.div_eq_of_lt_le (by omega) (by omega)
    · rw [← Nat.add_div_right _ hppb]
      congr 1
      omega
  rw [packBytes, hcount, List.range_succ_eq_map, List.map_cons, List.map_map]
  congr 1
  · rw [packByte_eq, Nat.zero_mul, List.drop_zero]
  · apply List.map_congr_left
    intro x _
    simp only [Function.comp_apply, packByte_eq, List.drop_drop, Nat.succ_mul, Nat.add_comm ppb]

theorem decodePaletteLoop_packBytes (hs : 0 < 8 / s) {bound : ℕ} {pixels : List ℕ}
    (hpixels : ∀ p ∈ pixels, p < 2 ^ s) (hbound : pixels.length ≤ bound) {bytes : List UInt8}
    (hbytes : packBytes s (8 / s) (packedCount (8 / s) pixels.length) pixels =
      bytes.map UInt8.toNat)
    {x : σ} (hinput : (pull input bytes.length x).1 = bytes.map some) (t : τ) :
    (decodePaletteLoop input output s bound pixels.length x t).1 =
        (outputAll output (pixels.map UInt8.ofNat) t).1 ∧
      (decodePaletteLoop input output s bound pixels.length x t).2.2 =
        (outputAll output (pixels.map UInt8.ofNat) t).2 := by
  induction bound generalizing pixels bytes x t with
  | zero =>
    obtain rfl : pixels = [] := by simpa using hbound
    exact ⟨rfl, rfl⟩
  | succ bound ih =>
    by_cases hne : pixels = []
    · subst hne
      exact ⟨rfl, rfl⟩
    · have hlen := List.length_pos_iff.mpr hne
      rw [packBytes_cons hs hne] at hbytes
      cases bytes with
      | nil => simp at hbytes
      | cons byte bytes =>
        rw [List.map_cons, List.cons.injEq] at hbytes
        rw [List.length_cons, pull, List.map_cons, List.cons.injEq] at hinput
        have hloop : min pixels.length (8 / s) = (pixels.take (8 / s)).length := by
          rw [List.length_take, Nat.min_comm]
        have hrest : pixels.length - min pixels.length (8 / s) = (pixels.drop (8 / s)).length := by
          rw [List.length_drop]
          omega
        have hchunk : outputPixels output s (pixels.take (8 / s)).length
            (packChunk s (pixels.take (8 / s))) t = _ :=
          outputPixels_packChunk (fun p hp => hpixels p (List.mem_of_mem_take hp)) t
        have htail := ih (fun p hp => hpixels p (List.mem_of_mem_drop hp))
          (by rw [List.length_drop]; omega) hbytes.2 hinput.2
          (outputAll output ((pixels.take (8 / s)).map UInt8.ofNat) t).2
        have hsplit : pixels.map UInt8.ofNat = (pixels.take (8 / s)).map UInt8.ofNat ++
            (pixels.drop (8 / s)).map UInt8.ofNat := by
          rw [← List.map_append, List.take_append_drop]
        rw [decodePaletteLoop, if_neg (by omega)]
        rcases hnext : input x with ⟨c, y⟩
        obtain rfl : c = some byte := by
          rw [← hinput.1, hnext]
        rw [hnext] at htail
        dsimp only
        rw [hrest, hloop, ← hbytes.1, hchunk, hsplit, outputAll_append]
        split_ifs with hok
        · exact htail
        · exact ⟨(Bool.eq_false_iff.mpr hok).symm, rfl⟩

theorem decodePalette_input {P : σ → Prop} (hinput : ∀ x, P x → P (input x).2)
    {bitsPerPixel pixelCount : ℕ} {x : σ} (hx : P x) (t : τ) :
    P (decodePalette input output bitsPerPixel pixelCount x t).2.1 := by
  have hloop : ∀ bound remaining x t, P x →
      P (decodePaletteLoop input output bitsPerPixel bound remaining x t).2.1 := by
    intro bound
    induction bound with
    | zero => exact fun _ _ _ hx => hx
    | succ bound ih =>
      intro remaining x t hx
      have hnext := hinput x hx
      rw [decodePaletteLoop]
      split_ifs with hzero
      · exact hx
      · rcases hread : input x with ⟨c, y⟩
        rw [hread] at hnext
        cases c with
        | none => exact hnext
        | some byteval =>
          dsimp only
          split_ifs
          · exact ih _ _ _ hnext
          · exact hnext
  exact hloop pixelCount pixelCount x t hx

theorem decodePalette_none {bitsPerPixel pixelCount : ℕ} {x : σ} (hx : (input x).1 = none)
    (hcount : pixelCount ≠ 0) (t : τ) :
    (decodePalette input output bitsPerPixel pixelCount x t).1 = false := by
  obtain ⟨bound, rfl⟩ := Nat.exists_eq_succ_of_ne_zero hcount
  rcases hread : input x with ⟨c, y⟩
  obtain rfl : c = none := by rw [← hx, hread]
  rw [decodePalette, decodePaletteLoop, if_neg hcount, hread]

end Unpacking

section RoundTrip

theorem toBytes_of_lt {l : List ℕ} (h : ∀ n ∈ l, n < 256) :
    ∃ bytes, toBytes l = some bytes ∧ l = bytes.map UInt8.toNat := by
  induction l with
  | nil => exact ⟨[], rfl, rfl⟩
  | cons n l ih =>
    have hn := h n List.mem_cons_self
    obtain ⟨bytes, hbytes, hl⟩ := ih fun m hm => h m (List.mem_cons_of_mem n hm)
    refine ⟨UInt8.ofNat n :: bytes, ?_, ?_⟩
    · rw [toBytes] at hbytes
      simp [toBytes, hn, hbytes]
    · rw [List.map_cons, ← hl, UInt8.toNat_ofNat_of_lt' hn]

theorem packBytes_lt {s k count : ℕ} (hk : s * k ≤ 8) {pixels : List ℕ}
    (hpixels : ∀ p ∈ pixels, p < 2 ^ s) : ∀ n ∈ packBytes s k count pixels, n < 256 := by
  intro n hn
  obtain ⟨x, -, rfl⟩ := List.mem_map.mp hn
  rw [packByte_eq]
  have hchunk : ∀ p ∈ (pixels.drop (x * k)).take k, p < 2 ^ s :=
    fun p hp => hpixels p (List.mem_of_mem_drop (List.mem_of_mem_take hp))
  have hlt := packChunk_lt hchunk
  have hle : s * ((pixels.drop (x * k)).take k).length ≤ 8 :=
    (Nat.mul_le_mul_left s (List.length_take_le _ _)).trans hk
  exact hlt.trans_le (Nat.pow_le_pow_right (by omega) hle)

/-- The formats whose pixels are indices. -/
def Format.Indexed (format : Format) : Prop :=
  format.bpp ∈ [1, 2, 4, 8] ∧ format.numColors = 2 ^ format.bpp

instance (format : Format) : Decidable format.Indexed := inferInstanceAs (Decidable (_ ∧ _))

theorem Format.Indexed.bpp_le {format : Format} (h : format.Indexed) : format.bpp ≤ 8 := by
  have hcases : format.bpp = 1 ∨ format.bpp = 2 ∨ format.bpp = 4 ∨ format.bpp = 8 := by
    simpa using h.1
  omega

theorem Format.Indexed.pixelsPerByte_pos {format : Format} (h : format.Indexed) :
    0 < 8 / format.bpp := by
  have hcases : format.bpp = 1 ∨ format.bpp = 2 ∨ format.bpp = 4 ∨ format.bpp = 8 := by
    simpa using h.1
  rcases hcases with hbpp | hbpp | hbpp | hbpp <;> simp [hbpp]

/-- The indices that an image of a format stands for. -/
def indices (format : Format) : Converted → List UInt8
  | .rgb im => im.toList.map fun p => UInt8.ofNat (rescaleByte p.1 (format.numColors - 1))
  | .paletted im _ => im.toList.map fun p => p &&& UInt8.ofNat (format.numColors - 1)

/-- The image has the mode of the format. -/
def Converted.Suits (format : Format) : Converted → Prop
  | .rgb _ => format.imageFormat = .grayscale
  | .paletted _ _ => format.imageFormat = .palette

theorem rescaleByte_le (val : UInt8) (maxval : ℕ) : rescaleByte val maxval ≤ maxval := by
  have := val.toNat_lt
  rw [rescaleByte, Nat.div_le_iff_le_mul_add_pred (by omega)]
  have hmul : val.toNat * maxval ≤ 255 * maxval := Nat.mul_le_mul_right _ (by omega)
  rw [Nat.mul_assoc]
  omega

theorem Image.length_toList {α : Type*} (im : Image α) :
    im.toList.length = im.width * im.height := by
  simp [Image.toList, List.length_flatMap, Nat.mul_comm]

theorem convertImageBytes_indexed {format : Format} (hformat : format.Indexed) {im : Converted}
    (him : im.Suits format) : ∃ raw, convertImageBytes format im = some raw ∧
      packBytes format.bpp (8 / format.bpp)
          (packedCount (8 / format.bpp) (indices format im).length)
        ((indices format im).map UInt8.toNat) = raw.map UInt8.toNat ∧
      ∀ p ∈ indices format im, p.toNat < 2 ^ format.bpp := by
  have hcolors := hformat.2
  have hpos := hformat.pixelsPerByte_pos
  have hlog : format.numColors.log2 = format.bpp := by
    rw [hcolors, Nat.log2_two_pow]
  have hbyte : format.numColors ≤ 256 := by
    rw [hcolors]
    exact Nat.pow_le_pow_right (n := 2) (by omega) hformat.bpp_le
  have hcolorsPos : 0 < format.numColors := by
    rw [hcolors]
    exact Nat.two_pow_pos _
  -- the values that are packed are the indices
  have hvalues : convertImageBytes format im = toBytes (packBytes format.bpp (8 / format.bpp)
      (packedCount (8 / format.bpp) (indices format im).length)
      ((indices format im).map UInt8.toNat)) := by
    cases im with
    | rgb im =>
      have hlist : (indices format (.rgb im)).map UInt8.toNat =
          im.toList.map fun p => rescaleByte p.1 (format.numColors - 1) := by
        rw [indices, List.map_map]
        apply List.map_congr_left
        intro p _
        have := rescaleByte_le p.1 (format.numColors - 1)
        exact UInt8.toNat_ofNat_of_lt' (by rw [UInt8.size]; omega)
      have hlen : (indices format (.rgb im)).length = im.width * im.height := by
        rw [indices, List.length_map, Image.length_toList]
      have hgray : format.imageFormat = .grayscale := him
      rw [hlist, hlen]
      simp [convertImageBytes, hgray, hlog, hpos.ne', packBytes, packedCount]
    | paletted im palette =>
      have hlist : (indices format (.paletted im palette)).map UInt8.toNat =
          im.toList.map fun p => p.toNat &&& (format.numColors - 1) := by
        rw [indices, List.map_map]
        apply List.map_congr_left
        intro p _
        rw [Function.comp_apply, UInt8.toNat_and,
          UInt8.toNat_ofNat_of_lt' (by rw [UInt8.size]; omega)]
      have hlen : (indices format (.paletted im palette)).length = im.width * im.height := by
        rw [indices, List.length_map, Image.length_toList]
      have hpalette : format.imageFormat = .palette := him
      rw [hlist, hlen]
      simp [convertImageBytes, hpalette, hlog, hpos.ne', packBytes, packedCount]
  have hlt : ∀ p ∈ indices format im, p.toNat < 2 ^ format.bpp := by
    rw [← hcolors]
    cases im with
    | rgb im =>
      intro p hp
      obtain ⟨q, -, rfl⟩ := List.mem_map.mp hp
      have := rescaleByte_le q.1 (format.numColors - 1)
      rw [UInt8.toNat_ofNat_of_lt' (by rw [UInt8.size]; omega)]
      omega
    | paletted im palette =>
      intro p hp
      obtain ⟨q, -, rfl⟩ := List.mem_map.mp hp
      rw [UInt8.toNat_and, UInt8.toNat_ofNat_of_lt' (by rw [UInt8.size]; omega)]
      have : q.toNat &&& (format.numColors - 1) ≤ format.numColors - 1 := Nat.and_le_right
      omega
  have hpixels : ∀ p ∈ (indices format im).map UInt8.toNat, p < 2 ^ format.bpp := by
    intro p hp
    obtain ⟨q, hq, rfl⟩ := List.mem_map.mp hp
    exact hlt q hq
  obtain ⟨raw, hraw, hpacked⟩ := toBytes_of_lt (packBytes_lt (Nat.mul_div_le 8 format.bpp) hpixels)
  exact ⟨raw, by rw [hvalues, hraw], hpacked, hlt⟩

theorem decodePalette_indices {σ τ : Type*} {input : σ → Option UInt8 × σ}
    {output : UInt8 → τ → Bool × τ} {format : Format} (hformat : format.Indexed) {im : Converted}
    (him : im.Suits format) {raw : List UInt8} (hraw : convertImageBytes format im = some raw)
    {x : σ} (hinput : (pull input raw.length x).1 = raw.map some) (t : τ) :
    (decodePalette input output format.bpp (indices format im).length x t).1 =
        (outputAll output (indices format im) t).1 ∧
      (decodePalette input output format.bpp (indices format im).length x t).2.2 =
        (outputAll output (indices format im) t).2 := by
  obtain ⟨raw', hraw', hpacked, hlt⟩ := convertImageBytes_indexed hformat him
  obtain rfl := Option.some.inj (hraw.symm.trans hraw')
  have hback : ((indices format im).map UInt8.toNat).map UInt8.ofNat = indices format im := by
    rw [List.map_map]
    exact (List.map_congr_left fun p _ => UInt8.ofNat_toNat).trans (List.map_id _)
  have hlen : ((indices format im).map UInt8.toNat).length = (indices format im).length :=
    List.length_map _
  have hpixels : ∀ p ∈ (indices format im).map UInt8.toNat, p < 2 ^ format.bpp := by
    intro p hp
    obtain ⟨q, hq, rfl⟩ := List.mem_map.mp hp
    exact hlt q hq
  rw [← hlen] at hpacked
  have := @decodePaletteLoop_packBytes σ τ input output _ hformat.pixelsPerByte_pos _ _ hpixels
    hlen.le _ hpacked x hinput t
  rwa [hback, hlen] at this

/-- The pixels are collected in a list. -/
def collect (p : UInt8) (ps : List UInt8) : Bool × List UInt8 := (true, ps ++ [p])

theorem outputAll_collect (ps qs : List UInt8) : outputAll collect ps qs = (true, qs ++ ps) := by
  induction ps generalizing qs with
  | nil => simp [outputAll]
  | cons p ps ih => simp [outputAll, collect, ih]

/-- The input over a file with nothing but `bytes`. -/
def rleInput (bytes : List UInt8) : ByteInput := prepareRleInput (.make bytes bytes.length)

/-- Compressed bytes are read back, and so are the indices of an image that is packed and
compressed; the indices of a palette image are those of its pixels when they are below the number
of colors. -/
theorem rle_round_trip :
    (∀ x : List UInt8, ∃ encoded, toBytes (compressBytesQmkRle x) = some encoded ∧
      (pull byteRleDecoder x.length (rleInput encoded)).1 = x.map some) ∧
    (∀ (format : Format) (im : Converted), format.Indexed → im.Suits format →
      ∃ raw encoded, convertImageBytes format im = some raw ∧
        toBytes (compressBytesQmkRle raw) = some encoded ∧
        (decodePalette byteRleDecoder collect format.bpp (indices format im).length
          (rleInput encoded) []).1 = true ∧
        (decodePalette byteRleDecoder collect format.bpp (indices format im).length
          (rleInput encoded) []).2.2 = indices format im) ∧
    (∀ (format : Format) (im : Image UInt8) (palette : List Rgb), format.Indexed →
      (∀ p ∈ im.toList, p.toNat < format.numColors) →
        indices format (.paletted im palette) = im.toList) := by
  have hread : ∀ x : List UInt8, ∃ encoded, toBytes (compressBytesQmkRle x) = some encoded ∧
      (pull byteRleDecoder x.length (rleInput encoded)).1 = x.map some := by
    intro x
    obtain ⟨blocks, rest, -, -, hencoded⟩ := toBytes_compress x
    have hholds : (MemoryStream.ofFile (blocks.flatMap Block.bytes ++ rest) 0).Holds
        (blocks.flatMap Block.bytes ++ rest ++ []) :=
      MemoryStream.holds_ofFile (a := []) (by simp) rfl
    exact ⟨_, hencoded, pull_compress hencoded hholds⟩
  refine ⟨hread, ?_, ?_⟩
  · intro format im hformat him
    obtain ⟨raw, hraw, -⟩ := convertImageBytes_indexed hformat him
    obtain ⟨encoded, hencoded, hinput⟩ := hread raw
    obtain ⟨hok, hpixels⟩ := decodePalette_indices hformat him hraw hinput (t := ([] : List UInt8))
    rw [outputAll_collect] at hok hpixels
    exact ⟨raw, encoded, hraw, hencoded, hok, hpixels⟩
  · intro format im palette hformat hsmall
    have hbyte : 2 ^ format.bpp ≤ 256 := Nat.pow_le_pow_right (n := 2) (by omega) hformat.bpp_le
    have hpos := Nat.two_pow_pos format.bpp
    refine (List.map_congr_left fun p hp => ?_).trans (List.map_id _)
    have hp := hsmall p hp
    rw [hformat.2] at hp ⊢
    apply UInt8.toNat_inj.mp
    rw [UInt8.toNat_and, UInt8.toNat_ofNat_of_lt' (by rw [UInt8.size]; omega),
      Nat.and_two_pow_sub_one_eq_mod, Nat.mod_eq_of_lt hp]
    rfl

/-- An image of three pixels in two colors. -/
theorem rle_round_trip_pal2 : indices .pal2 (.paletted ⟨3, 1, fun x _ => UInt8.ofNat (x % 2)⟩ []) =
    (⟨3, 1, fun x _ => UInt8.ofNat (x % 2)⟩ : Image UInt8).toList :=
  rle_round_trip.2.2 .pal2 ⟨3, 1, fun x _ => UInt8.ofNat (x % 2)⟩ [] (by decide) (by decide +kernel)

end RoundTrip

end Qmk.Painter
