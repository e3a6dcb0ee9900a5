import Qmk.Painter.QgfReader

/-! # Playing a graphics file

A frame that is written as a box is drawn over the frame before it, so the frames have to be
drawn one after the other from the first one on.
-/

namespace Qmk.Painter.Qgf

section Viewports

variable {x y w h : ℕ}

/-- The distance between the edges, where an empty row at the left edge wraps around. -/
theorem span_eq (hx : x + w < 2 ^ 16) :
    (((x + w + (2 ^ 16 - 1)) % 2 ^ 16 : ℕ) : ℤ) - x + 1 =
      (if x = 0 ∧ w = 0 then 2 ^ 16 else w : ℕ) := by
  split_ifs with h
  · obtain ⟨rfl, rfl⟩ := h
    decide
  · omega

theorem pixelCount_whole (hx : x + w < 2 ^ 16) (hy : y + h < 2 ^ 16) :
    pixelCount x y ((x + w + (2 ^ 16 - 1)) % 2 ^ 16) ((y + h + (2 ^ 16 - 1)) % 2 ^ 16) =
      (if x = 0 ∧ w = 0 then 2 ^ 16 else w) * (if y = 0 ∧ h = 0 then 2 ^ 16 else h) % 2 ^ 32 := by
  unfold pixelCount
  rw [span_eq hx, span_eq hy, BitVec.ofInt_natCast, BitVec.ofInt_natCast, ← BitVec.ofNat_mul,
    BitVec.toNat_ofNat]

/-- Both edges of a row without pixels are at the left edge of the panel. -/
theorem pixelCount_whole_iff (hx : x + w < 2 ^ 16) (hy : y + h < 2 ^ 16) :
    pixelCount x y ((x + w + (2 ^ 16 - 1)) % 2 ^ 16) ((y + h + (2 ^ 16 - 1)) % 2 ^ 16) = w * h ↔
      ¬ (x = 0 ∧ w = 0 ∧ 0 < h) ∧ ¬ (y = 0 ∧ h = 0 ∧ 0 < w) := by
  rw [pixelCount_whole hx hy]
  have hlt : w * h < 2 ^ 16 * 2 ^ 16 := Nat.mul_lt_mul'' (by omega) (by omega)
  split_ifs with hcolumns hrows hrows
  · obtain ⟨-, rfl⟩ := hcolumns
    obtain ⟨-, rfl⟩ := hrows
    simp
  · obtain ⟨rfl, rfl⟩ := hcolumns
    omega
  · obtain ⟨rfl, rfl⟩ := hrows
    omega
  · rw [Nat.mod_eq_of_lt (by omega)]
    omega

theorem pixelCount_box {l t r b : ℕ} (hr : r + 1 = l + w)
    (hb : b + 1 = t + h) (hlt : w * h < 2 ^ 32) : pixelCount l t r b = w * h := by
  have hcolumns : (r : ℤ) - l + 1 = w := by omega
  have hrows : (b : ℤ) - t + 1 = h := by omega
  unfold pixelCount
  rw [hcolumns, hrows, BitVec.ofInt_natCast, BitVec.ofInt_natCast, ← BitVec.ofNat_mul,
    BitVec.toNat_ofNat, Nat.mod_eq_of_lt hlt]

end Viewports

section Drawing

variable {γ : Type*} {player : Player γ} {info : EncoderInfo} {frames : List Frame}
  {outputs : List Outputs} {file rest : List UInt8} {w h i : ℕ} {stream : MemoryStream}
  {frame : Frame} {out : Outputs}

def grayPalette (player : Player γ) (format : Format) (i : UInt8) : γ :=
  player.paletteConvert (interpolatePalette player.fg player.bg (1 <<< format.bpp) i.toNat)

def shownPixel (player : Player γ) (info : EncoderInfo) (p : Rgb) : γ :=
  player.paletteConvert (interpolatePalette player.fg player.bg (1 <<< info.format.bpp)
    (rescaleByte (info.convert p).1 (info.format.numColors - 1)))

theorem map_indices (hgray : Gray info.format) (im : Image Rgb) :
    (indices info.format (converted info im)).map (grayPalette player info.format) =
      (im.map (shownPixel player info)).toList := by
  have hcolors : info.format.numColors ≤ 256 := by
    rw [hgray.indexed.2]
    exact Nat.pow_le_pow_right (n := 2) (by omega) hgray.indexed.bpp_le
  rw [converted, indices, Image.toList_map, Image.toList_map, List.map_map, List.map_map]
  apply List.map_congr_left
  intro p _
  have hle := rescaleByte_le (info.convert p).1 (info.format.numColors - 1)
  have hpos : 0 < info.format.numColors := by
    rw [hgray.indexed.2]
    exact Nat.two_pow_pos _
  simp only [Function.comp_apply, grayPalette, shownPixel]
  rw [UInt8.toNat_ofNat_of_lt' (by rw [UInt8.size]; omega)]

theorem Saved.prepareFrame (hs : Saved info w h frames outputs file)
    (hframe : frames[i]? = some frame) (hout : outputs[i]? = some out) (hfits : BoxFits out)
    (hsize : file.length < 2 ^ 31) (hf : MemoryStream.ReadsFrom file stream)
    (hcapable : bppCapable player info.format.bpp = true) : ∃ p,
      prepareFrame player i stream =
          (some (deltaInfo out (frameInfo info.format frame out), grayPalette player info.format),
            MemoryStream.ofFile file p) ∧
        (MemoryStream.ofFile file p).Holds (out.imageData ++
          ((frameBlocks info.format frames outputs).drop (i + 1)).flatten) := by
  obtain ⟨p, hread, hholds⟩ := hs.readHead hframe hout hsize hf
  have hparse := @parseFrameDescriptor_eq info.format frame out hs.gray
    (hs.delays _ (List.mem_of_getElem? hframe))
  have hdelta := @readDelta_eq _ (MemoryStream.ofFile file p) out (frameInfo info.format frame out)
    hfits rfl hholds
  have hdata := MemoryStream.Holds.advance hholds
  rw [MemoryStream.ofFile_advance] at hdata
  have hpixels := MemoryStream.Holds.advance hdata
  rw [MemoryStream.ofFile_advance, length_writeHeader] at hpixels
  have hpalette : framePalette player (frameInfo info.format frame out)
      (MemoryStream.ofFile file p) =
        (some (grayPalette player info.format), MemoryStream.ofFile file p) := rfl
  have hbpp : bppCapable player (frameInfo info.format frame out).bpp = true := hcapable
  refine ⟨_, ?_, hpixels⟩
  unfold Qgf.prepareFrame
  dsimp only
  rw [hread]
  dsimp only
  rw [hparse, if_pos hbpp, hpalette]
  dsimp only
  rw [hdelta, MemoryStream.ofFile_advance]
  dsimp only
  rw [readStruct_holds hdata (length_writeHeader _ _)]
  rfl

theorem Saved.prepareFrame_incapable (hs : Saved info w h frames outputs file)
    (hframe : frames[i]? = some frame) (hout : outputs[i]? = some out)
    (hsize : file.length < 2 ^ 31) (hf : MemoryStream.ReadsFrom file stream)
    (hcapable : bppCapable player info.format.bpp ≠ true) :
    (Qgf.prepareFrame player i stream).1 = none := by
  obtain ⟨p, hread, -⟩ := hs.readHead hframe hout hsize hf
  have hparse := @parseFrameDescriptor_eq info.format frame out hs.gray
    (hs.delays _ (List.mem_of_getElem? hframe))
  have hbpp : ¬ bppCapable player (frameInfo info.format frame out).bpp = true := hcapable
  unfold Qgf.prepareFrame
  dsimp only
  rw [hread]
  dsimp only
  rw [hparse, if_neg hbpp]

theorem pull_encodes {im : Image Rgb} {data : List UInt8} {useRaw : Bool}
    (hdata : Encodes info im data useRaw) (hholds : stream.Holds (data ++ rest)) :
    ∃ input raw, prepareInputState (if useRaw then 0 else 1) = some input ∧
      convertImageBytes info.format (converted info im) = some raw ∧
      (pull input raw.length { srcStream := stream }).1 = raw.map some := by
  obtain ⟨raw, hraw, -, hdata⟩ := hdata
  cases useRaw with
  | true =>
    obtain rfl : data = raw := hdata
    exact ⟨_, data, rfl, hraw, pull_uncompressed hholds⟩
  | false => exact ⟨_, raw, rfl, hraw, pull_compress hdata hholds⟩

theorem encodes_empty (hgray : Gray info.format) {im : Image Rgb} {data : List UInt8}
    {useRaw : Bool} (him : im.width * im.height = 0) (hdata : Encodes info im data useRaw) :
    data = [] ∧ useRaw = true := by
  obtain ⟨raw, hraw, hle, hdata⟩ := hdata
  obtain ⟨raw', _, hraw', hlen, -⟩ := graphicData_eq hgray im
  obtain rfl := Option.some.inj (hraw.symm.trans hraw')
  have hraw : raw = [] := by
    apply List.eq_nil_of_length_eq_zero
    rw [hlen, him, packedSize, packedCount, Nat.zero_add]
    exact Nat.div_eq_of_lt (Nat.sub_lt hgray.indexed.pixelsPerByte_pos Nat.one_pos)
  subst hraw
  have hdata' : data = [] := List.eq_nil_of_length_eq_zero (Nat.le_zero.mp hle)
  subst hdata'
  cases useRaw with
  | true => exact ⟨rfl, rfl⟩
  | false => cases hdata

theorem readsFrom_input {scheme : ℕ} {input : ByteInput → Option UInt8 × ByteInput}
    (hinput : prepareInputState scheme = some input) {s : ByteInput}
    (hs : MemoryStream.ReadsFrom file s.srcStream) :
    (input s).2.srcStream.ReadsFrom file := by
  unfold prepareInputState at hinput
  split at hinput
  · obtain rfl := Option.some.inj hinput
    exact readsFrom_byteUncompressedDecoder hs
  · obtain rfl := Option.some.inj hinput
    exact readsFrom_byteRleDecoder hs
  · cases hinput

theorem readsFrom_internalAppender {scheme : ℕ} {input : ByteInput → Option UInt8 × ByteInput}
    (hinput : prepareInputState scheme = some input) (hf : MemoryStream.ReadsFrom file stream)
    {panel : Panel} {palette : UInt8 → γ} {buffer : ℕ → γ} {bpp count : ℕ} {d : Surface γ} :
    (internalAppender panel input palette buffer bpp count
      { srcStream := stream } d).2.1.srcStream.ReadsFrom file :=
  decodePalette_input (P := fun s : ByteInput => s.srcStream.ReadsFrom file)
    (fun _ => readsFrom_input hinput) hf _

theorem draw_image (hgray : Gray info.format) {im : Image Rgb} {data : List UInt8} {useRaw : Bool}
    (hdata : Encodes info im data useRaw) (hholds : stream.Holds (data ++ rest))
    (hf : MemoryStream.ReadsFrom file stream) {l t r b : ℕ}
    (hwidth : l + im.width ≤ player.panel.width) (hheight : t + im.height ≤ player.panel.height)
    (hedges : 0 < im.width * im.height → r = l + im.width - 1 ∧ b = t + im.height - 1)
    (hcount : pixelCount l t r b = im.width * im.height) (buffer : ℕ → γ) (d : Surface γ) :
    ∃ input stream' d', prepareInputState (if useRaw then 0 else 1) = some input ∧
      internalAppender player.panel input (grayPalette player info.format) buffer info.format.bpp
        (pixelCount l t r b) { srcStream := stream } (d.setViewport l t r b) =
          (true, stream', d') ∧
      stream'.srcStream.ReadsFrom file ∧
      d'.screen = fun x y => if l ≤ x ∧ x < l + im.width ∧ t ≤ y ∧ y < t + im.height
        then shownPixel player info (im.pixel (x - l) (y - t)) else d.screen x y := by
  obtain ⟨input, raw, hinput, hraw, hpull⟩ := pull_encodes hdata hholds
  have hsuits : (converted info im).Suits info.format := hgray.2
  have hindices : (indices info.format (converted info im)).length = im.width * im.height :=
    (List.length_map _).trans (Image.length_toList (im.map info.convert))
  have hdrawn := @internalAppender_indices _ player.panel (grayPalette player info.format) _ input
    buffer info.format hgray.indexed _ hsuits raw hraw _ hpull (d.setViewport l t r b)
  rw [hindices, ← hcount, map_indices hgray] at hdrawn
  rcases hresult : internalAppender player.panel input (grayPalette player info.format) buffer
    info.format.bpp (pixelCount l t r b) { srcStream := stream } (d.setViewport l t r b) with
    ⟨ok, stream', d'⟩
  rw [hresult] at hdrawn
  obtain ⟨rfl, rfl⟩ := hdrawn
  have hstream : stream'.srcStream.ReadsFrom file := by
    rw [show stream' = _ from congrArg (fun result => result.2.1) hresult.symm]
    exact readsFrom_internalAppender hinput hf
  refine ⟨input, _, _, hinput, hresult, hstream, ?_⟩
  exact @streamPixdata_edges γ player.panel (im.map (shownPixel player info)) l t hwidth hheight
    r b hedges d

end Drawing

section Steps

variable {γ : Type*} {player : Player γ} {info : EncoderInfo} {frames : List Frame}
  {outputs : List Outputs} {file : List UInt8} {w h x y i : ℕ} {frame : Frame} {s : State γ}

structure Opened (file : List UInt8) (w h : ℕ) (image : ImageHandle) : Prop where
  stream : MemoryStream.ReadsFrom file image.stream
  width : image.width = w
  height : image.height = h

/-- The device shows an image at `x` and `y`, and all else is as it was before. -/
def Shows (player : Player γ) (info : EncoderInfo) (x y : ℕ) (im : Image Rgb)
    (before after : Surface γ) : Prop :=
  after.screen = fun a b => if x ≤ a ∧ a < x + im.width ∧ y ≤ b ∧ b < y + im.height
    then shownPixel player info (im.pixel (a - x) (b - y)) else before.screen a b

def ShowsLast (player : Player γ) (info : EncoderInfo) (x y : ℕ) (lastFrame : Option (Image Rgb))
    (before after : Surface γ) : Prop :=
  match lastFrame with
  | none => after = before
  | some im => Shows player info x y im before after

theorem boxFits_choice {lastFrame : Option (Image Rgb)} {out : Outputs} {im : Image Rgb}
    (hw : im.width < 2 ^ 16) (hh : im.height < 2 ^ 16) (h : Choice info im lastFrame out) :
    BoxFits out := by
  cases h with
  | whole => exact fun _ hbox => by cases hbox
  | delta hlast hbox =>
    rintro _ ⟨⟩
    have hleft := hbox.left
    have hright := hbox.right
    have htop := hbox.top
    have hbottom := hbox.bottom
    dsimp only
    omega

theorem Saved.exists_choice (hs : Saved info w h frames outputs file)
    (hframe : frames[i]? = some frame) : ∃ out, outputs[i]? = some out ∧
      Choice info frame.image (previous none frames i) out ∧ BoxFits out := by
  obtain ⟨hw, hh⟩ := hs.size frame (List.mem_of_getElem? hframe)
  have hi := (List.getElem?_eq_some_iff.mp hframe).1.trans_eq (length_encodeFrames hs.encoded).symm
  have hchoice := choice_encodeFrames hs.gray hs.encoded hframe (List.getElem?_eq_getElem hi)
  exact ⟨_, List.getElem?_eq_getElem hi, hchoice,
    boxFits_choice (hw ▸ hs.width_lt) (hh ▸ hs.height_lt) hchoice⟩

theorem Shows.delta {im last crop : Image Rgb} {bbox : Box} {before device device' : Surface γ}
    (hsize : last.width = im.width ∧ last.height = im.height) (hbox : IsBox im last bbox)
    (hcrop : crop = im.crop bbox.left bbox.top bbox.right bbox.bottom)
    (hlast : Shows player info x y last before device)
    (hscreen : device'.screen = fun a b => if x + bbox.left ≤ a ∧ a < x + bbox.left + crop.width ∧
      y + bbox.top ≤ b ∧ b < y + bbox.top + crop.height
        then shownPixel player info (crop.pixel (a - (x + bbox.left)) (b - (y + bbox.top)))
        else device.screen a b) :
    Shows player info x y im before device' := by
  have hleft := hbox.left
  have hright := hbox.right
  have htop := hbox.top
  have hbottom := hbox.bottom
  have hwidth : crop.width = bbox.right - bbox.left := by rw [hcrop]; rfl
  have hheight : crop.height = bbox.bottom - bbox.top := by rw [hcrop]; rfl
  have hpixel : ∀ a b, crop.pixel a b = im.pixel (bbox.left + a) (bbox.top + b) := by
    intro a b
    rw [hcrop]
    rfl
  unfold Shows at hlast ⊢
  rw [hscreen]
  ext a b
  by_cases hin : x + bbox.left ≤ a ∧ a < x + bbox.left + crop.width ∧
    y + bbox.top ≤ b ∧ b < y + bbox.top + crop.height
  · have hcolumn : bbox.left + (a - (x + bbox.left)) = a - x := by omega
    have hrow : bbox.top + (b - (y + bbox.top)) = b - y := by omega
    rw [if_pos hin, if_pos (by omega), hpixel, hcolumn, hrow]
  · rw [if_neg hin, hlast]
    dsimp only
    rw [hsize.1, hsize.2]
    split_ifs with hframe
    · rw [hbox.outside (a - x) (b - y) (by omega) (by omega) (by omega)]
    · rfl

theorem Shows.whole {im : Image Rgb} {lastFrame : Option (Image Rgb)}
    {before device device' : Surface γ}
    (hsize : ∀ last ∈ lastFrame, last.width = im.width ∧ last.height = im.height)
    (hlast : ShowsLast player info x y lastFrame before device)
    (hscreen : device'.screen = fun a b => if x ≤ a ∧ a < x + im.width ∧ y ≤ b ∧ b < y + im.height
      then shownPixel player info (im.pixel (a - x) (b - y)) else device.screen a b) :
    Shows player info x y im before device' := by
  unfold Shows
  rw [hscreen]
  ext a b
  split_ifs with hin
  · rfl
  · cases lastFrame with
    | none =>
      obtain rfl : device = before := hlast
      rfl
    | some last =>
      obtain ⟨hw, hh⟩ := hsize last rfl
      have hlast : device.screen = _ := hlast
      rw [hlast, hw, hh]
      exact if_neg hin

section Prepared

variable {frameInfo : FrameInfo} {palette : UInt8 → γ} {stream : MemoryStream} {buffer : ℕ → γ}
  {input : ByteInput → Option UInt8 × ByteInput} {result : Bool × ByteInput × Surface γ}

theorem recolorImpl_whole
    (hprepare : prepareFrame player i s.image.stream = (some (frameInfo, palette), stream))
    (hdelta : frameInfo.isDelta = false) (ho : Opened file w h s.image)
    (hinput : prepareInputState frameInfo.compressionScheme = some input)
    (hresult : internalAppender player.panel input palette buffer frameInfo.bpp
      (pixelCount x y ((x + w + (2 ^ 16 - 1)) % 2 ^ 16) ((y + h + (2 ^ 16 - 1)) % 2 ^ 16))
      { srcStream := stream } (s.device.setViewport x y ((x + w + (2 ^ 16 - 1)) % 2 ^ 16)
        ((y + h + (2 ^ 16 - 1)) % 2 ^ 16)) = result) :
    recolorImpl player x y i buffer s =
      (result.1, ⟨{ s.image with stream := result.2.1.srcStream }, result.2.2⟩) := by
  subst hresult
  unfold recolorImpl
  simp only [hprepare, hinput, hdelta, Bool.false_eq_true, if_false, ho.width, ho.height]

theorem recolorImpl_delta {l t r b : ℕ}
    (hprepare : prepareFrame player i s.image.stream = (some (frameInfo, palette), stream))
    (hdelta : frameInfo.isDelta = true) (hl : (x + frameInfo.left) % 2 ^ 16 = l)
    (ht : (y + frameInfo.top) % 2 ^ 16 = t) (hr : (x + frameInfo.right) % 2 ^ 16 = r)
    (hb : (y + frameInfo.bottom) % 2 ^ 16 = b)
    (hinput : prepareInputState frameInfo.compressionScheme = some input)
    (hresult : internalAppender player.panel input palette buffer frameInfo.bpp
      (pixelCount l t r b) { srcStream := stream } (s.device.setViewport l t r b) = result) :
    recolorImpl player x y i buffer s =
      (result.1, ⟨{ s.image with stream := result.2.1.srcStream }, result.2.2⟩) := by
  subst hl ht hr hb hresult
  unfold recolorImpl
  simp only [hprepare, hinput, hdelta, if_true]

end Prepared

theorem Saved.recolor_shows (hs : Saved info w h frames outputs file)
    (hframe : frames[i]? = some frame) (hsize : file.length < 2 ^ 31)
    (hcapable : bppCapable player info.format.bpp = true) (hwidth : x + w ≤ player.panel.width)
    (hheight : y + h ≤ player.panel.height) (hcolumns : ¬ (x = 0 ∧ w = 0 ∧ 0 < h))
    (hrows : ¬ (y = 0 ∧ h = 0 ∧ 0 < w)) (ho : Opened file w h s.image) {before : Surface γ}
    (hlast : ShowsLast player info x y (previous none frames i) before s.device)
    (buffer : ℕ → γ) : ∃ s', recolorImpl player x y i buffer s = (true, s') ∧
      Opened file w h s'.image ∧ Shows player info x y frame.image before s'.device := by
  have hpanel := player.panel.width_lt
  have hpanel' := player.panel.height_lt
  obtain ⟨hw, hh⟩ := hs.size frame (List.mem_of_getElem? hframe)
  obtain ⟨out, hout, hchoice, hfits⟩ := hs.exists_choice hframe
  have hlasts : ∀ im ∈ previous none frames i, im.width = frame.image.width ∧
      im.height = frame.image.height := by
    intro im him
    cases i with
    | zero => cases him
    | succ i =>
      obtain ⟨f, hf, rfl⟩ := Option.map_eq_some_iff.mp him
      rw [hw, hh]
      exact hs.size f (List.mem_of_getElem? hf)
  obtain ⟨p, hprepare, hholds⟩ := hs.prepareFrame hframe hout hfits hsize ho.stream hcapable
  cases hchoice with
  | whole hdata =>
    have hedges : 0 < frame.image.width * frame.image.height →
        (x + w + (2 ^ 16 - 1)) % 2 ^ 16 = x + frame.image.width - 1 ∧
          (y + h + (2 ^ 16 - 1)) % 2 ^ 16 = y + frame.image.height - 1 := by
      intro hpos
      have hw := Nat.pos_of_mul_pos_right hpos
      have hh := Nat.pos_of_mul_pos_left hpos
      omega
    have hcount := (pixelCount_whole_iff (x := x) (y := y) (w := w) (h := h) (by omega)
      (by omega)).mpr ⟨hcolumns, hrows⟩
    have hx : x + frame.image.width ≤ player.panel.width := by omega
    have hy : y + frame.image.height ≤ player.panel.height := by omega
    obtain ⟨input, stream, device, hinput, hdrawn, hf, hscreen⟩ := draw_image hs.gray hdata hholds
      (MemoryStream.readsFrom_ofFile file p) hx hy hedges (by rw [hcount, hw, hh]) buffer s.device
    refine ⟨⟨{ s.image with stream := stream.srcStream }, device⟩,
      recolorImpl_whole hprepare rfl ho hinput hdrawn, ⟨hf, ho.width, ho.height⟩, ?_⟩
    exact Shows.whole hlasts hlast hscreen
  | delta hbefore hbox hdata =>
    rename_i last bbox data useRaw
    have hleft := hbox.left
    have hright := hbox.right
    have htop := hbox.top
    have hbottom := hbox.bottom
    rw [hbefore] at hlast
    have hx : x + bbox.left + (bbox.right - bbox.left) ≤ player.panel.width := by omega
    have hy : y + bbox.top + (bbox.bottom - bbox.top) ≤ player.panel.height := by omega
    have hwide : bbox.right - bbox.left < 2 ^ 16 := by omega
    have hhigh : bbox.bottom - bbox.top < 2 ^ 16 := by omega
    have hcount : pixelCount (x + bbox.left) (y + bbox.top) (x + (bbox.right - 1))
        (y + (bbox.bottom - 1)) = (bbox.right - bbox.left) * (bbox.bottom - bbox.top) :=
      pixelCount_box (by omega) (by omega) ((Nat.mul_lt_mul'' hwide hhigh).trans_eq (by decide))
    have hl : (x + bbox.left) % 2 ^ 16 = x + bbox.left := Nat.mod_eq_of_lt (by omega)
    have ht : (y + bbox.top) % 2 ^ 16 = y + bbox.top := Nat.mod_eq_of_lt (by omega)
    have hr : (x + (bbox.right - 1)) % 2 ^ 16 = x + (bbox.right - 1) := Nat.mod_eq_of_lt (by omega)
    have hb : (y + (bbox.bottom - 1)) % 2 ^ 16 = y + (bbox.bottom - 1) :=
      Nat.mod_eq_of_lt (by omega)
    obtain ⟨input, stream, device, hinput, hdrawn, hf, hscreen⟩ := draw_image hs.gray hdata hholds
      (MemoryStream.readsFrom_ofFile file p) hx hy
      (fun _ => ⟨by dsimp only [Image.crop]; omega, by dsimp only [Image.crop]; omega⟩) hcount
      buffer s.device
    refine ⟨⟨{ s.image with stream := stream.srcStream }, device⟩,
      recolorImpl_delta hprepare rfl hl ht hr hb hinput hdrawn, ⟨hf, ho.width, ho.height⟩, ?_⟩
    exact Shows.delta (hlasts last hbefore) hbox rfl hlast hscreen

theorem Saved.opened_recolorImpl (hs : Saved info w h frames outputs file)
    (hframe : frames[i]? = some frame) (hsize : file.length < 2 ^ 31)
    (hcapable : bppCapable player info.format.bpp = true) (ho : Opened file w h s.image)
    (buffer : ℕ → γ) :
    Opened file w h (recolorImpl player x y i buffer s).2.image := by
  obtain ⟨out, hout, -, hfits⟩ := hs.exists_choice hframe
  obtain ⟨p, hprepare, -⟩ := hs.prepareFrame hframe hout hfits hsize ho.stream hcapable
  unfold recolorImpl
  simp only [hprepare]
  split
  · exact ⟨MemoryStream.readsFrom_ofFile file p, ho.width, ho.height⟩
  · rename_i input hinput
    exact ⟨readsFrom_internalAppender hinput (MemoryStream.readsFrom_ofFile file p), ho.width,
      ho.height⟩

theorem Saved.recolor_incapable (hs : Saved info w h frames outputs file)
    (hframe : frames[i]? = some frame) (hsize : file.length < 2 ^ 31)
    (ho : Opened file w h s.image) (hcapable : bppCapable player info.format.bpp ≠ true)
    (buffer : ℕ → γ) : (recolorImpl player x y i buffer s).1 = false := by
  obtain ⟨out, hout, -⟩ := hs.exists_choice hframe
  unfold recolorImpl
  simp only [hs.prepareFrame_incapable hframe hout hsize ho.stream hcapable]

/-- Nothing is left in the file for the pixels that the last frame does not have. -/
theorem Saved.recolor_last (hs : Saved info w h frames outputs file)
    (hframe : frames[i]? = some frame) (hlast : i + 1 = frames.length)
    (hsize : file.length < 2 ^ 31) (hwidth : x + w < 2 ^ 16) (hheight : y + h < 2 ^ 16)
    (hempty : x = 0 ∧ w = 0 ∧ 0 < h ∨ y = 0 ∧ h = 0 ∧ 0 < w)
    (hcapable : bppCapable player info.format.bpp = true) (ho : Opened file w h s.image)
    (buffer : ℕ → γ) : (recolorImpl player x y i buffer s).1 = false := by
  have hzero : w * h = 0 := by
    rcases hempty with ⟨-, rfl, -⟩ | ⟨-, rfl, -⟩
    · exact Nat.zero_mul h
    · exact Nat.mul_zero w
  have hcount : pixelCount x y ((x + w + (2 ^ 16 - 1)) % 2 ^ 16)
      ((y + h + (2 ^ 16 - 1)) % 2 ^ 16) ≠ 0 := by
    intro hcount
    have := (pixelCount_whole_iff hwidth hheight).mp (hcount.trans hzero.symm)
    rcases hempty with hcolumns | hrows
    · exact this.1 hcolumns
    · exact this.2 hrows
  obtain ⟨hw, hh⟩ := hs.size frame (List.mem_of_getElem? hframe)
  obtain ⟨out, hout, hchoice, hfits⟩ := hs.exists_choice hframe
  obtain ⟨p, hprepare, hholds⟩ := hs.prepareFrame hframe hout hfits hsize ho.stream hcapable
  have hrest : ((frameBlocks info.format frames outputs).drop (i + 1)).flatten = [] := by
    rw [List.drop_eq_nil_of_le (by rw [length_frameBlocks hs.encoded, hlast]), List.flatten_nil]
  rw [hrest, List.append_nil] at hholds
  cases hchoice with
  | whole hdata =>
    obtain ⟨rfl, rfl⟩ := encodes_empty hs.gray (by rw [hw, hh, hzero]) hdata
    have hnone : (byteUncompressedDecoder { srcStream := MemoryStream.ofFile file p }).1 = none :=
      hholds.get_nil
    have hinput : prepareInputState 0 = some byteUncompressedDecoder := rfl
    rw [recolorImpl_whole hprepare rfl ho hinput rfl]
    exact internalAppender_none hnone hcount _
  | delta _ hbox =>
    have hleft := hbox.left
    have hright := hbox.right
    have htop := hbox.top
    have hbottom := hbox.bottom
    omega

end Steps

section Runs

variable {γ : Type*} (player : Player γ) (info : EncoderInfo) (frames : List Frame) (x y : ℕ)

/-- Drawing the first frames one after the other; before each of them `buffer` tells what is in
the buffer for the pixels. -/
def play (buffer : ℕ → ℕ → γ) (s : State γ) : ℕ → Bool × State γ
  | 0 => (true, s)
  | i + 1 => recolorImpl player x y i (buffer i) (play buffer s i).2

/-- The frames are saved as a file that is valid and loaded, and once a frame is drawn the device
shows it. -/
def Plays : Prop :=
  ∃ file image, save info frames = some file ∧ (validateStream (.ofFile file 0)).1 = true ∧
    loadImageMem file = some image ∧
    ∀ (device : Surface γ) (buffer : ℕ → ℕ → γ) (i : ℕ) (frame : Frame), frames[i]? = some frame →
      (play player x y buffer ⟨image, device⟩ (i + 1)).1 = true ∧
        Shows player info x y frame.image device
          (play player x y buffer ⟨image, device⟩ (i + 1)).2.device

/-- The condition for frames of `w` columns and `h` rows. -/
structure Playable (w h : ℕ) : Prop where
  noSmallDelta : info.useRle = true ∨ info.useDeltas = false ∨
    (frames.map Frame.image).IsChain fun last frame => ¬ SmallDelta info frame last
  count : frames.length < 2 ^ 16
  delays : ∀ f ∈ frames, f.delay < 2 ^ 16
  size : fileSize info frames < 2 ^ 31
  capable : bppCapable player info.format.bpp = true
  columns : ¬ (x = 0 ∧ w = 0 ∧ 0 < h)
  rows : ¬ (y = 0 ∧ h = 0 ∧ 0 < w)

variable {player info frames x y} {w h : ℕ} {file : List UInt8} {outputs : List Outputs}

theorem Saved.play_shows (hs : Saved info w h frames outputs file) (hsize : file.length < 2 ^ 31)
    (hplayable : Playable player info frames x y w h) (hwidth : x + w ≤ player.panel.width)
    (hheight : y + h ≤ player.panel.height) (buffer : ℕ → ℕ → γ) (device : Surface γ) {n : ℕ}
    (hn : n ≤ frames.length) :
    (play player x y buffer ⟨handle w h frames file, device⟩ n).1 = true ∧
      Opened file w h (play player x y buffer ⟨handle w h frames file, device⟩ n).2.image ∧
      ShowsLast player info x y (previous none frames n) device
        (play player x y buffer ⟨handle w h frames file, device⟩ n).2.device := by
  induction n with
  | zero => exact ⟨rfl, ⟨MemoryStream.readsFrom_ofFile file 23, rfl, rfl⟩, rfl⟩
  | succ n ih =>
    obtain ⟨-, ho, hlast⟩ := ih (by omega)
    have hframe := List.getElem?_eq_getElem (Nat.lt_of_succ_le hn)
    obtain ⟨s', hdrawn, ho', hshows⟩ := hs.recolor_shows hframe hsize hplayable.capable hwidth
      hheight hplayable.columns hplayable.rows ho hlast (buffer n)
    rw [play, hdrawn]
    refine ⟨rfl, ho', ?_⟩
    rw [previous, hframe]
    exact hshows

theorem Saved.opened_play (hs : Saved info w h frames outputs file) (hsize : file.length < 2 ^ 31)
    (hcapable : bppCapable player info.format.bpp = true) (buffer : ℕ → ℕ → γ) (device : Surface γ)
    {n : ℕ} (hn : n ≤ frames.length) :
    Opened file w h (play player x y buffer ⟨handle w h frames file, device⟩ n).2.image := by
  induction n with
  | zero => exact ⟨MemoryStream.readsFrom_ofFile file 23, rfl, rfl⟩
  | succ n ih =>
    exact hs.opened_recolorImpl (List.getElem?_eq_getElem (Nat.lt_of_succ_le hn)) hsize
      hcapable (ih (by omega)) (buffer n)

/-- When the last frame is drawn, there is no row or column without pixels at the edge. -/
theorem Saved.edges_of_play (hs : Saved info w h frames outputs file) (hne : frames ≠ [])
    (hsize : file.length < 2 ^ 31) (hwidth : x + w < 2 ^ 16) (hheight : y + h < 2 ^ 16)
    (hcapable : bppCapable player info.format.bpp = true) {buffer : ℕ → ℕ → γ} {device : Surface γ}
    (hplay : ∀ i < frames.length,
      (play player x y buffer ⟨handle w h frames file, device⟩ (i + 1)).1 = true) :
    ¬ (x = 0 ∧ w = 0 ∧ 0 < h ∨ y = 0 ∧ h = 0 ∧ 0 < w) := by
  intro hempty
  obtain ⟨n, hn⟩ := Nat.exists_eq_succ_of_ne_zero (List.length_pos_iff.mpr hne).ne'
  have hi : n < frames.length := by omega
  have ho := hs.opened_play (x := x) (y := y) hsize hcapable buffer device hi.le
  have hdrawn := hplay n hi
  rw [play, hs.recolor_last (List.getElem?_eq_getElem hi) hn.symm hsize hwidth hheight hempty
    hcapable ho] at hdrawn
  cases hdrawn

theorem exists_saved (hgray : Gray info.format) (hw : w < 2 ^ 16) (hh : h < 2 ^ 16)
    (hsize : ∀ f ∈ frames, f.image.width = w ∧ f.image.height = h)
    (hplayable : Playable player info frames x y w h) :
    ∃ outputs file, Saved info w h frames outputs file := by
  obtain ⟨outputs, hencoded⟩ := Option.isSome_iff_exists.mp
    ((encodeFrames_isSome hgray none frames).mpr hplayable.noSmallDelta)
  have hlen : ∀ size, (graphicsBytes size w h frames.length ++
      fileBody info.format frames outputs).length = fileSize info frames := by
    intro size
    rw [List.length_append, length_graphicsBytes, length_fileBody hencoded, length_frames hencoded,
      fileSize]
    omega
  refine ⟨outputs, _, hgray, hw, hh, hsize, hencoded, hplayable.delays, hplayable.count, ?_,
    congrArg (graphicsBytes · w h _ ++ _) (hlen (fileSize info frames)).symm⟩
  rw [hlen]
  exact hplayable.size.trans (by decide)

/-- A graphics file is written, valid and drawn frame after frame exactly if it has no small delta
frame without run lengths, its numbers fit, the build can draw it, and no row or column without
pixels is at the edge of the panel. -/
theorem plays_iff (hgray : Gray info.format) (hne : frames ≠ [])
    (hsize : ∀ f ∈ frames, f.image.width = w ∧ f.image.height = h)
    (hwidth : x + w ≤ player.panel.width) (hheight : y + h ≤ player.panel.height) :
    Plays player info frames x y ↔ Playable player info frames x y w h := by
  have hpanel := player.panel.width_lt
  have hpanel' := player.panel.height_lt
  have hw : w < 2 ^ 16 := by omega
  have hh : h < 2 ^ 16 := by omega
  constructor
  · rintro ⟨file, image, hsave, -, hload, hplay⟩
    obtain ⟨outputs, hs⟩ := (save_eq hgray hw hh hne hsize).mp hsave
    have hlt : file.length < 2 ^ 31 := by
      by_contra hlarge
      rw [hs.loadImageMem_large (by omega)] at hload
      cases hload
    obtain rfl := Option.some.inj ((hs.loadImageMem hlt).symm.trans hload)
    -- any device will do
    have hplay := hplay ⟨⟨0, 0, 0, 0, 0, 0⟩, fun _ _ => player.paletteConvert ⟨0, 0, 0⟩⟩
      fun _ _ => player.paletteConvert ⟨0, 0, 0⟩
    have hdrawn := fun i (hi : i < frames.length) => (hplay i _ (List.getElem?_eq_getElem hi)).1
    have hpos := List.length_pos_iff.mpr hne
    have hcapable : bppCapable player info.format.bpp = true := by
      by_contra hincapable
      have hfirst := hdrawn 0 hpos
      rw [play, hs.recolor_incapable (List.getElem?_eq_getElem hpos) hlt
        ⟨MemoryStream.readsFrom_ofFile file 23, rfl, rfl⟩ hincapable] at hfirst
      cases hfirst
    have hedges := hs.edges_of_play hne hlt (by omega) (by omega) hcapable hdrawn
    refine ⟨?_, hs.count, hs.delays, hs.length_eq ▸ hlt, hcapable, fun h => hedges (.inl h),
      fun h => hedges (.inr h)⟩
    simpa [hs.encoded] using encodeFrames_isSome hgray none frames
  · intro hplayable
    obtain ⟨outputs, file, hs⟩ := exists_saved hgray hw hh hsize hplayable
    have hlt : file.length < 2 ^ 31 := hs.length_eq.trans_lt hplayable.size
    obtain ⟨t, hvalid, -⟩ := hs.validateStream hlt (MemoryStream.readsFrom_ofFile file 0)
    refine ⟨file, handle w h frames file, (save_eq hgray hw hh hne hsize).mpr ⟨outputs, hs⟩,
      by rw [hvalid], hs.loadImageMem hlt, fun device buffer i frame hframe => ?_⟩
    have hi := (List.getElem?_eq_some_iff.mp hframe).1
    obtain ⟨hok, -, hshows⟩ := hs.play_shows hlt hplayable hwidth hheight buffer device
      (Nat.succ_le_of_lt hi)
    rw [previous, hframe] at hshows
    exact ⟨hok, hshows⟩

/-- A device of four columns and three rows in HSV. -/
def smallPlayer : Player Hsv where
  panel := ⟨4, 3, 8, by decide, by decide, by decide⟩
  supports256Palette := true
  supportsNativeColors := false
  paletteConvert := id
  fg := ⟨0, 0, 255⟩
  bg := ⟨0, 0, 0⟩

/-- A black frame, and then one with a white pixel. -/
def dotFrames : List Frame :=
  [⟨⟨4, 3, fun _ _ => (0, 0, 0)⟩, 100⟩,
    ⟨⟨4, 3, fun x y => if x = 1 ∧ y = 2 then (255, 255, 255) else (0, 0, 0)⟩, 100⟩]

theorem plays_dot : Plays smallPlayer ⟨.mono256, true, true, id⟩ dotFrames 0 0 :=
  (plays_iff (w := 4) (h := 3) ⟨by decide, rfl⟩ (by decide) (by decide) (by decide)
    (by decide)).mpr
    ⟨.inl rfl, by decide, by decide, by decide +kernel, by decide, by decide, by decide⟩

/-- Without run lengths no file is written, as the white pixel makes a small delta frame. -/
theorem dot_not_saved : save ⟨.mono256, false, true, id⟩ dotFrames = none ∧
    ¬ Plays smallPlayer ⟨.mono256, false, true, id⟩ dotFrames 0 0 := by
  have hsave : save ⟨.mono256, false, true, id⟩ dotFrames = none := by decide +kernel
  refine ⟨hsave, ?_⟩
  rintro ⟨file, image, hfile, -⟩
  rw [hsave] at hfile
  cases hfile

end Runs

end Qmk.Painter.Qgf
