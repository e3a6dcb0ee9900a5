import Qmk.Painter.Blocks
import Qmk.Painter.Surface

/-! # Quantum Graphics Files

The encoder of `painter_qgf.py` for formats without a palette, and the reader of `qgf.c` and
`qp_draw_image.c`. What Python raises as an exception gives `none`.
-/

namespace Qmk.Painter.Qgf

section Encoder

structure Box where
  left : ℕ
  top : ℕ
  right : ℕ
  bottom : ℕ
  deriving DecidableEq, Repr

/-- A frame in RGB, with the `duration` of its `info`. -/
structure Frame where
  image : Image Rgb
  delay : ℕ

/-- The settings of `_save`, with the conversion of a pixel to the mode of the format. -/
structure EncoderInfo where
  format : Format
  useRle : Bool
  useDeltas : Bool
  convert : Rgb → Rgb

/-- The places below `n` where something below `m` differs. -/
def differing (n m : ℕ) (differ : ℕ → ℕ → Bool) : List ℕ :=
  (List.range n).filter fun x => (List.range m).any (differ x)

/-- `getbbox` of the `difference` of two frames: the right and bottom edges are outside. -/
def differenceBox (frame lastFrame : Image Rgb) : Option Box :=
  let columns := differing frame.width frame.height fun x y => frame.pixel x y ≠ lastFrame.pixel x y
  let rows := differing frame.height frame.width fun y x => frame.pixel x y ≠ lastFrame.pixel x y
  match columns.head?, rows.head?, columns.getLast?, rows.getLast? with
  | some left, some top, some right, some bottom => some ⟨left, top, right + 1, bottom + 1⟩
  | _, _, _, _ => none

/-- `raw_data` and `rle_data`, where the latter is a variable that may not be bound. -/
structure GraphicData where
  raw : List UInt8
  rle : Option (List UInt8)

def GraphicData.useRaw (data : GraphicData) : Bool :=
  match data.rle with
  | some rle => data.raw.length ≤ rle.length
  | none => true

def GraphicData.imageData (data : GraphicData) : List UInt8 :=
  match data.rle with
  | some rle => if data.raw.length ≤ rle.length then data.raw else rle
  | none => data.raw

variable (info : EncoderInfo)

/-- The bytes of an image, compressed as well if that is asked for. -/
def graphicData (im : Image Rgb) : Option GraphicData := do
  let raw ← convertImageBytes info.format (.rgb (im.map info.convert))
  if info.useRle then
    let rle ← toBytes (compressBytesQmkRle raw)
    return ⟨raw, some rle⟩
  else return ⟨raw, none⟩

/-- What `_compress_image` returns, with the box if the frame is a delta frame. -/
structure Outputs where
  delta : Option Box
  imageData : List UInt8
  useRaw : Bool

def compressImage (frame : Image Rgb) (lastFrame : Option (Image Rgb)) : Option Outputs := do
  let data ← graphicData info frame
  let whole : Outputs := ⟨none, data.imageData, data.useRaw⟩
  match if info.useDeltas then lastFrame.bind (differenceBox frame) else none with
  | none => return whole
  | some bbox =>
    let delta ← graphicData info (frame.crop bbox.left bbox.top bbox.right bbox.bottom)
    if delta.imageData.length + 8 < data.imageData.length then
      -- `rle_data = delta_rle_data` raises an exception when the variable is not bound
      let _ ← delta.rle
      return ⟨some ⟨bbox.left, bbox.top, bbox.right - 1, bbox.bottom - 1⟩, delta.imageData,
        delta.useRaw⟩
    else return whole

def writeFrameDescriptor (format : Format) (isDelta useRaw : Bool) (delay : ℕ) :
    Option (List UInt8) := do
  let delay ← o16 delay
  return writeHeader 2 6 ++ o8 format.imageFormatByte.toNat ++ o8 (if isDelta then 2 else 0) ++
    o8 (if useRaw then 0 else 1) ++ o8 0xFF ++ delay

def writeDeltaDescriptor (bbox : Box) : Option (List UInt8) := do
  let left ← o16 bbox.left
  let top ← o16 bbox.top
  let right ← o16 bbox.right
  let bottom ← o16 bbox.bottom
  return writeHeader 4 8 ++ left ++ top ++ right ++ bottom

def writeFrame (frame : Frame) (lastFrame : Option (Image Rgb)) : Option (List UInt8) := do
  let outputs ← compressImage info frame.image lastFrame
  let descriptor ← writeFrameDescriptor info.format outputs.delta.isSome outputs.useRaw frame.delay
  let delta ← match outputs.delta with
    | some bbox => writeDeltaDescriptor bbox
    | none => some []
  return descriptor ++ delta ++ writeHeader 5 outputs.imageData.length ++ outputs.imageData

def writeFrames : Option (Image Rgb) → List Frame → Option (List (List UInt8))
  | _, [] => some []
  | lastFrame, frame :: frames => do
    let block ← writeFrame info frame lastFrame
    let blocks ← writeFrames (some frame.image) frames
    return block :: blocks

def frameOffsets : ℕ → List (List UInt8) → List ℕ
  | _, [] => []
  | offset, block :: blocks => offset :: frameOffsets (offset + block.length) blocks

/-- `QGFFrameOffsetDescriptorV1.write`. -/
def writeFrameOffsets (offsets : List ℕ) : Option (List UInt8) := do
  let written ← offsets.mapM o32
  return writeHeader 1 (offsets.length * 4) ++ written.flatten

def writeGraphicsDescriptor (totalFileSize imageWidth imageHeight frameCount : ℕ) :
    Option (List UInt8) := do
  let size ← o32 totalFileSize
  let negSize ← o32 (2 ^ 32 - 1 - totalFileSize % 2 ^ 32)
  let width ← o16 imageWidth
  let height ← o16 imageHeight
  let count ← o16 frameCount
  return writeHeader 0 18 ++ o24 0x464751 ++ o8 1 ++ size ++ negSize ++ width ++ height ++ count

def save (frames : List Frame) : Option (List UInt8) :=
  match frames with
  | [] => none
  | first :: _ =>
    if ∀ frame ∈ frames, frame.image.width = first.image.width ∧
        frame.image.height = first.image.height then do
      let blocks ← writeFrames info none frames
      let start := 23 + 5 + frames.length * 4
      let descriptor ← writeGraphicsDescriptor (start + blocks.flatten.length) first.image.width
        first.image.height frames.length
      let offsets ← writeFrameOffsets (frameOffsets start blocks)
      return descriptor ++ offsets ++ blocks.flatten
    else none

end Encoder

section Reader

/-- `qgf_graphics_descriptor_v1_t`, as far as it is read. -/
structure GraphicsDescriptor where
  imageWidth : ℕ
  imageHeight : ℕ
  frameCount : ℕ
  totalFileSize : ℕ

def readGraphicsDescriptor (s : MemoryStream) : Option GraphicsDescriptor × MemoryStream :=
  let r := readStruct 23 (s.setpos 0).2
  match r.1 with
  | none => (none, r.2)
  | some bs =>
    if validateBlockHeader (blockHeader bs) 0 18 ∧ field 5 3 bs = 0x464751 ∧ field 8 1 bs = 1 ∧
        field 13 4 bs = 2 ^ 32 - 1 - field 9 4 bs then
      (some {
        imageWidth := field 17 2 bs
        imageHeight := field 19 2 bs
        frameCount := field 21 2 bs
        totalFileSize := field 9 4 bs }, r.2)
    else (none, r.2)

def readFrameOffset (frameNumber : ℕ) (s : MemoryStream) : Option ℕ × MemoryStream :=
  let r := readGraphicsDescriptor s
  match r.1 with
  | none => (none, r.2)
  | some descriptor =>
    let r := readStruct 5 r.2
    match r.1 with
    | none => (none, r.2)
    | some bs =>
      if validateBlockHeader (blockHeader bs) 1 (descriptor.frameCount * 4 : ℕ) ∧
          frameNumber < descriptor.frameCount then
        let r := readStruct 4 (r.2.seek (frameNumber * 4 : ℕ) .cur).2
        (r.1.map leNat, r.2)
      else (none, r.2)

def seekToFrameDescriptor (frameNumber : ℕ) (s : MemoryStream) : MemoryStream :=
  let r := readFrameOffset frameNumber s
  (r.2.setpos (r.1.getD 0)).2

structure FrameInfo where
  compressionScheme : ℕ := 0
  bpp : ℕ := 0
  hasPalette : Bool := false
  isPanelNative : Bool := false
  isDelta : Bool := false
  left : ℕ := 0
  top : ℕ := 0
  right : ℕ := 0
  bottom : ℕ := 0
  delay : ℕ := 0

def parseFrameDescriptor (bs : List UInt8) : FrameInfo :=
  let format := (parseFormat (field 5 1 bs)).getD (0, false, false)
  { compressionScheme := field 7 1 bs
    bpp := format.1
    hasPalette := format.2.1
    isPanelNative := format.2.2
    isDelta := field 6 1 bs &&& 2 = 2
    delay := field 9 2 bs }

def validateFrameDescriptor (frameNumber : ℕ) (s : MemoryStream) :
    Option FrameInfo × MemoryStream :=
  let r := readStruct 11 (seekToFrameDescriptor frameNumber s)
  match r.1 with
  | none => (none, r.2)
  | some bs =>
    if validateBlockHeader (blockHeader bs) 2 6 then (some (parseFrameDescriptor bs), r.2)
    else (none, r.2)

def validatePaletteDescriptor (bpp : ℕ) (s : MemoryStream) : Bool × MemoryStream :=
  let r := readStruct 5 s
  match r.1 with
  | none => (false, r.2)
  | some bs =>
    if validateBlockHeader (blockHeader bs) 3 ((1 <<< bpp) * 3 : ℕ) then
      (true, (r.2.seek ((1 <<< bpp) * 3 : ℕ) .cur).2)
    else (false, r.2)

def validateDeltaDescriptor (s : MemoryStream) : Bool × MemoryStream :=
  let r := readStruct 13 s
  match r.1 with
  | none => (false, r.2)
  | some bs => (validateBlockHeader (blockHeader bs) 4 8, r.2)

def validateFrameDataDescriptor (s : MemoryStream) : Bool × MemoryStream :=
  let r := readStruct 5 s
  match r.1 with
  | none => (false, r.2)
  | some bs => (validateBlockHeader (blockHeader bs) 5 (-1), r.2)

def validateFrame (frameNumber : ℕ) (s : MemoryStream) : Bool × MemoryStream :=
  let r := validateFrameDescriptor frameNumber s
  match r.1 with
  | none => (false, r.2)
  | some info =>
    let r := if info.hasPalette then validatePaletteDescriptor info.bpp r.2 else (true, r.2)
    if r.1 then
      let r := if info.isDelta then validateDeltaDescriptor r.2 else r
      if r.1 then validateFrameDataDescriptor r.2 else r
    else r

/-- The loop of `qgf_validate_stream` over the frames. -/
def validateFrames : List ℕ → MemoryStream → Bool × MemoryStream
  | [], s => (true, s)
  | i :: is, s =>
    let r := validateFrame i s
    if r.1 then validateFrames is r.2 else r

def validateStream (s : MemoryStream) : Bool × MemoryStream :=
  let r := readGraphicsDescriptor s
  match r.1 with
  | none => (false, r.2)
  | some descriptor => validateFrames (List.range descriptor.frameCount) r.2

def getTotalSize (s : MemoryStream) : ℕ × MemoryStream :=
  let oldpos := s.position
  let r := readGraphicsDescriptor s
  match r.1 with
  | none => (0, r.2)
  | some d => (d.totalFileSize, (r.2.setpos oldpos).2)

structure ImageHandle where
  width : ℕ
  height : ℕ
  frameCount : ℕ
  stream : MemoryStream

/-- `qp_load_image_mem`, for a buffer that holds the file. -/
def loadImageMem (buffer : List UInt8) : Option ImageHandle :=
  let total := getTotalSize (.make buffer 23)
  let valid := validateStream
    { total.2 with length := (BitVec.ofNat 32 total.1).toInt, position := 0 }
  if valid.1 then
    let r := readGraphicsDescriptor valid.2
    let d := r.1.getD ⟨0, 0, 0, 0⟩
    some {
      width := d.imageWidth
      height := d.imageHeight
      frameCount := d.frameCount
      stream := r.2 }
  else none

end Reader

section Player

structure Hsv where
  h : UInt8
  s : UInt8
  v : UInt8
  deriving DecidableEq, Repr

/-- A component of `qp_internal_interpolate_palette`. -/
def interpolate (fg bg : ℤ) (steps : ℕ) (i : ℕ) : UInt8 :=
  UInt8.ofInt (((fg - bg) * i).tdiv (steps - 1) + bg)

def interpolatePalette (fg bg : Hsv) (steps : ℕ) (i : ℕ) : Hsv :=
  let hueFg : ℤ := fg.h.toNat
  let hueBg : ℤ := bg.h.toNat
  -- the shortest way from one hue to the other
  let hueBg := if 128 ≤ hueFg - hueBg then hueBg + 256
    else if hueFg - hueBg ≤ -128 then hueBg - 256
    else hueBg
  { h := interpolate hueFg hueBg steps i
    s := interpolate fg.s.toNat bg.s.toNat steps i
    v := interpolate fg.v.toNat bg.v.toNat steps i }

structure Player (γ : Type*) where
  panel : Panel
  supports256Palette : Bool
  supportsNativeColors : Bool
  paletteConvert : Hsv → γ
  fg : Hsv
  bg : Hsv

variable {γ : Type*} (player : Player γ)

def bppCapable (bitsPerPixel : ℕ) : Bool :=
  player.supportsNativeColors ∨ bitsPerPixel ≤ 4 ∨ player.supports256Palette ∧ bitsPerPixel ≤ 8

def loadQgfPalette (bpp : ℕ) (s : MemoryStream) : Option (List Hsv) × MemoryStream :=
  let r := readStruct 5 s
  match r.1 with
  | none => (none, r.2)
  | some _ =>
    let r := readStruct ((1 <<< bpp) * 3) r.2
    (r.1.map fun bs => (List.range (1 <<< bpp)).map fun i =>
      ⟨bs.getD (3 * i) 0, bs.getD (3 * i + 1) 0, bs.getD (3 * i + 2) 0⟩, r.2)

def framePalette (info : FrameInfo) (s : MemoryStream) : Option (UInt8 → γ) × MemoryStream :=
  if info.hasPalette then
    let r := loadQgfPalette info.bpp s
    (r.1.map fun entries i => player.paletteConvert (entries.getD i.toNat ⟨0, 0, 0⟩), r.2)
  else
    (some fun i => player.paletteConvert
      (interpolatePalette player.fg player.bg (1 <<< info.bpp) i.toNat), s)

def readDelta (info : FrameInfo) (s : MemoryStream) : Option FrameInfo × MemoryStream :=
  if info.isDelta then
    let r := readStruct 13 s
    (r.1.map fun bs => { info with
      left := field 5 2 bs, top := field 7 2 bs, right := field 9 2 bs, bottom := field 11 2 bs },
      r.2)
  else (some info, s)

/-- `qp_drawimage_prepare_frame_for_stream_read`. -/
def prepareFrame (frameNumber : ℕ) (s : MemoryStream) :
    Option (FrameInfo × (UInt8 → γ)) × MemoryStream :=
  let r := readStruct 11 (seekToFrameDescriptor frameNumber s)
  match r.1 with
  | none => (none, r.2)
  | some bs =>
    let info := parseFrameDescriptor bs
    if bppCapable player info.bpp then
      let r := framePalette player info r.2
      match r.1 with
      | none => (none, r.2)
      | some palette =>
        let r := readDelta info r.2
        match r.1 with
        | none => (none, r.2)
        | some info =>
          let r := readStruct 5 r.2
          (r.1.map fun _ => (info, palette), r.2)
    else (none, r.2)

def prepareInputState (compression : ℕ) : Option (ByteInput → Option UInt8 × ByteInput) :=
  match compression with
  | 0 => some byteUncompressedDecoder
  | 1 => some byteRleDecoder
  | _ => none

/-- The number of pixels between the edges of the viewport, in 32 bits. -/
def pixelCount (l t r b : ℕ) : ℕ :=
  (BitVec.ofInt 32 ((r : ℤ) - l + 1) * BitVec.ofInt 32 ((b : ℤ) - t + 1)).toNat

structure State (γ : Type*) where
  image : ImageHandle
  device : Surface γ

/-- `qp_drawimage_recolor_impl`, for frames whose pixels are indices. -/
def recolorImpl (x y frameNumber : ℕ) (buffer : ℕ → γ) (s : State γ) : Bool × State γ :=
  let r := prepareFrame player frameNumber s.image.stream
  let s := { s with image := { s.image with stream := r.2 } }
  match r.1 with
  | none => (false, s)
  | some (info, palette) =>
    let l := if info.isDelta then (x + info.left) % 2 ^ 16 else x
    let t := if info.isDelta then (y + info.top) % 2 ^ 16 else y
    let r := if info.isDelta then (x + info.right) % 2 ^ 16
      else (x + s.image.width + (2 ^ 16 - 1)) % 2 ^ 16
    let b := if info.isDelta then (y + info.bottom) % 2 ^ 16
      else (y + s.image.height + (2 ^ 16 - 1)) % 2 ^ 16
    let device := s.device.setViewport l t r b
    match prepareInputState info.compressionScheme with
    | none => (false, { s with device })
    | some input =>
      let r := internalAppender player.panel input palette buffer info.bpp (pixelCount l t r b)
        { srcStream := s.image.stream } device
      (r.1, ⟨{ s.image with stream := r.2.1.srcStream }, r.2.2⟩)

end Player

end Qmk.Painter.Qgf
