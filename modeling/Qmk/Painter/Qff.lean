import Mathlib.Data.List.Sort
import Qmk.Painter.Blocks
import Qmk.Painter.Pixels

/-! # Quantum Font Files

The font encoder of `painter_qff.py` and the font reader of `qff.c` and `qp_draw_text.c`,
in a build that supports native colors and does not copy fonts to memory. The conversion
of the image to the colors of a format, and of its palette to HSV, are parameters.
-/

namespace Qmk.Painter.Qff

abbrev PyChar := Fin 0x110000

section Parser

def asciiRange : List PyChar := (List.range' 0x20 95).map (Fin.ofNat 0x110000)

def generateFontGlyphsList (useAscii : Bool) (unicodeGlyphs : List PyChar) : List PyChar :=
  ((if useAscii then asciiRange else []) ++ unicodeGlyphs).dedup.insertionSort (· ≤ ·)

structure Markers where
  offsets : List ℕ
  widths : List ℕ
  lastOffset : ℕ

/-- The loop of `_parse_image` over the columns of the marker line. -/
def markerStep (isMarker : ℕ → Bool) (m : Markers) (x : ℕ) : Markers :=
  if isMarker x then
    { offsets := m.offsets ++ [x], widths := m.widths ++ [x - m.lastOffset], lastOffset := x }
  else m

def findMarkers (isMarker : ℕ → Bool) (width : ℕ) : List ℕ × List ℕ :=
  let m := (List.range' 1 (width - 1)).foldl (markerStep isMarker) ⟨[0], [], 0⟩
  (m.offsets, m.widths ++ [width - m.lastOffset])

/-- `QFFGlyphInfo` after `_parse_image`. -/
structure Glyph where
  codePoint : PyChar
  x : ℕ
  w : ℕ
  deriving DecidableEq, Repr

/-- What `_parse_image` keeps of an image. -/
structure Font where
  glyphData : List Glyph
  glyphHeight : ℕ

/-- `_parse_image`, which reads the marker color at the top left. -/
def parseImage {α : Type*} [DecidableEq α] (img : Image α) (includeAsciiGlyphs : Bool)
    (unicodeGlyphs : List PyChar) : Option Font :=
  if img.width = 0 ∨ img.height = 0 then none
  else
    let glyphs := generateFontGlyphsList includeAsciiGlyphs unicodeGlyphs
    let markers := findMarkers (fun x => img.pixel x 0 = img.pixel 0 0) img.width
    if markers.1.length ≠ glyphs.length then none
    else some {
      glyphData := (glyphs.zip (markers.1.zip markers.2)).map fun g => ⟨g.1, g.2.1, g.2.2⟩
      glyphHeight := img.height - 1 }

end Parser

section Encoder

/-- A glyph with the offset of its data and the data. -/
structure Entry where
  glyph : Glyph
  dataOffset : ℕ
  image : List UInt8

/-- The value of `QFFGlyphInfo.write`. -/
def glyphValue (dataOffset w : ℕ) : ℕ := (dataOffset <<< 6 &&& 0xFFFFC0) ||| (w &&& 0x3F)

def Entry.write (includeCodePoint : Bool) (e : Entry) : List UInt8 :=
  (if includeCodePoint then o24 e.glyph.codePoint else []) ++
    o24 (glyphValue e.dataOffset e.glyph.w)

def cropConverted (left top right bottom : ℕ) : Converted → Converted
  | .rgb im => .rgb (im.crop left top right bottom)
  | .paletted im palette => .paletted (im.crop left top right bottom) palette

/-- `_extract_glyphs`: the bytes of each glyph, and these bytes compressed. -/
def extractGlyphs (format : Format) (converted : Converted) (font : Font) :
    Option (List (Glyph × List UInt8 × List UInt8)) :=
  font.glyphData.mapM fun g => do
    let uncompressed ← convertImageBytes format
      (cropConverted g.x 1 (g.x + g.w) (1 + font.glyphHeight) converted)
    let compressed ← toBytes (compressBytesQmkRle uncompressed)
    return (g, uncompressed, compressed)

def placeGlyphs : ℕ → List (Glyph × List UInt8) → List Entry
  | _, [] => []
  | dataOffset, (g, image) :: images =>
    ⟨g, dataOffset, image⟩ :: placeGlyphs (dataOffset + image.length) images

def includesAscii (entries : List Entry) : Bool :=
  asciiRange.all fun c => entries.any (·.glyph.codePoint = c)

def asciiEntries (entries : List Entry) : List Entry :=
  entries.filter fun e => includesAscii entries ∧ e.glyph.codePoint ∈ asciiRange

def unicodeEntries (entries : List Entry) : List Entry :=
  entries.filter fun e => ¬ (includesAscii entries ∧ e.glyph.codePoint ∈ asciiRange)

/-- `QFFAsciiGlyphTableV1.write`, if there is such a table. -/
def writeAsciiTable (entries : List Entry) : List UInt8 :=
  if includesAscii entries then
    writeHeader 1 (95 * 3) ++ asciiRange.flatMap fun c =>
      match (asciiEntries entries).find? (·.glyph.codePoint = c) with
      | some e => e.write false
      | none => []
  else []

/-- `QFFUnicodeGlyphTableV1.write`, if there is such a table. -/
def writeUnicodeTable (entries : List Entry) : List UInt8 :=
  let glyphs := (unicodeEntries entries).insertionSort (·.glyph.codePoint ≤ ·.glyph.codePoint)
  if 0 < glyphs.length then
    writeHeader 2 (glyphs.length * 6) ++ glyphs.flatMap (Entry.write true)
  else []

/-- `QFFFramePaletteDescriptorV1.write`, if the format has a palette. -/
def writePalette (toHsv : Rgb → Rgb) (format : Format) (converted : Converted) :
    Option (List UInt8) :=
  if format.hasPalette then
    match converted with
    | .rgb _ => none
    | .paletted _ palette =>
      if palette.length < format.numColors then none
      else
        let entries := (palette.take format.numColors).map toHsv
        some (writeHeader 3 (entries.length * 3) ++
          entries.flatMap fun e => [e.1, e.2.1, e.2.2])
  else some []

def writeFontDescriptor (totalFileSize lineHeight : ℕ) (hasAsciiTable : Bool)
    (unicodeGlyphCount : ℕ) (format : Format) (useRle : Bool) : Option (List UInt8) := do
  let size ← o32 totalFileSize
  let negSize ← o32 (2 ^ 32 - 1 - totalFileSize % 2 ^ 32)
  return writeHeader 0 20 ++ o24 0x464651 ++ o8 1 ++ size ++ negSize ++ o8 lineHeight ++
    o8 (if hasAsciiTable then 1 else 0) ++ leBytes 2 (unicodeGlyphCount &&& 0xFFFF) ++
    o8 format.imageFormatByte.toNat ++ o8 0 ++ o8 (if useRle then 1 else 0) ++ o8 0xFF

/-- The variables of `save_to_qff` when it writes the file. -/
structure Parts where
  entries : List Entry
  useRle : Bool
  palette : List UInt8

/-- The font before it is written. -/
def layout (toHsv : Rgb → Rgb) (format : Format) (useRle : Bool) (converted : Converted)
    (font : Font) : Option Parts := do
  let glyphs ← extractGlyphs format converted font
  let totalDataSize : ℕ := (glyphs.map fun g => g.2.1.length).sum
  let totalRleDataSize : ℕ := (glyphs.map fun g => g.2.2.length).sum
  let useRle := useRle && decide (totalRleDataSize < totalDataSize)
  let entries := placeGlyphs 0 (glyphs.map fun g => (g.1, if useRle then g.2.2 else g.2.1))
  let palette ← writePalette toHsv format converted
  return { entries, useRle, palette }

def Parts.imgBuffer (parts : Parts) : List UInt8 := parts.entries.flatMap Entry.image

def Parts.body (parts : Parts) : List UInt8 :=
  writeAsciiTable parts.entries ++ writeUnicodeTable parts.entries ++ parts.palette ++
    writeHeader 4 parts.imgBuffer.length ++ parts.imgBuffer

def saveToQff (toHsv : Rgb → Rgb) (format : Format) (useRle : Bool) (converted : Converted)
    (font : Font) : Option (List UInt8) := do
  let parts ← layout toHsv format useRle converted font
  let descriptor ← writeFontDescriptor (25 + parts.body.length) font.glyphHeight
    (includesAscii parts.entries) (unicodeEntries parts.entries).length format parts.useRle
  return descriptor ++ parts.body

end Encoder

section Reader

/-- `qff_font_descriptor_v1_t`, as far as it is read. -/
structure FontDescriptor where
  totalFileSize : ℕ
  lineHeight : ℕ
  hasAsciiTable : Bool
  numUnicodeGlyphs : ℕ
  format : ℕ
  compressionScheme : ℕ

def readFontDescriptor (s : MemoryStream) : Option FontDescriptor × MemoryStream :=
  let r := readStruct 25 (s.setpos 0).2
  match r.1 with
  | none => (none, r.2)
  | some bs =>
    if validateBlockHeader (blockHeader bs) 0 20 ∧ field 5 3 bs = 0x464651 ∧ field 8 1 bs = 1 ∧
        field 13 4 bs = 2 ^ 32 - 1 - field 9 4 bs then
      (some {
        totalFileSize := field 9 4 bs
        lineHeight := field 17 1 bs
        hasAsciiTable := field 18 1 bs ≠ 0
        numUnicodeGlyphs := field 19 2 bs
        format := field 21 1 bs
        compressionScheme := field 23 1 bs }, r.2)
    else (none, r.2)

def getTotalSize (s : MemoryStream) : ℕ × MemoryStream :=
  let oldpos := s.position
  let r := readFontDescriptor s
  match r.1 with
  | none => (0, r.2)
  | some d => (d.totalFileSize, (r.2.setpos oldpos).2)

def validateAsciiDescriptor (s : MemoryStream) : Bool × MemoryStream :=
  let r := readStruct 290 s
  match r.1 with
  | none => (false, r.2)
  | some bs => (validateBlockHeader (blockHeader bs) 1 285, r.2)

def validateUnicodeDescriptor (numUnicodeGlyphs : ℕ) (s : MemoryStream) : Bool × MemoryStream :=
  let r := readStruct 5 s
  match r.1 with
  | none => (false, r.2)
  | some bs =>
    if validateBlockHeader (blockHeader bs) 2 (numUnicodeGlyphs * 6 : ℕ) then
      (true, (r.2.seek (numUnicodeGlyphs * 6 : ℕ) .cur).2)
    else (false, r.2)

def validateStream (s : MemoryStream) : Bool × MemoryStream :=
  let r := readFontDescriptor s
  match r.1 with
  | none => (false, r.2)
  | some d =>
    let r := if d.hasAsciiTable then validateAsciiDescriptor r.2 else (true, r.2)
    if r.1 then
      if 0 < d.numUnicodeGlyphs then validateUnicodeDescriptor d.numUnicodeGlyphs r.2 else r
    else r

structure FontHandle where
  lineHeight : ℕ
  hasAsciiTable : Bool
  numUnicodeGlyphs : ℕ
  bpp : ℕ
  hasPalette : Bool
  isPanelNative : Bool
  compressionScheme : ℕ
  stream : MemoryStream

/-- `qp_load_font_mem`, for a buffer that holds the file. -/
def loadFontMem (buffer : List UInt8) : Option FontHandle :=
  let total := getTotalSize (.make buffer 25)
  let stream := { total.2 with length := (BitVec.ofNat 32 total.1).toInt, position := 0 }
  let valid := validateStream stream
  if valid.1 then
    let r := readFontDescriptor valid.2
    let d := r.1.getD ⟨0, 0, false, 0, 0, 0⟩
    let format := (parseFormat d.format).getD (0, false, false)
    some {
      lineHeight := d.lineHeight
      hasAsciiTable := d.hasAsciiTable
      numUnicodeGlyphs := d.numUnicodeGlyphs
      bpp := format.1
      hasPalette := format.2.1
      isPanelNative := format.2.2
      compressionScheme := d.compressionScheme
      stream := r.2 }
  else none

variable (font : FontHandle)

def FontHandle.unicodeTable : ℕ := 25 + if font.hasAsciiTable then 290 else 0

def FontHandle.dataOffset : ℕ :=
  font.unicodeTable + (if 0 < font.numUnicodeGlyphs then 5 + font.numUnicodeGlyphs * 6 else 0) +
    (if font.hasPalette then 5 + (1 <<< font.bpp) * 3 else 0) + 5

/-- The end of `qp_drawtext_prepare_glyph_for_render`, once the value of the glyph is known: the
width, and the stream at the data. -/
def seekGlyphData (value : ℕ) (s : MemoryStream) : Option ℕ × MemoryStream :=
  let r := s.setpos (font.dataOffset + (value &&& 0xFFFFC0) >>> 6)
  (if r.1 then some (value &&& 0x3F) else none, r.2)

def findUnicodeGlyph (codePoint : ℕ) : ℕ → MemoryStream → Option ℕ × MemoryStream
  | 0, s => (none, s)
  | n + 1, s =>
    let r := readStruct 6 s
    match r.1 with
    | none => (none, r.2)
    | some bs =>
      if field 0 3 bs = codePoint then seekGlyphData font (field 3 3 bs) r.2
      else findUnicodeGlyph codePoint n r.2

/-- `qp_drawtext_prepare_glyph_for_render`: the width if the glyph is found. -/
def prepareGlyphForRender (codePoint : ℕ) : Option ℕ × MemoryStream :=
  if 0x20 ≤ codePoint ∧ codePoint < 0x7F ∧ font.hasAsciiTable then
    let r := font.stream.setpos (25 + 5 + (codePoint - 0x20) * 3)
    if r.1 then
      let r := readStruct 3 r.2
      match r.1 with
      | none => (none, r.2)
      | some bs => seekGlyphData font (field 0 3 bs) r.2
    else (none, r.2)
  else
    let r := font.stream.setpos (font.unicodeTable + 5)
    if r.1 then findUnicodeGlyph font codePoint font.numUnicodeGlyphs r.2 else (none, r.2)

end Reader

end Qmk.Painter.Qff
