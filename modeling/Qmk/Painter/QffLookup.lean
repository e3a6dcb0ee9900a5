import Mathlib.Data.Fintype.Card
import Qmk.Painter.Qff

/-! # Looking glyphs up

A font that is saved is loaded again, and the data of a glyph is found in it, when the
width of the glyph and the offset of its data fit into the value that is stored for the
glyph, the number of glyphs into the font descriptor, and the size of the file into the
length of a stream.
-/

namespace Qmk.Painter.Qff

section Values

theorem glyphValue_eq (dataOffset w : ℕ) :
    glyphValue dataOffset w = dataOffset % 2 ^ 18 * 2 ^ 6 + w % 2 ^ 6 := by
  have hmask : (0xFFFFC0 : ℕ) = (2 ^ 18 - 1) <<< 6 := by decide
  have hlow : w &&& 0x3F = w % 2 ^ 6 := Nat.and_two_pow_sub_one_eq_mod w 6
  rw [glyphValue, hmask, ← Nat.shiftLeft_and_distrib, Nat.and_two_pow_sub_one_eq_mod, hlow,
    Nat.shiftLeft_eq, Nat.mul_comm, Nat.two_pow_add_eq_or_of_lt (Nat.mod_lt _ (by decide))]

theorem glyphValue_lt (dataOffset w : ℕ) : glyphValue dataOffset w < 2 ^ 24 := by
  rw [glyphValue_eq]
  omega

theorem glyphValue_width (dataOffset w : ℕ) : glyphValue dataOffset w &&& 0x3F = w % 2 ^ 6 := by
  rw [show (0x3F : ℕ) = 2 ^ 6 - 1 from rfl, Nat.and_two_pow_sub_one_eq_mod, glyphValue_eq]
  omega

theorem glyphValue_offset (dataOffset w : ℕ) :
    (glyphValue dataOffset w &&& 0xFFFFC0) >>> 6 = dataOffset % 2 ^ 18 := by
  have hmask : (0xFFFFC0 : ℕ) >>> 6 = 2 ^ 18 - 1 := by decide
  rw [Nat.shiftRight_and_distrib, hmask, Nat.and_two_pow_sub_one_eq_mod, glyphValue_eq,
    Nat.shiftRight_eq_div_pow]
  omega

end Values

section Descriptor

variable {size lineHeight count : ℕ} {ascii useRle : Bool} {format : Format} {desc : List UInt8}

def describe (size lineHeight : ℕ) (ascii : Bool) (count : ℕ) (format : Format)
    (useRle : Bool) : FontDescriptor where
  totalFileSize := size
  lineHeight := lineHeight % 256
  hasAsciiTable := ascii
  numUnicodeGlyphs := count % 2 ^ 16
  format := format.imageFormatByte.toNat
  compressionScheme := if useRle then 1 else 0

theorem writeFontDescriptor_eq
    (h : writeFontDescriptor size lineHeight ascii count format useRle = some desc) :
    size < 2 ^ 32 ∧ desc = writeHeader 0 20 ++ o24 0x464651 ++ o8 1 ++ leBytes 4 size ++
      leBytes 4 (2 ^ 32 - 1 - size) ++ o8 lineHeight ++ o8 (if ascii then 1 else 0) ++
      leBytes 2 (count &&& 0xFFFF) ++ o8 format.imageFormatByte.toNat ++ o8 0 ++
      o8 (if useRle then 1 else 0) ++ o8 0xFF := by
  simp only [writeFontDescriptor, o32, Option.bind_eq_bind, Option.bind_eq_some_iff,
    Option.ite_none_right_eq_some, Option.some.injEq, Option.pure_def] at h
  obtain ⟨_, ⟨hsize, rfl⟩, _, ⟨-, rfl⟩, rfl⟩ := h
  exact ⟨hsize, by rw [Nat.mod_eq_of_lt hsize]⟩

theorem length_writeFontDescriptor
    (h : writeFontDescriptor size lineHeight ascii count format useRle = some desc) :
    desc.length = 25 := by
  obtain ⟨-, rfl⟩ := writeFontDescriptor_eq h
  simp [writeHeader, o8, o24]

theorem readFontDescriptor_eq
    (h : writeFontDescriptor size lineHeight ascii count format useRle = some desc)
    {s t : MemoryStream} {rest : List UInt8} (hpos : (s.setpos 0).2 = t)
    (ht : t.Holds (desc ++ rest)) :
    readFontDescriptor s =
      (some (describe size lineHeight ascii count format useRle), t.advance 25) := by
  have hlen := length_writeFontDescriptor h
  obtain ⟨hsize, rfl⟩ := writeFontDescriptor_eq h
  have hheader : validateBlockHeader (blockHeader (writeHeader 0 20 ++ (o24 0x464651 ++ (o8 1 ++
      (leBytes 4 size ++ (leBytes 4 (2 ^ 32 - 1 - size) ++ (o8 lineHeight ++
      (o8 (if ascii then 1 else 0) ++ (leBytes 2 (count &&& 0xFFFF) ++
      (o8 format.imageFormatByte.toNat ++ (o8 0 ++ (o8 (if useRle then 1 else 0) ++
      o8 0xFF)))))))))))) 0 20 = true :=
    (validateBlockHeader_writeHeader (by decide) 20 20 _).mpr (by decide)
  have hmask : count &&& 0xFFFF = count % 2 ^ 16 := Nat.and_two_pow_sub_one_eq_mod count 16
  have hmod : size % 2 ^ 32 = size := Nat.mod_eq_of_lt hsize
  have hneg : (2 ^ 32 - 1 - size) % 2 ^ 32 = 2 ^ 32 - 1 - size := Nat.mod_eq_of_lt (by omega)
  simp only [readFontDescriptor, hpos, readStruct_holds ht hlen]
  simp only [List.append_assoc] at hheader ⊢
  simp only [hheader, true_and]
  simp only [Nat.reducePow, Nat.reduceSub] at hmod hneg
  simp [writeHeader, o8, o24, List.append_assoc, field_leBytes, field_append, hmod, hneg, hmask,
    describe]
  cases ascii <;> cases useRle <;> decide

end Descriptor

section Tables

variable {entries : List Entry}

@[simp] theorem Entry.length_write_false (e : Entry) : (e.write false).length = 3 := by
  simp [Entry.write, o24]

@[simp] theorem Entry.length_write_true (e : Entry) : (e.write true).length = 6 := by
  simp [Entry.write, o24]

def asciiBytes (entries : List Entry) (c : PyChar) : List UInt8 :=
  match (asciiEntries entries).find? (·.glyph.codePoint = c) with
  | some e => e.write false
  | none => []

theorem writeAsciiTable_eq (h : includesAscii entries = true) :
    writeAsciiTable entries = writeHeader 1 285 ++ asciiRange.flatMap (asciiBytes entries) := by
  rw [writeAsciiTable, if_pos h]
  rfl

theorem exists_ascii (h : includesAscii entries = true) {c : PyChar} (hc : c ∈ asciiRange) :
    ∃ e, (asciiEntries entries).find? (·.glyph.codePoint = c) = some e := by
  have hany := List.all_eq_true.mp h c hc
  obtain ⟨e, he, hcode⟩ := List.any_eq_true.mp hany
  have hcode : e.glyph.codePoint = c := by simpa using hcode
  rw [← Option.isSome_iff_exists, List.find?_isSome]
  refine ⟨e, List.mem_filter.mpr ⟨he, ?_⟩, by simpa using hcode⟩
  simp [h, hcode, hc]

theorem length_asciiBytes (h : includesAscii entries = true) {c : PyChar} (hc : c ∈ asciiRange) :
    (asciiBytes entries c).length = 3 := by
  obtain ⟨e, he⟩ := exists_ascii h hc
  rw [asciiBytes, he]
  exact e.length_write_false

theorem length_asciiRange : asciiRange.length = 95 := by simp [asciiRange]

theorem length_writeAsciiTable :
    (writeAsciiTable entries).length = if includesAscii entries then 290 else 0 := by
  split_ifs with h
  · rw [writeAsciiTable_eq h, List.length_append, length_writeHeader,
      length_flatMap_const fun c hc => length_asciiBytes h hc, length_asciiRange]
  · rw [writeAsciiTable, if_neg h]
    rfl

theorem length_writeUnicodeTable : (writeUnicodeTable entries).length =
    if 0 < (unicodeEntries entries).length then 5 + (unicodeEntries entries).length * 6 else 0 := by
  simp only [writeUnicodeTable, List.length_insertionSort]
  split_ifs
  · rw [List.length_append, length_writeHeader,
      length_flatMap_const fun e _ => Entry.length_write_true e, List.length_insertionSort]
  · rfl

theorem parseFormat_valid : ∀ format ∈ validFormats, parseFormat format.imageFormatByte.toNat =
    some (format.bpp, format.hasPalette, decide (format.imageFormat ∈ [.rgb565, .rgb888])) := by
  decide

theorem numColors_valid : ∀ format ∈ validFormats, format.hasPalette = true →
    format.numColors = 1 <<< format.bpp := by
  decide

theorem length_writePalette {toHsv : Rgb → Rgb} {format : Format} (hformat : format ∈ validFormats)
    {converted : Converted} {palette : List UInt8}
    (h : writePalette toHsv format converted = some palette) :
    palette.length = if format.hasPalette then 5 + (1 <<< format.bpp) * 3 else 0 := by
  unfold writePalette at h
  split_ifs at h ⊢ with hpalette
  · cases converted with
    | rgb im => simp at h
    | paletted im colors =>
      obtain ⟨hlen, hpalette'⟩ := Option.ite_none_left_eq_some.mp h
      obtain rfl := Option.some.inj hpalette'
      have htake : (colors.take format.numColors).length = format.numColors :=
        List.length_take_of_le (by omega)
      rw [List.length_append, length_writeHeader,
        length_flatMap_const (k := 3) fun e _ => rfl, List.length_map, htake,
        numColors_valid format hformat hpalette]
  · obtain rfl := Option.some.inj h
    rfl

end Tables

section Loading

/-- The number of glyphs in the Unicode table. -/
def Parts.count (parts : Parts) : ℕ := (unicodeEntries parts.entries).length

structure Saved (format : Format) (lineHeight : ℕ) (parts : Parts) (file : List UInt8) : Prop where
  valid : format ∈ validFormats
  file : ∃ desc, writeFontDescriptor (25 + parts.body.length) lineHeight
    (includesAscii parts.entries) parts.count format parts.useRle =
      some desc ∧ file = desc ++ parts.body
  palette : parts.palette.length = if format.hasPalette then 5 + (1 <<< format.bpp) * 3 else 0
  nodup : (parts.entries.map (·.glyph.codePoint)).Nodup

variable {format : Format} {lineHeight : ℕ} {parts : Parts} {file : List UInt8}

theorem Saved.length (h : Saved format lineHeight parts file) :
    file.length = 25 + parts.body.length := by
  obtain ⟨desc, hdesc, rfl⟩ := h.file
  rw [List.length_append, length_writeFontDescriptor hdesc]

theorem Saved.length_lt (h : Saved format lineHeight parts file) : file.length < 2 ^ 32 := by
  obtain ⟨desc, hdesc, -⟩ := h.file
  rw [h.length]
  exact (writeFontDescriptor_eq hdesc).1

theorem Saved.count_le (h : Saved format lineHeight parts file) : parts.count ≤ 0x110000 := by
  have hnodup : ((unicodeEntries parts.entries).map (·.glyph.codePoint)).Nodup :=
    h.nodup.sublist (List.filter_sublist.map _)
  have := List.Nodup.length_le_card hnodup
  rwa [List.length_map, Fintype.card_fin] at this

/-- What `readFontDescriptor` gives for the file. -/
def Parts.describe (parts : Parts) (format : Format) (lineHeight : ℕ) : FontDescriptor :=
  Qff.describe (25 + parts.body.length) lineHeight (includesAscii parts.entries) parts.count format
    parts.useRle

theorem Saved.readFontDescriptor (h : Saved format lineHeight parts file)
    (hsize : file.length < 2 ^ 31) (p : ℕ) : readFontDescriptor (MemoryStream.ofFile file p) =
      (some (parts.describe format lineHeight), MemoryStream.ofFile file 25) := by
  obtain ⟨desc, hdesc, hfile⟩ := h.file
  rw [readFontDescriptor_eq hdesc (t := .ofFile file 0)
    (congrArg Prod.snd (MemoryStream.setpos_ofFile (Nat.zero_le _) hsize))
    (MemoryStream.holds_ofFile (a := []) hfile rfl), MemoryStream.ofFile_advance]
  rfl

theorem Saved.getTotalSize (h : Saved format lineHeight parts file) :
    getTotalSize (.make file 25) = (file.length, .make file 25) := by
  obtain ⟨desc, hdesc, hfile⟩ := h.file
  have hpos : ((MemoryStream.make file 25).setpos 0).2 = .make file 25 := rfl
  have hholds : (MemoryStream.make file 25).Holds (desc ++ []) := by
    refine ⟨?_, parts.body, by rw [List.append_nil, ← hfile]; rfl⟩
    rw [List.append_nil, length_writeFontDescriptor hdesc]
    rfl
  rw [Qff.getTotalSize, readFontDescriptor_eq hdesc hpos hholds, h.length]
  rfl

theorem Saved.loadFontMem_large (h : Saved format lineHeight parts file)
    (hsize : 2 ^ 31 ≤ file.length) : loadFontMem file = none := by
  have hneg := MemoryStream.toInt_of_ge hsize h.length_lt
  have hread : ∀ s : MemoryStream, s.length < 0 → (Qff.readFontDescriptor s).1 = none := by
    intro s hs
    simp only [Qff.readFontDescriptor, readStruct_negative hs 0]
  have hvalid : ∀ s : MemoryStream, s.length < 0 → (validateStream s).1 = false := by
    intro s hs
    rw [validateStream, hread s hs]
  unfold loadFontMem
  simp only [h.getTotalSize]
  rw [hvalid _ hneg]
  exact if_neg (by decide)

theorem Saved.validateAscii (h : Saved format lineHeight parts file)
    (hascii : includesAscii parts.entries = true) :
    validateAsciiDescriptor (.ofFile file 25) = (true, .ofFile file (25 + 290)) := by
  obtain ⟨desc, hdesc, hfile⟩ := h.file
  have hlen : (writeAsciiTable parts.entries).length = 290 := by
    rw [length_writeAsciiTable, if_pos hascii]
  have hholds : (MemoryStream.ofFile file 25).Holds (writeAsciiTable parts.entries ++
      (writeUnicodeTable parts.entries ++ parts.palette ++
        writeHeader 4 parts.imgBuffer.length ++ parts.imgBuffer)) := by
    apply MemoryStream.holds_ofFile (a := desc) _ (length_writeFontDescriptor hdesc)
    rw [hfile, Parts.body]
    simp only [List.append_assoc]
  rw [validateAsciiDescriptor, readStruct_holds hholds hlen, MemoryStream.ofFile_advance,
    writeAsciiTable_eq hascii]
  exact congrArg (·, _) ((validateBlockHeader_writeHeader (by decide) 285 285 _).mpr (by decide))

def Parts.unicodeTable (parts : Parts) : ℕ := 25 + if includesAscii parts.entries then 290 else 0

theorem Saved.holds_unicode (h : Saved format lineHeight parts file) :
    (MemoryStream.ofFile file parts.unicodeTable).Holds (writeUnicodeTable parts.entries ++
      (parts.palette ++ writeHeader 4 parts.imgBuffer.length ++ parts.imgBuffer)) := by
  obtain ⟨desc, hdesc, hfile⟩ := h.file
  apply MemoryStream.holds_ofFile (a := desc ++ writeAsciiTable parts.entries)
  · rw [hfile, Parts.body]
    simp only [List.append_assoc]
  · rw [List.length_append, length_writeFontDescriptor hdesc, length_writeAsciiTable]
    rfl

theorem writeUnicodeTable_pos {entries : List Entry} (h : 0 < (unicodeEntries entries).length) :
    writeUnicodeTable entries = writeHeader 2 ((unicodeEntries entries).length * 6) ++
      ((unicodeEntries entries).insertionSort (·.glyph.codePoint ≤ ·.glyph.codePoint)).flatMap
        (Entry.write true) := by
  simp only [writeUnicodeTable, List.length_insertionSort, if_pos h]

theorem Saved.validateUnicode (h : Saved format lineHeight parts file)
    (hcount : 0 < parts.count % 2 ^ 16) : ∃ p,
    validateUnicodeDescriptor (parts.count % 2 ^ 16) (.ofFile file parts.unicodeTable) =
      (decide (parts.count < 2 ^ 16), .ofFile file p) := by
  have hholds := h.holds_unicode
  rw [writeUnicodeTable_pos (show 0 < parts.count by omega), List.append_assoc] at hholds
  have hle := h.count_le
  have hheader := validateBlockHeader_writeHeader (show 2 < 256 by decide) (parts.count * 6)
    (parts.count % 2 ^ 16 * 6 : ℕ) []
  rw [List.append_nil] at hheader
  have hmod : parts.count * 6 % 2 ^ 24 = parts.count * 6 := Nat.mod_eq_of_lt (by omega)
  rw [validateUnicodeDescriptor, readStruct_holds hholds (length_writeHeader _ _)]
  dsimp only
  split_ifs with hvalid
  · have hlt := hheader.mp hvalid
    rw [decide_eq_true (show parts.count < 2 ^ 16 by omega), MemoryStream.ofFile_advance]
    obtain ⟨q, hq⟩ := MemoryStream.seek_ofFile file (parts.unicodeTable + 5)
      (parts.count % 2 ^ 16 * 6 : ℕ) .cur
    exact ⟨q, by rw [hq]⟩
  · refine ⟨parts.unicodeTable + 5, ?_⟩
    rw [decide_eq_false]
    · rfl
    · intro hlt
      exact hvalid (hheader.mpr (.inr (by rw [hmod, Nat.mod_eq_of_lt hlt])))

def Parts.CountFits (parts : Parts) : Prop := 0 < parts.count % 2 ^ 16 → parts.count < 2 ^ 16

instance (parts : Parts) : Decidable parts.CountFits := inferInstanceAs (Decidable (_ → _))

theorem Saved.validateStream (h : Saved format lineHeight parts file)
    (hsize : file.length < 2 ^ 31) : ∃ p,
    validateStream (.ofFile file 0) = (decide parts.CountFits, .ofFile file p) := by
  have hread := h.readFontDescriptor hsize 0
  have hascii : (if includesAscii parts.entries = true then
      validateAsciiDescriptor (.ofFile file 25) else (true, .ofFile file 25)) =
        (true, .ofFile file parts.unicodeTable) := by
    split_ifs with hascii
    · rw [h.validateAscii hascii, Parts.unicodeTable, if_pos hascii]
    · rw [Parts.unicodeTable, if_neg hascii]
  unfold Qff.validateStream
  simp only [hread, Parts.describe, describe, hascii, if_true]
  split_ifs with hcount
  · obtain ⟨p, hp⟩ := h.validateUnicode hcount
    refine ⟨p, hp.trans ?_⟩
    simp only [Parts.CountFits, hcount, true_imp_iff]
  · refine ⟨_, congrArg (·, _) ?_⟩
    exact (decide_eq_true fun hpos => absurd hpos hcount).symm

def Parts.handle (parts : Parts) (format : Format) (lineHeight : ℕ) (file : List UInt8) :
    FontHandle where
  lineHeight := lineHeight % 256
  hasAsciiTable := includesAscii parts.entries
  numUnicodeGlyphs := parts.count % 2 ^ 16
  bpp := format.bpp
  hasPalette := format.hasPalette
  isPanelNative := format.imageFormat ∈ [.rgb565, .rgb888]
  compressionScheme := if parts.useRle then 1 else 0
  stream := .ofFile file 25

theorem Saved.loadFontMem (h : Saved format lineHeight parts file) (hsize : file.length < 2 ^ 31) :
    loadFontMem file = if parts.CountFits then some (parts.handle format lineHeight file)
      else none := by
  have hstream : ({ MemoryStream.make file 25 with
      length := (BitVec.ofNat 32 file.length).toInt, position := 0 } : MemoryStream) =
        .ofFile file 0 := by
    rw [MemoryStream.toInt_of_lt hsize]
    rfl
  obtain ⟨p, hvalid⟩ := h.validateStream hsize
  have hread := h.readFontDescriptor hsize p
  have hformat : parseFormat (parts.describe format lineHeight).format = _ :=
    parseFormat_valid format h.valid
  unfold Qff.loadFontMem
  simp only [h.getTotalSize]
  rw [hstream]
  simp only [hvalid, hread, Option.getD_some, hformat, decide_eq_true_eq]
  rfl

end Loading

section Lookup

variable {format : Format} {lineHeight : ℕ} {parts : Parts} {file : List UInt8} {e : Entry}

theorem mem_asciiRange {c : PyChar} : c ∈ asciiRange ↔ 0x20 ≤ c.val ∧ c.val < 0x7F := by
  simp only [asciiRange, List.mem_map, List.mem_range'_1]
  constructor
  · rintro ⟨n, hn, rfl⟩
    rw [Fin.ofNat_eq_cast, Fin.val_cast_of_lt (by omega)]
    omega
  · intro hc
    exact ⟨c.val, by omega, by simp⟩

theorem getElem?_asciiRange {c : PyChar} (hc : c ∈ asciiRange) :
    asciiRange[c.val - 0x20]? = some c := by
  rw [mem_asciiRange] at hc
  have hindex : 0x20 + 1 * (c.val - 0x20) = c.val := by omega
  rw [asciiRange, List.getElem?_map, List.getElem?_range' (by omega), hindex]
  simp

theorem Saved.eq_of_codePoint (h : Saved format lineHeight parts file) {e' : Entry}
    (he : e ∈ parts.entries) (he' : e' ∈ parts.entries)
    (hcode : e.glyph.codePoint = e'.glyph.codePoint) : e = e' :=
  List.inj_on_of_nodup_map h.nodup he he' hcode

theorem Saved.asciiBytes_eq (h : Saved format lineHeight parts file)
    (hascii : includesAscii parts.entries = true) (he : e ∈ parts.entries)
    (hrange : e.glyph.codePoint ∈ asciiRange) :
    asciiBytes parts.entries e.glyph.codePoint = e.write false := by
  obtain ⟨e', hfind⟩ := exists_ascii hascii hrange
  have hmem : e' ∈ parts.entries := (List.mem_filter.mp (List.mem_of_find?_eq_some hfind)).1
  have hcode : e'.glyph.codePoint = e.glyph.codePoint := by simpa using List.find?_some hfind
  rw [asciiBytes, hfind, h.eq_of_codePoint he hmem hcode.symm]

theorem Saved.holds_ascii (h : Saved format lineHeight parts file)
    (hascii : includesAscii parts.entries = true) (he : e ∈ parts.entries)
    (hrange : e.glyph.codePoint ∈ asciiRange) : ∃ rest,
    (MemoryStream.ofFile file (25 + 5 + (e.glyph.codePoint.val - 0x20) * 3)).Holds
      (e.write false ++ rest) := by
  obtain ⟨desc, hdesc, hfile⟩ := h.file
  have hpieces : ∀ c ∈ asciiRange, (asciiBytes parts.entries c).length = 3 :=
    fun c hc => length_asciiBytes hascii hc
  have hsplit : file = desc ++ writeHeader 1 285 ++
      (asciiRange.flatMap (asciiBytes parts.entries) ++ (writeUnicodeTable parts.entries ++
        parts.palette ++ writeHeader 4 parts.imgBuffer.length ++ parts.imgBuffer)) := by
    rw [hfile, Parts.body, writeAsciiTable_eq hascii]
    simp only [List.append_assoc]
  have hholds := holds_piece hpieces hsplit (getElem?_asciiRange hrange)
  rwa [List.length_append, length_writeFontDescriptor hdesc, length_writeHeader,
    h.asciiBytes_eq hascii he hrange] at hholds

theorem findUnicodeGlyph_eq (font : FontHandle) {entries : List Entry}
    (hnodup : (entries.map (·.glyph.codePoint)).Nodup) (he : e ∈ entries) {p : ℕ}
    {rest : List UInt8}
    (hholds : (MemoryStream.ofFile file p).Holds (entries.flatMap (Entry.write true) ++ rest)) :
    ∃ q, findUnicodeGlyph font e.glyph.codePoint entries.length (.ofFile file p) =
      seekGlyphData font (glyphValue e.dataOffset e.glyph.w) (.ofFile file q) := by
  induction entries generalizing p with
  | nil => simp at he
  | cons d entries ih =>
    rw [List.flatMap_cons, List.append_assoc] at hholds
    have hread := readStruct_holds hholds d.length_write_true
    have hcode : field 0 3 (d.write true) = d.glyph.codePoint := by
      have := d.glyph.codePoint.isLt
      simp only [Entry.write, if_true, o24, field_leBytes]
      omega
    have hvalue : field 3 3 (d.write true) = glyphValue d.dataOffset d.glyph.w := by
      have := glyphValue_lt d.dataOffset d.glyph.w
      rw [Entry.write, if_pos rfl, o24, o24, field_append (by simp), length_leBytes,
        field_self]
      exact Nat.mod_eq_of_lt this
    rw [List.length_cons, findUnicodeGlyph]
    simp only [hread, hcode, hvalue, MemoryStream.ofFile_advance]
    rw [List.map_cons, List.nodup_cons] at hnodup
    by_cases hd : d.glyph.codePoint = e.glyph.codePoint
    · have hde : d = e := by
        rcases List.mem_cons.mp he with rfl | he
        · rfl
        · exact absurd (hd ▸ List.mem_map_of_mem he) hnodup.1
      rw [if_pos (congrArg Fin.val hd), hde]
      exact ⟨p + 6, rfl⟩
    · have he : e ∈ entries := (List.mem_cons.mp he).resolve_left fun h => hd (h ▸ rfl)
      rw [if_neg fun h => hd (Fin.ext h)]
      have hrest := hholds.advance
      rw [d.length_write_true, MemoryStream.ofFile_advance] at hrest
      exact ih hnodup.2 he hrest

def Parts.dataStart (parts : Parts) : ℕ :=
  parts.unicodeTable + (writeUnicodeTable parts.entries).length + parts.palette.length + 5

theorem Saved.length_eq (h : Saved format lineHeight parts file) :
    file.length = parts.dataStart + parts.imgBuffer.length := by
  rw [h.length, Parts.body, Parts.dataStart, Parts.unicodeTable]
  simp only [List.length_append, length_writeAsciiTable, length_writeHeader]
  omega

theorem Saved.holds_images (h : Saved format lineHeight parts file) {before after : List Entry}
    (hentries : parts.entries = before ++ e :: after) :
    (MemoryStream.ofFile file (parts.dataStart + (before.flatMap Entry.image).length)).Holds
      (e.image ++ after.flatMap Entry.image) := by
  obtain ⟨desc, hdesc, hfile⟩ := h.file
  have himages : parts.imgBuffer =
      before.flatMap Entry.image ++ (e.image ++ after.flatMap Entry.image) := by
    rw [Parts.imgBuffer, hentries, List.flatMap_append, List.flatMap_cons]
  apply MemoryStream.holds_ofFile (a := desc ++ writeAsciiTable parts.entries ++
    writeUnicodeTable parts.entries ++ parts.palette ++ writeHeader 4 parts.imgBuffer.length ++
      before.flatMap Entry.image)
  · rw [hfile, Parts.body]
    simp only [List.append_assoc, himages]
  · simp only [List.length_append, length_writeFontDescriptor hdesc, length_writeAsciiTable,
      length_writeHeader, Parts.dataStart, Parts.unicodeTable]

/-- The reader finds the image data where it is, if it knows the number of glyphs. -/
theorem Saved.dataOffset_handle (h : Saved format lineHeight parts file) :
    (parts.handle format lineHeight file).dataOffset ≤ parts.dataStart ∧
      ((parts.handle format lineHeight file).dataOffset = parts.dataStart ↔
        parts.count < 2 ^ 16) := by
  have hunicode : (writeUnicodeTable parts.entries).length =
      if 0 < parts.count then 5 + parts.count * 6 else 0 := length_writeUnicodeTable
  have hhandle : (parts.handle format lineHeight file).dataOffset = parts.unicodeTable +
      (if 0 < parts.count % 2 ^ 16 then 5 + parts.count % 2 ^ 16 * 6 else 0) +
        parts.palette.length + 5 := by
    rw [h.palette]
    rfl
  rw [Parts.dataStart, hunicode, hhandle]
  split_ifs <;> omega

theorem Saved.seekGlyphData (h : Saved format lineHeight parts file)
    (hsize : file.length < 2 ^ 31) {before after : List Entry}
    (hentries : parts.entries = before ++ e :: after) (p : ℕ) :
    seekGlyphData (parts.handle format lineHeight file)
        (glyphValue (before.flatMap Entry.image).length e.glyph.w) (.ofFile file p) =
      (some (e.glyph.w % 2 ^ 6), .ofFile file ((parts.handle format lineHeight file).dataOffset +
        (before.flatMap Entry.image).length % 2 ^ 18)) := by
  have hle := h.dataOffset_handle.1
  have hmod := Nat.mod_le (before.flatMap Entry.image).length (2 ^ 18)
  have hlength := (h.holds_images hentries).length
  have hinside : (parts.handle format lineHeight file).dataOffset +
      (before.flatMap Entry.image).length % 2 ^ 18 ≤ file.length := by
    simp only [MemoryStream.ofFile] at hlength
    omega
  rw [Qff.seekGlyphData, glyphValue_offset, glyphValue_width,
    MemoryStream.setpos_ofFile hinside hsize]
  rfl

theorem Saved.prepareGlyphForRender_ascii (h : Saved format lineHeight parts file)
    (hsize : file.length < 2 ^ 31) (hascii : includesAscii parts.entries = true)
    (he : e ∈ parts.entries) (hrange : e.glyph.codePoint ∈ asciiRange) :
    ∃ p, prepareGlyphForRender (parts.handle format lineHeight file) e.glyph.codePoint =
      Qff.seekGlyphData (parts.handle format lineHeight file)
        (glyphValue e.dataOffset e.glyph.w) (.ofFile file p) := by
  have hbounds := mem_asciiRange.mp hrange
  obtain ⟨rest, hholds⟩ := h.holds_ascii hascii he hrange
  have hinside : 25 + 5 + (e.glyph.codePoint.val - 0x20) * 3 ≤ file.length := by
    have := hholds.length
    simp only [MemoryStream.ofFile] at this
    omega
  have hvalue : field 0 3 (e.write false) = glyphValue e.dataOffset e.glyph.w := by
    have := glyphValue_lt e.dataOffset e.glyph.w
    rw [Entry.write, if_neg (by decide), List.nil_append, o24, field_self]
    exact Nat.mod_eq_of_lt this
  refine ⟨25 + 5 + (e.glyph.codePoint.val - 0x20) * 3 + 3, ?_⟩
  rw [prepareGlyphForRender, if_pos ⟨hbounds.1, hbounds.2, hascii⟩]
  simp only [Parts.handle, MemoryStream.setpos_ofFile hinside hsize, if_true,
    readStruct_holds hholds e.length_write_false, hvalue, MemoryStream.ofFile_advance]

theorem Saved.prepareGlyphForRender_unicode (h : Saved format lineHeight parts file)
    (hsize : file.length < 2 ^ 31) (he : e ∈ unicodeEntries parts.entries) :
    prepareGlyphForRender (parts.handle format lineHeight file) e.glyph.codePoint =
      findUnicodeGlyph (parts.handle format lineHeight file) e.glyph.codePoint
        (parts.count % 2 ^ 16) (.ofFile file (parts.unicodeTable + 5)) := by
  have hother : ¬ (includesAscii parts.entries = true ∧ e.glyph.codePoint ∈ asciiRange) := by
    simpa only [decide_eq_true_eq] using (List.mem_filter.mp he).2
  have hpos : 0 < (unicodeEntries parts.entries).length := List.length_pos_of_mem he
  have hlength := h.holds_unicode.length
  have hinside : parts.unicodeTable + 5 ≤ file.length := by
    simp only [MemoryStream.ofFile, List.length_append, length_writeUnicodeTable, if_pos hpos]
      at hlength
    omega
  rw [prepareGlyphForRender, if_neg]
  · exact congrArg (fun r : Bool × MemoryStream => if r.1 then findUnicodeGlyph _ _ _ r.2
      else (none, r.2)) (MemoryStream.setpos_ofFile hinside hsize)
  · rintro ⟨hlow, hhigh, hascii⟩
    exact hother ⟨hascii, mem_asciiRange.mpr ⟨hlow, hhigh⟩⟩

/-- The value of a glyph is found, unless the number of glyphs is a multiple of `2 ^ 16`. -/
theorem Saved.prepareGlyphForRender (h : Saved format lineHeight parts file)
    (hsize : file.length < 2 ^ 31) (hfits : parts.CountFits) (he : e ∈ parts.entries) :
    (∃ p, prepareGlyphForRender (parts.handle format lineHeight file) e.glyph.codePoint =
      Qff.seekGlyphData (parts.handle format lineHeight file)
        (glyphValue e.dataOffset e.glyph.w) (.ofFile file p)) ∨
    2 ^ 16 ≤ parts.count ∧
      (prepareGlyphForRender (parts.handle format lineHeight file) e.glyph.codePoint).1 = none := by
  by_cases hascii : includesAscii parts.entries = true ∧ e.glyph.codePoint ∈ asciiRange
  · exact .inl (h.prepareGlyphForRender_ascii hsize hascii.1 he hascii.2)
  · have hunicode : e ∈ unicodeEntries parts.entries :=
      List.mem_filter.mpr ⟨he, by simpa only [decide_eq_true_eq] using hascii⟩
    have hpos : 0 < (unicodeEntries parts.entries).length := List.length_pos_of_mem hunicode
    rw [h.prepareGlyphForRender_unicode hsize hunicode]
    rcases Nat.lt_or_ge parts.count (2 ^ 16) with hcount | hcount
    · left
      have hholds := h.holds_unicode
      rw [writeUnicodeTable_pos hpos, List.append_assoc, List.append_assoc] at hholds
      have htable := hholds.advance
      rw [length_writeHeader, MemoryStream.ofFile_advance] at htable
      have hperm := (unicodeEntries parts.entries).perm_insertionSort
        (·.glyph.codePoint ≤ ·.glyph.codePoint)
      have hnodup : ((unicodeEntries parts.entries).map (·.glyph.codePoint)).Nodup :=
        h.nodup.sublist (List.filter_sublist.map _)
      have hfound := findUnicodeGlyph_eq (parts.handle format lineHeight file)
        ((hperm.map _).nodup_iff.mpr hnodup) (hperm.mem_iff.mpr hunicode) htable
      rw [hperm.length_eq] at hfound
      rwa [Nat.mod_eq_of_lt hcount]
    · refine .inr ⟨hcount, ?_⟩
      have hzero : parts.count % 2 ^ 16 = 0 := by
        unfold Parts.CountFits at hfits
        omega
      rw [hzero]
      rfl

/-- The font is loaded from the file, the width of a glyph is found in it, and the stream gives the
data of the glyph and that of the ones behind it. -/
def Finds (file : List UInt8) (e : Entry) (after : List Entry) : Prop :=
  ∃ handle stream, loadFontMem file = some handle ∧
    Qff.prepareGlyphForRender handle e.glyph.codePoint = (some e.glyph.w, stream) ∧
    stream.Holds (e.image ++ after.flatMap Entry.image)

theorem Saved.finds_iff (h : Saved format lineHeight parts file) {before after : List Entry}
    (hentries : parts.entries = before ++ e :: after)
    (hoffset : e.dataOffset = (before.flatMap Entry.image).length) :
    Finds file e after ↔ e.glyph.w < 2 ^ 6 ∧ (before.flatMap Entry.image).length < 2 ^ 18 ∧
      parts.count < 2 ^ 16 ∧ file.length < 2 ^ 31 := by
  have he : e ∈ parts.entries := by simp [hentries]
  have hstart := (h.holds_images hentries).length
  have hdata := h.dataOffset_handle
  simp only [MemoryStream.ofFile] at hstart
  constructor
  · rintro ⟨handle, stream, hload, hprepare, hholds⟩
    have hsize : file.length < 2 ^ 31 := by
      by_contra hsize
      rw [h.loadFontMem_large (by omega)] at hload
      cases hload
    rw [h.loadFontMem hsize, Option.ite_none_right_eq_some] at hload
    obtain ⟨hfits, hhandle⟩ := hload
    obtain rfl := Option.some.inj hhandle
    rcases h.prepareGlyphForRender hsize hfits he with ⟨p, hp⟩ | ⟨-, hnone⟩
    · rw [hp, hoffset, h.seekGlyphData hsize hentries, Prod.mk.injEq] at hprepare
      obtain ⟨hwidth, rfl⟩ := hprepare
      have hwidth := Option.some.inj hwidth
      have hpos := hholds.length
      simp only [MemoryStream.ofFile] at hpos
      omega
    · rw [hprepare] at hnone
      cases hnone
  · rintro ⟨hwidth, hbefore, hcount, hsize⟩
    have hfits : parts.CountFits := fun _ => hcount
    refine ⟨_, _, by rw [h.loadFontMem hsize, if_pos hfits], ?_, h.holds_images hentries⟩
    rcases h.prepareGlyphForRender hsize hfits he with ⟨p, hp⟩ | ⟨hlarge, -⟩
    · rw [hp, hoffset, h.seekGlyphData hsize hentries, Nat.mod_eq_of_lt hwidth,
        Nat.mod_eq_of_lt hbefore, hdata.2.mpr hcount]
    · omega

end Lookup

section Fonts

structure Column (isMarker : ℕ → Bool) (x w : ℕ) : Prop where
  marker : isMarker x = true
  pos : 0 < w
  inside : ∀ y, x < y → y < x + w → isMarker y = false

/-- The markers before column `k` have been found. -/
structure Markers.Before (isMarker : ℕ → Bool) (k : ℕ) (m : Markers) (ps : List (ℕ × ℕ)) :
    Prop where
  offsets : m.offsets = ps.map Prod.fst ++ [m.lastOffset]
  widths : m.widths = ps.map Prod.snd
  columns : ∀ p ∈ ps, Column isMarker p.1 p.2 ∧ p.1 + p.2 < k ∧ isMarker (p.1 + p.2) = true
  marker : isMarker m.lastOffset = true
  lt : m.lastOffset < k
  inside : ∀ y, m.lastOffset < y → y < k → isMarker y = false

variable {isMarker : ℕ → Bool}

theorem Markers.Before.step {k : ℕ} {m : Markers} {ps : List (ℕ × ℕ)}
    (h : m.Before isMarker k ps) : ∃ ps, (markerStep isMarker m k).Before isMarker (k + 1) ps := by
  have hlt := h.lt
  unfold markerStep
  split_ifs with hk
  · refine ⟨ps ++ [(m.lastOffset, k - m.lastOffset)], ?_, ?_, ?_, hk, k.lt_succ_self, ?_⟩
    · rw [h.offsets, List.map_append, List.map_singleton]
    · rw [h.widths, List.map_append, List.map_singleton]
    · intro p hp
      rcases List.mem_append.mp hp with hp | hp
      · obtain ⟨hcolumn, hend, hmarker⟩ := h.columns p hp
        exact ⟨hcolumn, by omega, hmarker⟩
      · obtain rfl := List.mem_singleton.mp hp
        have hend : m.lastOffset + (k - m.lastOffset) = k := by omega
        refine ⟨⟨h.marker, by simpa using hlt, ?_⟩, by dsimp only; omega, by rwa [hend]⟩
        intro y hy hyk
        exact h.inside y hy (by dsimp only at hyk; omega)
    · intro y hy hyk
      dsimp only at hy
      omega
  · refine ⟨ps, h.offsets, h.widths, ?_, h.marker, by omega, ?_⟩
    · intro p hp
      obtain ⟨hcolumn, hend, hmarker⟩ := h.columns p hp
      exact ⟨hcolumn, by omega, hmarker⟩
    · intro y hy hyk
      rcases Nat.lt_succ_iff_lt_or_eq.mp hyk with hyk | rfl
      · exact h.inside y hy hyk
      · simpa using hk

theorem markers_before (hfirst : isMarker 0 = true) (n : ℕ) : ∃ ps,
    ((List.range' 1 n).foldl (markerStep isMarker) ⟨[0], [], 0⟩).Before isMarker (n + 1) ps := by
  induction n with
  | zero => exact ⟨[], rfl, rfl, by simp, hfirst, by simp, by simp; omega⟩
  | succ n ih =>
    obtain ⟨ps, hps⟩ := ih
    rw [List.range'_1_concat, List.foldl_append, Nat.add_comm 1]
    exact hps.step

theorem Markers.Before.finish {width : ℕ} {m : Markers} {ps : List (ℕ × ℕ)}
    (h : m.Before isMarker width ps) : ∃ qs : List (ℕ × ℕ),
    m.offsets = qs.map Prod.fst ∧ m.widths ++ [width - m.lastOffset] = qs.map Prod.snd ∧
      ∀ q ∈ qs, Column isMarker q.1 q.2 ∧
        (q.1 + q.2 = width ∨ q.1 + q.2 < width ∧ isMarker (q.1 + q.2) = true) := by
  have hlt := h.lt
  have hend : m.lastOffset + (width - m.lastOffset) = width := by omega
  refine ⟨ps ++ [(m.lastOffset, width - m.lastOffset)], ?_, ?_, ?_⟩
  · rw [h.offsets, List.map_append, List.map_singleton]
  · rw [h.widths, List.map_append, List.map_singleton]
  · intro q hq
    rcases List.mem_append.mp hq with hq | hq
    · exact ⟨(h.columns q hq).1, .inr (h.columns q hq).2⟩
    · obtain rfl := List.mem_singleton.mp hq
      refine ⟨⟨h.marker, by simpa using hlt, fun y hy hyk => ?_⟩, .inl hend⟩
      exact h.inside y hy (hend ▸ hyk)

variable {α : Type*} [DecidableEq α] {img : Image α} {includeAsciiGlyphs : Bool}
  {unicodeGlyphs : List PyChar} {font : Font}

/-- The number of columns from the marker of a glyph to the next marker. -/
structure TrueWidth (img : Image α) (g : Glyph) : Prop where
  marker : img.pixel g.x 0 = img.pixel 0 0
  pos : 0 < g.w
  inside : ∀ y, g.x < y → y < g.x + g.w → img.pixel y 0 ≠ img.pixel 0 0
  next : g.x + g.w = img.width ∨ g.x + g.w < img.width ∧ img.pixel (g.x + g.w) 0 = img.pixel 0 0

theorem nodup_generateFontGlyphsList (useAscii : Bool) (glyphs : List PyChar) :
    (generateFontGlyphsList useAscii glyphs).Nodup :=
  (List.perm_insertionSort _ _).nodup_iff.mpr (List.nodup_dedup _)

theorem parseImage_glyphs (h : parseImage img includeAsciiGlyphs unicodeGlyphs = some font) :
    (font.glyphData.map Glyph.codePoint).Nodup ∧ ∀ g ∈ font.glyphData, TrueWidth img g := by
  obtain ⟨hsize, h⟩ := Option.ite_none_left_eq_some.mp h
  obtain ⟨hcount, h⟩ := Option.ite_none_left_eq_some.mp h
  dsimp only [findMarkers] at hcount h
  obtain ⟨ps, hps⟩ := @markers_before (fun x => img.pixel x 0 = img.pixel 0 0)
    (decide_eq_true rfl) (img.width - 1)
  rw [Nat.sub_add_cancel (by omega)] at hps
  obtain ⟨qs, hoffsets, hwidths, hcolumns⟩ := hps.finish
  rw [hoffsets, List.length_map, not_not] at hcount
  rw [hoffsets, hwidths, List.zip_map', List.map_id'] at h
  obtain rfl := Option.some.inj h
  constructor
  · have hcodes := List.map_fst_zip hcount.ge
    rw [List.map_map]
    exact hcodes.symm ▸ nodup_generateFontGlyphsList includeAsciiGlyphs unicodeGlyphs
  · intro g hg
    obtain ⟨⟨c, q⟩, hq, rfl⟩ := List.mem_map.mp hg
    obtain ⟨hcolumn, hend⟩ := hcolumns q (List.of_mem_zip hq).2
    have hmarker : img.pixel q.1 0 = img.pixel 0 0 := by simpa using hcolumn.marker
    refine ⟨hmarker, hcolumn.pos, fun y hy hyw => ?_, by simpa using hend⟩
    simpa using hcolumn.inside y hy hyw

theorem placeGlyphs_map (n : ℕ) (images : List (Glyph × List UInt8)) :
    (placeGlyphs n images).map Entry.glyph = images.map Prod.fst := by
  induction images generalizing n with
  | nil => rfl
  | cons g images ih => rw [placeGlyphs, List.map_cons, List.map_cons, ih]

theorem placeGlyphs_offset {n : ℕ} {images : List (Glyph × List UInt8)} {before after : List Entry}
    {e : Entry} (h : placeGlyphs n images = before ++ e :: after) :
    e.dataOffset = n + (before.flatMap Entry.image).length := by
  induction images generalizing n before with
  | nil => simp [placeGlyphs] at h
  | cons g images ih =>
    rw [placeGlyphs] at h
    cases before with
    | nil =>
      obtain ⟨rfl, -⟩ := List.cons.inj h
      rfl
    | cons d before =>
      obtain ⟨rfl, hrest⟩ := List.cons.inj h
      rw [ih hrest, List.flatMap_cons, List.length_append, Nat.add_assoc]

theorem mapM_fst {α β : Type*} {f : α → Option (α × β)} (hf : ∀ a r, f a = some r → r.1 = a)
    {l : List α} {rs : List (α × β)} (h : l.mapM f = some rs) : rs.map Prod.fst = l := by
  induction l generalizing rs with
  | nil =>
    obtain rfl := Option.some.inj h
    rfl
  | cons a l ih =>
    simp only [List.mapM_cons, Option.bind_eq_bind, Option.bind_eq_some_iff, Option.pure_def,
      Option.some.injEq] at h
    obtain ⟨r, hr, rs, hrs, rfl⟩ := h
    rw [List.map_cons, hf a r hr, ih hrs]

variable {toHsv : Rgb → Rgb} {format : Format} {useRle : Bool} {converted : Converted}
  {parts : Parts} {file : List UInt8}

/-- The parts of a font are its glyphs, in order, and a palette of the right size. -/
theorem layout_eq (h : layout toHsv format useRle converted font = some parts) :
    parts.entries.map Entry.glyph = font.glyphData ∧
      (∀ before e after, parts.entries = before ++ e :: after →
        e.dataOffset = (before.flatMap Entry.image).length) ∧
      writePalette toHsv format converted = some parts.palette := by
  simp only [layout, Option.bind_eq_bind, Option.bind_eq_some_iff, Option.pure_def,
    Option.some.injEq] at h
  obtain ⟨glyphs, hglyphs, palette, hpalette, rfl⟩ := h
  refine ⟨?_, fun before e after hentries => ?_, hpalette⟩
  · rw [placeGlyphs_map, List.map_map]
    refine mapM_fst (fun g r hr => ?_) hglyphs
    simp only [Option.bind_eq_bind, Option.bind_eq_some_iff, Option.pure_def,
      Option.some.injEq] at hr
    obtain ⟨_, -, _, -, rfl⟩ := hr
    rfl
  · rw [placeGlyphs_offset hentries, Nat.zero_add]

theorem saved_saveToQff (hparse : parseImage img includeAsciiGlyphs unicodeGlyphs = some font)
    (hformat : format ∈ validFormats) (hsave : saveToQff toHsv format useRle converted font =
      some file) : ∃ parts, layout toHsv format useRle converted font = some parts ∧
        Saved format font.glyphHeight parts file := by
  simp only [saveToQff, Option.bind_eq_bind, Option.bind_eq_some_iff, Option.pure_def,
    Option.some.injEq] at hsave
  obtain ⟨parts, hlayout, desc, hdesc, rfl⟩ := hsave
  obtain ⟨hglyphs, -, hpalette⟩ := layout_eq hlayout
  have hnodup := (parseImage_glyphs hparse).1
  rw [← hglyphs, List.map_map] at hnodup
  exact ⟨parts, hlayout, hformat, ⟨desc, hdesc, rfl⟩, length_writePalette hformat hpalette, hnodup⟩

/-- Every glyph of the image is in the file with its true width. It is found exactly when it is
narrower than 64 pixels, the image data before it is shorter than `2 ^ 18` bytes, there are fewer
than `2 ^ 16` glyphs outside the ASCII table and the file is shorter than `2 ^ 31` bytes. -/
theorem glyph_lookup_iff (hparse : parseImage img includeAsciiGlyphs unicodeGlyphs = some font)
    (hformat : format ∈ validFormats)
    (hsave : saveToQff toHsv format useRle converted font = some file) :
    ∃ parts, layout toHsv format useRle converted font = some parts ∧
      parts.entries.map Entry.glyph = font.glyphData ∧
      ∀ before e after, parts.entries = before ++ e :: after → TrueWidth img e.glyph ∧
        (Finds file e after ↔ e.glyph.w < 2 ^ 6 ∧ (before.flatMap Entry.image).length < 2 ^ 18 ∧
          parts.count < 2 ^ 16 ∧ file.length < 2 ^ 31) := by
  obtain ⟨parts, hlayout, hsaved⟩ := saved_saveToQff hparse hformat hsave
  obtain ⟨hglyphs, hoffsets, -⟩ := layout_eq hlayout
  refine ⟨parts, hlayout, hglyphs, fun before e after hentries => ⟨?_, ?_⟩⟩
  · apply (parseImage_glyphs hparse).2
    rw [← hglyphs, hentries]
    simp
  · exact hsaved.finds_iff hentries (hoffsets before e after hentries)

/-- A single glyph of 64 columns. -/
def wideImage : Image Bool := ⟨64, 2, fun x _ => x = 0⟩

def wideFont : Font := ⟨[⟨⟨65, Nat.lt_of_sub_pos (by decide)⟩, 0, 64⟩], 1⟩

theorem parseImage_wide : parseImage wideImage false [65] = some wideFont := rfl

/-- The black glyph as it is saved. -/
def wideFile : List UInt8 :=
  [0, 255, 20, 0, 0, 81, 70, 70, 1, 49, 0, 0, 0, 206, 255, 255, 255, 1, 0, 1, 0, 0, 0, 0, 255,
    2, 253, 6, 0, 0, 65, 0, 0, 0, 0, 0, 4, 251, 8, 0, 0, 0, 0, 0, 0, 0, 0, 0, 0]

theorem saveToQff_wide : saveToQff id .mono2 false (.rgb ⟨64, 2, fun _ _ => (0, 0, 0)⟩) wideFont =
    some wideFile := by
  decide +kernel

theorem glyph_lookup_wide : ∃ parts,
    layout id .mono2 false (.rgb ⟨64, 2, fun _ _ => (0, 0, 0)⟩) wideFont = some parts ∧
      parts.entries.map Entry.glyph = wideFont.glyphData ∧
      ∀ before e after, parts.entries = before ++ e :: after → TrueWidth wideImage e.glyph ∧
        (Finds wideFile e after ↔ e.glyph.w < 2 ^ 6 ∧
          (before.flatMap Entry.image).length < 2 ^ 18 ∧ parts.count < 2 ^ 16 ∧
            wideFile.length < 2 ^ 31) :=
  glyph_lookup_iff parseImage_wide (by decide) saveToQff_wide

/-- The width of the glyph does not fit into its value. -/
theorem wide_glyph : parseImage wideImage false [65] = some wideFont ∧
    saveToQff id .mono2 false (.rgb ⟨64, 2, fun _ _ => (0, 0, 0)⟩) wideFont = some wideFile ∧
      ∃ parts e, layout id .mono2 false (.rgb ⟨64, 2, fun _ _ => (0, 0, 0)⟩) wideFont = some parts ∧
        parts.entries = [e] ∧ e.glyph = ⟨65, 0, 64⟩ ∧ ¬ Finds wideFile e [] := by
  obtain ⟨parts, hlayout, hsaved⟩ := saved_saveToQff parseImage_wide (by decide) saveToQff_wide
  obtain ⟨hglyphs, hoffsets, -⟩ := layout_eq hlayout
  obtain ⟨e, hentries, hglyph⟩ := List.map_eq_singleton_iff.mp hglyphs
  have hnone : parts.entries = [] ++ e :: [] := hentries
  refine ⟨parseImage_wide, saveToQff_wide, parts, e, hlayout, hentries, hglyph, fun hfinds => ?_⟩
  have hwidth := ((hsaved.finds_iff hnone (hoffsets _ _ _ hnone)).mp hfinds).1
  rw [hglyph] at hwidth
  exact absurd hwidth (by decide)

end Fonts

end Qmk.Painter.Qff
