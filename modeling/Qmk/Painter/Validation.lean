import Qmk.Painter.Qgf

/-! # The validation of Quantum Graphics Files

A file that is validated has the blocks that are read to draw its frames. What is not reported to
the validation is a format that is none, which leaves the bits for a pixel and the palette as they
were before, and a palette that the file ends in.
-/

namespace Qmk.Painter

namespace MemoryStream

variable {file : List UInt8} {s : MemoryStream} {n : ℕ}

theorem ReadsFrom.seek (h : ReadsFrom file s) (offset : ℤ) (origin : Origin) :
    ReadsFrom file (s.seek offset origin).2 := by
  unfold MemoryStream.seek
  dsimp only
  split_ifs <;> exact ⟨h.buffer, h.length⟩

theorem ReadsFrom.read (h : ReadsFrom file s) (n : ℕ) : ReadsFrom file (s.read n).2 := by
  induction n generalizing s with
  | zero => exact h
  | succ n ih =>
    have hget := h.get
    rw [MemoryStream.read]
    rcases hs : s.get with ⟨c, t⟩
    rw [hs] at hget
    cases c with
    | none => exact hget
    | some c => exact ih hget

theorem ReadsFrom.readStruct_snd (h : ReadsFrom file s) (n : ℕ) :
    ReadsFrom file (readStruct n s).2 := h.read n

theorem ReadsFrom.setpos_zero (h : ReadsFrom file s) : (s.setpos 0).2 = ofFile file 0 := by
  have hneg : ¬ s.length < 0 := by
    rw [h.length]
    omega
  obtain ⟨buffer, length, position, isEof⟩ := s
  obtain rfl : buffer = file := h.buffer
  obtain rfl : length = buffer.length := h.length
  simp only [MemoryStream.setpos, MemoryStream.seek]
  rw [if_neg (by decide), if_neg (by simp)]
  rfl

theorem ReadsFrom.readStruct_of_le (h : ReadsFrom file s) (hn : s.position + n ≤ file.length) :
    readStruct n s = (some ((file.drop s.position).take n), s.advance n) := by
  have hholds : s.Holds ((file.drop s.position).take n ++ (file.drop s.position).drop n) := by
    refine ⟨?_, [], ?_⟩
    · rw [h.length, List.take_append_drop, List.length_drop]
      omega
    · rw [List.append_nil, List.take_append_drop, h.buffer]
  exact readStruct_holds hholds (by simp; omega)

theorem ReadsFrom.length_read_le (h : ReadsFrom file s) (n : ℕ) :
    (s.read n).1.length ≤ file.length - s.position := by
  induction n generalizing s with
  | zero => exact Nat.zero_le _
  | succ n ih =>
    rw [MemoryStream.read, MemoryStream.get]
    split_ifs with hend
    · exact Nat.zero_le _
    · have hlater := @ih { s with position := s.position + 1 } ⟨h.buffer, h.length⟩
      have := h.length
      simp only [List.length_cons]
      dsimp only at hlater
      omega

theorem ReadsFrom.readStruct_isSome (h : ReadsFrom file s) (hn : 0 < n) :
    (readStruct n s).1.isSome ↔ s.position + n ≤ file.length := by
  constructor
  · intro hread
    have hle := h.length_read_le n
    rw [readStruct] at hread
    split_ifs at hread with hall
    · omega
    · simp at hread
  · intro hle
    rw [h.readStruct_of_le hle]
    rfl

end MemoryStream

namespace Qgf

section Model

/-- `qgf_parse_frame_descriptor`, with what is in the variables for the format before. -/
def parseFrameDescriptorOver (unset : ℕ × Bool × Bool) (bs : List UInt8) : FrameInfo :=
  let format := (parseFormat (field 5 1 bs)).getD unset
  { compressionScheme := field 7 1 bs
    bpp := format.1
    hasPalette := format.2.1
    isPanelNative := format.2.2
    isDelta := field 6 1 bs &&& 2 = 2
    delay := field 9 2 bs }

def validateFrameDescriptorOver (unset : ℕ × Bool × Bool) (frameNumber : ℕ) (s : MemoryStream) :
    Option FrameInfo × MemoryStream :=
  let r := readStruct 11 (seekToFrameDescriptor frameNumber s)
  match r.1 with
  | none => (none, r.2)
  | some bs =>
    if validateBlockHeader (blockHeader bs) 2 6 then
      (some (parseFrameDescriptorOver unset bs), r.2)
    else (none, r.2)

def validateFrameOver (unset : ℕ × Bool × Bool) (frameNumber : ℕ) (s : MemoryStream) :
    Bool × MemoryStream :=
  let r := validateFrameDescriptorOver unset frameNumber s
  match r.1 with
  | none => (false, r.2)
  | some info =>
    let r := if info.hasPalette then validatePaletteDescriptor info.bpp r.2 else (true, r.2)
    if r.1 then
      let r := if info.isDelta then validateDeltaDescriptor r.2 else r
      if r.1 then validateFrameDataDescriptor r.2 else r
    else r

/-- The loop of `qgf_validate_stream` over the frames, whose variables are new for each frame. -/
def validateFramesOver (unset : ℕ → ℕ × Bool × Bool) : List ℕ → MemoryStream → Bool × MemoryStream
  | [], s => (true, s)
  | i :: is, s =>
    let r := validateFrameOver (unset i) i s
    if r.1 then validateFramesOver unset is r.2 else r

def validateStreamOver (unset : ℕ → ℕ × Bool × Bool) (s : MemoryStream) : Bool × MemoryStream :=
  let r := readGraphicsDescriptor s
  match r.1 with
  | none => (false, r.2)
  | some descriptor => validateFramesOver unset (List.range descriptor.frameCount) r.2

variable {γ : Type*} (player : Player γ)

/-- `qp_drawimage_prepare_frame_for_stream_read`. -/
def prepareFrameOver (unset : ℕ × Bool × Bool) (frameNumber : ℕ) (s : MemoryStream) :
    Option (FrameInfo × (UInt8 → γ)) × MemoryStream :=
  let r := readStruct 11 (seekToFrameDescriptor frameNumber s)
  match r.1 with
  | none => (none, r.2)
  | some bs =>
    let info := parseFrameDescriptorOver unset bs
    if bppCapable player info.bpp then
      let r := framePalette player info r.2
      match r.1 with
      | none => (none, r.2)
      | some palette =>
        let r := readDelta info r.2
        match r.1 with
        | none => (none, r.2)
        | some info =>
          let r := readStruct 5 r.2
          (r.1.map fun _ => (info, palette), r.2)
    else (none, r.2)

def framePosition (file : List UInt8) (frameNumber : ℕ) : ℕ :=
  (seekToFrameDescriptor frameNumber (.ofFile file 0)).position

def block (file : List UInt8) (position n : ℕ) : List UInt8 := (file.drop position).take n

def frameFormat (file : List UInt8) (frameNumber : ℕ) : ℕ :=
  field 5 1 (block file (framePosition file frameNumber) 11)

/-- The bits for a pixel of a frame with a palette. -/
def PaletteBits (file : List UInt8) (frameNumber bpp : ℕ) : Prop :=
  ∃ native, parseFormat (frameFormat file frameNumber) = some (bpp, true, native)

def frameCount (file : List UInt8) : ℕ :=
  ((readGraphicsDescriptor (.ofFile file 0)).1.map (·.frameCount)).getD 0

end Model

/-- What is promised of a frame of a file that is validated: its format is one, the palette of its
format is there, and a device that is capable of it reads its blocks, whatever is in the variables
for the format before. -/
structure Drawable (file : List UInt8) (frameNumber : ℕ) : Prop where
  format_le : frameFormat file frameNumber ≤ 9
  palette : ∀ bpp, PaletteBits file frameNumber bpp →
    validateBlockHeader (blockHeader (block file (framePosition file frameNumber + 11) 5)) 3
        (2 ^ bpp * 3 : ℕ) ∧
      framePosition file frameNumber + 16 + 2 ^ bpp * 3 ≤ file.length
  prepares : ∀ {γ : Type} (player : Player γ) unset s, MemoryStream.ReadsFrom file s →
    bppCapable player ((parseFormat (frameFormat file frameNumber)).getD unset).1 →
      (prepareFrameOver player unset frameNumber s).1.isSome
  independent : ∀ {γ : Type} (player : Player γ) unset unset' s, MemoryStream.ReadsFrom file s →
    prepareFrameOver player unset frameNumber s = prepareFrameOver player unset' frameNumber s

/-- The format of a frame is one, and the file does not end in its palette. -/
structure Complete (file : List UInt8) (frameNumber : ℕ) : Prop where
  format_le : frameFormat file frameNumber ≤ 9
  palette_le : ∀ bpp, PaletteBits file frameNumber bpp →
    framePosition file frameNumber + 16 + 2 ^ bpp * 3 ≤ file.length

section Positions

variable {file bs : List UInt8} {s : MemoryStream} {p n i : ℕ}

/-- The stream is over the file and at `p`. -/
structure At (file : List UInt8) (p : ℕ) (s : MemoryStream) : Prop where
  reads : MemoryStream.ReadsFrom file s
  position : s.position = p

theorem At.readStruct (h : At file p s) (hn : p + n ≤ file.length) :
    (readStruct n s).1 = some (block file p n) ∧ At file (p + n) (readStruct n s).2 := by
  obtain ⟨hreads, rfl⟩ := h
  rw [hreads.readStruct_of_le hn]
  exact ⟨rfl, ⟨hreads.buffer, hreads.length⟩, rfl⟩

theorem At.le_of_readStruct (h : At file p s) (hn : 0 < n)
    (hread : (Painter.readStruct n s).1 = some bs) : p + n ≤ file.length := by
  obtain ⟨hreads, rfl⟩ := h
  exact (hreads.readStruct_isSome hn).mp (by rw [hread]; rfl)

theorem readGraphicsDescriptor_ofFile (h : MemoryStream.ReadsFrom file s) :
    readGraphicsDescriptor s = readGraphicsDescriptor (.ofFile file 0) := by
  rw [readGraphicsDescriptor, readGraphicsDescriptor, h.setpos_zero,
    (MemoryStream.readsFrom_ofFile file 0).setpos_zero]

theorem seekToFrameDescriptor_ofFile (h : MemoryStream.ReadsFrom file s) :
    seekToFrameDescriptor i s = seekToFrameDescriptor i (.ofFile file 0) := by
  rw [seekToFrameDescriptor, seekToFrameDescriptor, readFrameOffset, readFrameOffset,
    readGraphicsDescriptor_ofFile h]

theorem readsFrom_readGraphicsDescriptor (h : MemoryStream.ReadsFrom file s) :
    MemoryStream.ReadsFrom file (readGraphicsDescriptor s).2 := by
  have hread := (h.seek (BitVec.ofNat 32 0).toInt .set).readStruct_snd 23
  unfold readGraphicsDescriptor
  dsimp only [MemoryStream.setpos]
  split
  · exact hread
  · split_ifs <;> exact hread

theorem readsFrom_readFrameOffset (h : MemoryStream.ReadsFrom file s) :
    MemoryStream.ReadsFrom file (readFrameOffset i s).2 := by
  have hdescriptor := readsFrom_readGraphicsDescriptor h
  have hoffsets := hdescriptor.readStruct_snd 5
  unfold readFrameOffset
  dsimp only
  split
  · exact hdescriptor
  · split
    · exact hoffsets
    · split_ifs
      · exact (hoffsets.seek _ _).readStruct_snd 4
      · exact hoffsets

theorem at_seekToFrameDescriptor (h : MemoryStream.ReadsFrom file s) :
    At file (framePosition file i) (seekToFrameDescriptor i s) := by
  rw [seekToFrameDescriptor_ofFile h]
  exact ⟨(readsFrom_readFrameOffset (MemoryStream.readsFrom_ofFile file 0)).seek _ _, rfl⟩

theorem shift_mul (bpp : ℕ) : (1 <<< bpp) * 3 = 2 ^ bpp * 3 := by rw [Nat.one_shiftLeft]

theorem validatePaletteDescriptor_at {bpp : ℕ} (h : At file p s)
    (hvalid : (validatePaletteDescriptor bpp s).1 = true) :
    validateBlockHeader (blockHeader (block file p 5)) 3 (2 ^ bpp * 3 : ℕ) = true ∧
      (p + 5 + 2 ^ bpp * 3 ≤ file.length →
        At file (p + 5 + 2 ^ bpp * 3) (validatePaletteDescriptor bpp s).2) := by
  unfold validatePaletteDescriptor at hvalid ⊢
  dsimp only at hvalid ⊢
  cases hread : (readStruct 5 s).1 with
  | none => simp [hread] at hvalid
  | some bs =>
    obtain ⟨hbytes, hreads, hposition⟩ := h.readStruct (h.le_of_readStruct (by decide) hread)
    obtain rfl : bs = block file p 5 := by simpa [hread] using hbytes
    simp only [hread, shift_mul] at hvalid ⊢
    by_cases hheader : validateBlockHeader (blockHeader (block file p 5)) 3 (2 ^ bpp * 3 : ℕ)
    · rw [if_pos hheader]
      refine ⟨hheader, fun hle => ⟨hreads.seek _ _, ?_⟩⟩
      have hlength := hreads.length
      unfold MemoryStream.seek
      dsimp only
      rw [if_neg (by omega), if_neg (by omega)]
      dsimp only
      omega
    · rw [if_neg hheader] at hvalid
      simp at hvalid

theorem validateDeltaDescriptor_at (h : At file p s)
    (hvalid : (validateDeltaDescriptor s).1 = true) :
    p + 13 ≤ file.length ∧ At file (p + 13) (validateDeltaDescriptor s).2 := by
  unfold validateDeltaDescriptor at hvalid ⊢
  dsimp only at hvalid ⊢
  cases hread : (readStruct 13 s).1 with
  | none => simp [hread] at hvalid
  | some bs =>
    have hle := h.le_of_readStruct (by decide) hread
    exact ⟨hle, (h.readStruct hle).2⟩

theorem validateFrameDataDescriptor_at (h : At file p s)
    (hvalid : (validateFrameDataDescriptor s).1 = true) : p + 5 ≤ file.length := by
  unfold validateFrameDataDescriptor at hvalid
  dsimp only at hvalid
  cases hread : (readStruct 5 s).1 with
  | none => simp [hread] at hvalid
  | some bs => exact h.le_of_readStruct (by decide) hread

variable {γ : Type*} {player : Player γ} {info : FrameInfo}

theorem framePalette_at (h : At file p s) (hpalette : info.hasPalette = true)
    (hle : p + 5 + 2 ^ info.bpp * 3 ≤ file.length) :
    (framePalette player info s).1.isSome ∧
      At file (p + 5 + 2 ^ info.bpp * 3) (framePalette player info s).2 := by
  obtain ⟨hheader, hlater⟩ := h.readStruct (n := 5) (by omega)
  obtain ⟨hentries, hend⟩ := hlater.readStruct (n := 2 ^ info.bpp * 3) hle
  simp only [framePalette, hpalette, if_true, loadQgfPalette, hheader, shift_mul, hentries]
  exact ⟨rfl, hend⟩

theorem readDelta_at (h : At file p s) (hdelta : info.isDelta = true)
    (hle : p + 13 ≤ file.length) :
    (readDelta info s).1.isSome ∧ At file (p + 13) (readDelta info s).2 := by
  obtain ⟨hbytes, hlater⟩ := h.readStruct hle
  simp only [readDelta, hdelta, if_true, hbytes]
  exact ⟨rfl, hlater⟩

def validateBlocks (info : FrameInfo) (s : MemoryStream) : Bool × MemoryStream :=
  let r := if info.hasPalette then validatePaletteDescriptor info.bpp s else (true, s)
  if r.1 then
    let r := if info.isDelta then validateDeltaDescriptor r.2 else r
    if r.1 then validateFrameDataDescriptor r.2 else r
  else r

def validateData (info : FrameInfo) (s : MemoryStream) : Bool × MemoryStream :=
  let r := if info.isDelta then validateDeltaDescriptor s else (true, s)
  if r.1 then validateFrameDataDescriptor r.2 else r

/-- The blocks behind the palette, as they are read to draw the frame. -/
def prepareData (info : FrameInfo) (palette : UInt8 → γ) (s : MemoryStream) :
    Option (FrameInfo × (UInt8 → γ)) × MemoryStream :=
  let r := readDelta info s
  match r.1 with
  | none => (none, r.2)
  | some info =>
    let r := readStruct 5 r.2
    (r.1.map fun _ => (info, palette), r.2)

def prepareBlocks (player : Player γ) (info : FrameInfo) (s : MemoryStream) :
    Option (FrameInfo × (UInt8 → γ)) × MemoryStream :=
  let r := framePalette player info s
  match r.1 with
  | none => (none, r.2)
  | some palette => prepareData info palette r.2

theorem prepareFrameOver_some {unset : ℕ × Bool × Bool} {frameNumber : ℕ} {bs : List UInt8}
    (hread : (readStruct 11 (seekToFrameDescriptor frameNumber s)).1 = some bs) :
    prepareFrameOver player unset frameNumber s =
      if bppCapable player (parseFrameDescriptorOver unset bs).bpp then
        prepareBlocks player (parseFrameDescriptorOver unset bs)
          (readStruct 11 (seekToFrameDescriptor frameNumber s)).2
      else (none, (readStruct 11 (seekToFrameDescriptor frameNumber s)).2) := by
  unfold prepareFrameOver
  generalize readStruct 11 (seekToFrameDescriptor frameNumber s) = r at *
  obtain ⟨_, t⟩ := r
  obtain rfl := hread
  rfl

theorem validateBlocks_data (hvalid : (validateBlocks info s).1 = true) :
    let r := if info.hasPalette then validatePaletteDescriptor info.bpp s else (true, s)
    r.1 = true ∧ (validateData info r.2).1 = true := by
  unfold validateBlocks at hvalid
  intro r
  obtain ⟨⟨ok, t⟩, hr⟩ : ∃ x, r = x := ⟨r, rfl⟩
  change (if r.1 then
    let q := if info.isDelta then validateDeltaDescriptor r.2 else r
    if q.1 then validateFrameDataDescriptor q.2 else q
    else r).1 = true at hvalid
  rw [hr] at hvalid ⊢
  cases ok with
  | false => simp at hvalid
  | true => exact ⟨rfl, hvalid⟩

theorem prepareData_isSome {t u : MemoryStream} (ht : At file p t) (hu : At file p u)
    (hvalid : (validateData info t).1 = true) (palette : UInt8 → γ) :
    (prepareData info palette u).1.isSome := by
  unfold validateData at hvalid
  unfold prepareData
  dsimp only at hvalid ⊢
  cases hinfo : info.isDelta with
  | false =>
    rw [hinfo, if_neg Bool.false_ne_true, if_pos rfl] at hvalid
    have hle := validateFrameDataDescriptor_at ht hvalid
    simp only [readDelta, hinfo, Bool.false_eq_true, if_false, (hu.readStruct hle).1]
    rfl
  | true =>
    rw [hinfo, if_pos rfl] at hvalid
    by_cases hdelta : (validateDeltaDescriptor t).1 = true
    · rw [if_pos hdelta] at hvalid
      obtain ⟨hle, hlater⟩ := validateDeltaDescriptor_at ht hdelta
      have hend := validateFrameDataDescriptor_at hlater hvalid
      obtain ⟨hsome, hread⟩ := readDelta_at hu hinfo hle
      obtain ⟨delta, hdelta⟩ := Option.isSome_iff_exists.mp hsome
      simp only [hdelta, (hread.readStruct hend).1]
      rfl
    · rw [if_neg hdelta] at hvalid
      exact absurd hvalid hdelta

/-- The validation and the drawing are at the same place behind the palette, and then they read the
same blocks. -/
theorem prepareBlocks_isSome {t u : MemoryStream} (ht : At file p t) (hu : At file p u)
    (hpalette : info.hasPalette = true → p + 5 + 2 ^ info.bpp * 3 ≤ file.length)
    (hvalid : (validateBlocks info t).1 = true) : (prepareBlocks player info u).1.isSome := by
  obtain ⟨hheader, hdata⟩ := validateBlocks_data hvalid
  unfold prepareBlocks
  dsimp only at hheader hdata ⊢
  cases hinfo : info.hasPalette with
  | false =>
    rw [hinfo, if_neg Bool.false_ne_true] at hdata
    simp only [framePalette, hinfo, Bool.false_eq_true, if_false]
    exact prepareData_isSome ht hu hdata _
  | true =>
    rw [hinfo, if_pos rfl] at hheader hdata
    have hle := hpalette hinfo
    obtain ⟨hsome, hlater⟩ := @framePalette_at file u p _ player info hu hinfo hle
    obtain ⟨palette, hread⟩ := Option.isSome_iff_exists.mp hsome
    rw [hread]
    exact prepareData_isSome ((validatePaletteDescriptor_at ht hheader).2 hle) hlater hdata palette

theorem parseFrameDescriptorOver_eq (hformat : field 5 1 bs ≤ 9) (unset : ℕ × Bool × Bool) :
    parseFrameDescriptorOver unset bs = parseFrameDescriptor bs := by
  have hlt : field 5 1 bs < formats.length := by
    rw [show formats.length = 10 from rfl]
    omega
  rw [parseFrameDescriptorOver, parseFrameDescriptor, parseFormat,
    List.getElem?_eq_getElem hlt]
  rfl

theorem validateFrameOver_at {unset : ℕ × Bool × Bool} (h : MemoryStream.ReadsFrom file s)
    (hvalid : (validateFrameOver unset i s).1 = true) :
    ∃ t, At file (framePosition file i + 11) t ∧ framePosition file i + 11 ≤ file.length ∧
      (validateBlocks (parseFrameDescriptorOver unset (block file (framePosition file i) 11)) t).1 =
        true := by
  have hat := at_seekToFrameDescriptor (i := i) h
  unfold validateFrameOver validateFrameDescriptorOver at hvalid
  dsimp only at hvalid
  cases hread : (readStruct 11 (seekToFrameDescriptor i s)).1 with
  | none => simp [hread] at hvalid
  | some bs =>
    have hle := hat.le_of_readStruct (by decide) hread
    obtain ⟨hbytes, hlater⟩ := hat.readStruct hle
    obtain rfl : bs = block file (framePosition file i) 11 := by simpa [hread] using hbytes
    refine ⟨_, hlater, hle, ?_⟩
    simp only [hread] at hvalid
    split_ifs at hvalid with hheader
    exact hvalid

theorem readsFrom_validatePaletteDescriptor {bpp : ℕ} (h : MemoryStream.ReadsFrom file s) :
    MemoryStream.ReadsFrom file (validatePaletteDescriptor bpp s).2 := by
  have hread := h.readStruct_snd 5
  unfold validatePaletteDescriptor
  dsimp only
  split
  · exact hread
  · split_ifs
    · exact hread.seek _ _
    · exact hread

theorem readsFrom_validateDeltaDescriptor (h : MemoryStream.ReadsFrom file s) :
    MemoryStream.ReadsFrom file (validateDeltaDescriptor s).2 := by
  have hread := h.readStruct_snd 13
  unfold validateDeltaDescriptor
  dsimp only
  split <;> exact hread

theorem readsFrom_validateFrameDataDescriptor (h : MemoryStream.ReadsFrom file s) :
    MemoryStream.ReadsFrom file (validateFrameDataDescriptor s).2 := by
  have hread := h.readStruct_snd 5
  unfold validateFrameDataDescriptor
  dsimp only
  split <;> exact hread

theorem readsFrom_validateBlocks (h : MemoryStream.ReadsFrom file s) :
    MemoryStream.ReadsFrom file (validateBlocks info s).2 := by
  have hpalette : MemoryStream.ReadsFrom file
      (if info.hasPalette then validatePaletteDescriptor info.bpp s else (true, s)).2 := by
    split_ifs
    · exact readsFrom_validatePaletteDescriptor h
    · exact h
  have hdelta : ∀ r : Bool × MemoryStream, MemoryStream.ReadsFrom file r.2 →
      MemoryStream.ReadsFrom file (if info.isDelta then validateDeltaDescriptor r.2 else r).2 := by
    intro r hr
    split_ifs
    · exact readsFrom_validateDeltaDescriptor hr
    · exact hr
  have hdata : ∀ r : Bool × MemoryStream, MemoryStream.ReadsFrom file r.2 →
      MemoryStream.ReadsFrom file (if r.1 then validateFrameDataDescriptor r.2 else r).2 := by
    intro r hr
    split_ifs
    · exact readsFrom_validateFrameDataDescriptor hr
    · exact hr
  have hall : ∀ r : Bool × MemoryStream, MemoryStream.ReadsFrom file r.2 →
      MemoryStream.ReadsFrom file (if r.1 then
        let q := if info.isDelta then validateDeltaDescriptor r.2 else r
        if q.1 then validateFrameDataDescriptor q.2 else q
        else r).2 := by
    intro r hr
    by_cases hok : r.1 = true
    · rw [if_pos hok]
      exact hdata _ (hdelta r hr)
    · rw [if_neg hok]
      exact hr
  exact hall _ hpalette

theorem readsFrom_validateFrameDescriptorOver {unset : ℕ × Bool × Bool}
    (h : MemoryStream.ReadsFrom file s) :
    MemoryStream.ReadsFrom file (validateFrameDescriptorOver unset i s).2 := by
  have hread := (at_seekToFrameDescriptor (i := i) h).reads.readStruct_snd 11
  unfold validateFrameDescriptorOver
  dsimp only
  split
  · exact hread
  · split_ifs <;> exact hread

theorem validateFrameOver_some {unset : ℕ × Bool × Bool} {info : FrameInfo}
    (h : (validateFrameDescriptorOver unset i s).1 = some info) :
    validateFrameOver unset i s =
      validateBlocks info (validateFrameDescriptorOver unset i s).2 := by
  unfold validateFrameOver validateBlocks
  simp only [h]

theorem readsFrom_validateFrameOver {unset : ℕ × Bool × Bool}
    (h : MemoryStream.ReadsFrom file s) :
    MemoryStream.ReadsFrom file (validateFrameOver unset i s).2 := by
  have hdescriptor := @readsFrom_validateFrameDescriptorOver file s i unset h
  cases hframe : (validateFrameDescriptorOver unset i s).1 with
  | none =>
    unfold validateFrameOver
    simp only [hframe]
    exact hdescriptor
  | some info =>
    rw [validateFrameOver_some hframe]
    exact readsFrom_validateBlocks hdescriptor

theorem validateFramesOver_mem {unset : ℕ → ℕ × Bool × Bool} {is : List ℕ}
    (h : MemoryStream.ReadsFrom file s) (hvalid : (validateFramesOver unset is s).1 = true) :
    ∀ i ∈ is, ∃ t, MemoryStream.ReadsFrom file t ∧ (validateFrameOver (unset i) i t).1 = true := by
  induction is generalizing s with
  | nil => simp
  | cons j is ih =>
    simp only [validateFramesOver] at hvalid
    split_ifs at hvalid with hframe
    · exact List.forall_mem_cons.mpr
        ⟨⟨s, h, hframe⟩, ih (readsFrom_validateFrameOver h) hvalid⟩
    · exact absurd hvalid hframe

theorem Complete.drawable {unset : ℕ × Bool × Bool} (hcomplete : Complete file i)
    (h : MemoryStream.ReadsFrom file s) (hvalid : (validateFrameOver unset i s).1 = true) :
    Drawable file i := by
  obtain ⟨t, ht, hle, hblocks⟩ := validateFrameOver_at h hvalid
  have hparse := @parseFrameDescriptorOver_eq (block file (framePosition file i) 11)
    hcomplete.format_le
  rw [hparse] at hblocks
  have hprepare : ∀ {γ : Type} (player : Player γ) unset u, MemoryStream.ReadsFrom file u →
      prepareFrameOver player unset i u =
        if bppCapable player (parseFrameDescriptor (block file (framePosition file i) 11)).bpp then
          prepareBlocks player (parseFrameDescriptor (block file (framePosition file i) 11))
            (readStruct 11 (seekToFrameDescriptor i u)).2
        else (none, (readStruct 11 (seekToFrameDescriptor i u)).2) := by
    intro γ player unset u hu
    obtain ⟨hbytes, -⟩ := (at_seekToFrameDescriptor (i := i) hu).readStruct hle
    rw [prepareFrameOver_some hbytes, hparse]
  obtain ⟨⟨bpp, hasPalette, native⟩, hfmt⟩ :
      ∃ fmt, parseFormat (frameFormat file i) = some fmt := by
    have hlt : frameFormat file i < formats.length := Nat.lt_succ_of_le hcomplete.format_le
    exact ⟨_, List.getElem?_eq_getElem hlt⟩
  have hinfo : (parseFrameDescriptor (block file (framePosition file i) 11)).bpp = bpp ∧
      (parseFrameDescriptor (block file (framePosition file i) 11)).hasPalette = hasPalette := by
    have hfmt : parseFormat (field 5 1 (block file (framePosition file i) 11)) =
      some (bpp, hasPalette, native) := hfmt
    simp only [parseFrameDescriptor, hfmt, Option.getD_some, and_self]
  obtain ⟨hbpp, hhas⟩ := hinfo
  refine ⟨hcomplete.format_le, ?_, ?_, ?_⟩
  · rintro bpp' hbits
    obtain ⟨native', hnative⟩ := hbits
    obtain ⟨rfl, rfl, -⟩ : bpp = bpp' ∧ hasPalette = true ∧ native = native' := by
      simpa [hfmt] using hnative
    obtain ⟨hheader, -⟩ := validateBlocks_data hblocks
    rw [hhas, if_pos rfl, hbpp] at hheader
    exact ⟨(validatePaletteDescriptor_at ht hheader).1, hcomplete.palette_le bpp ⟨native', hnative⟩⟩
  · intro γ player unset u hu hcapable
    rw [hfmt, Option.getD_some] at hcapable
    rw [hprepare player unset u hu, hbpp, if_pos hcapable]
    have hat := ((at_seekToFrameDescriptor (i := i) hu).readStruct hle).2
    refine prepareBlocks_isSome ht hat (fun hpalette => ?_) hblocks
    rw [hhas] at hpalette
    rw [hbpp]
    exact hcomplete.palette_le bpp ⟨native, by rw [hfmt, hpalette]⟩
  · intro γ player unset unset' u hu
    rw [hprepare player unset u hu, hprepare player unset' u hu]

/-- All frames of a file that is validated can be drawn exactly when all are complete. -/
theorem validated_drawable_iff {file : List UInt8} {s : MemoryStream}
    (h : MemoryStream.ReadsFrom file s) {unset : ℕ → ℕ × Bool × Bool}
    (hvalid : (validateStreamOver unset s).1 = true) :
    (∀ i < frameCount file, Drawable file i) ↔ ∀ i < frameCount file, Complete file i := by
  constructor
  · exact fun hdrawable i hi =>
      ⟨(hdrawable i hi).format_le, fun bpp hbpp => ((hdrawable i hi).palette bpp hbpp).2⟩
  · intro hcomplete i hi
    unfold validateStreamOver at hvalid
    rw [readGraphicsDescriptor_ofFile h] at hvalid
    unfold frameCount at hi
    cases hread : (readGraphicsDescriptor (.ofFile file 0)).1 with
    | none => simp [hread] at hi
    | some descriptor =>
      simp only [hread] at hvalid
      rw [hread] at hi
      have hreads := readsFrom_readGraphicsDescriptor (MemoryStream.readsFrom_ofFile file 0)
      obtain ⟨t, ht, hframe⟩ := validateFramesOver_mem hreads hvalid i (List.mem_range.mpr hi)
      refine (hcomplete i ?_).drawable ht hframe
      rw [frameCount, hread]
      exact hi

end Positions

/-- A file with one frame of one pixel, whose format is any byte. -/
def oneFrame (format : UInt8) : List UInt8 :=
  [0x00, 0xFF, 18, 0, 0, 0x51, 0x47, 0x46, 1, 49, 0, 0, 0, 0xCE, 0xFF, 0xFF, 0xFF, 1, 0, 1, 0,
    1, 0, 0x01, 0xFE, 4, 0, 0, 32, 0, 0, 0, 0x02, 0xFD, 6, 0, 0, format, 0, 0, 0xFF, 0, 0, 0x05,
    0xFA, 1, 0, 0, 0]

/-- A format that is none is validated. -/
theorem unknownFormat_validated :
    ¬ ((validateStreamOver (fun _ => (0, false, false)) (.ofFile (oneFrame 10) 0)).1 = true →
      ∀ i < frameCount (oneFrame 10), Drawable (oneFrame 10) i) := by
  intro h
  have hformat := (h (by decide +kernel) 0 (by decide +kernel)).format_le
  exact absurd hformat (by decide +kernel)

/-- A file with one frame of one pixel, and a palette of two colors. -/
def twoColors : List UInt8 :=
  [0x00, 0xFF, 18, 0, 0, 0x51, 0x47, 0x46, 1, 60, 0, 0, 0, 0xC3, 0xFF, 0xFF, 0xFF, 1, 0, 1, 0,
    1, 0, 0x01, 0xFE, 4, 0, 0, 32, 0, 0, 0, 0x02, 0xFD, 6, 0, 0, 4, 0, 0, 0xFF, 0, 0, 0x03, 0xFC,
    6, 0, 0, 0, 0, 0, 85, 255, 255, 0x05, 0xFA, 1, 0, 0, 1]

theorem twoColors_drawable : PaletteBits twoColors 0 1 ∧ Drawable twoColors 0 := by
  have hcount : frameCount twoColors = 1 := by decide +kernel
  have hformat : parseFormat (frameFormat twoColors 0) = some (1, true, false) := by decide +kernel
  refine ⟨⟨false, hformat⟩, (@validated_drawable_iff twoColors _
    (MemoryStream.readsFrom_ofFile twoColors 0) (fun _ => (0, false, false))
    (by decide +kernel)).mpr ?_ 0 (by omega)⟩
  intro i hi
  obtain rfl : i = 0 := by omega
  refine ⟨by decide +kernel, ?_⟩
  rintro bpp ⟨native, hbits⟩
  obtain ⟨rfl, -⟩ : 1 = bpp ∧ false = native := by simpa [hformat] using hbits
  decide +kernel

section Reader

variable {γ : Type*}

theorem prepareFrame_over (player : Player γ) (frameNumber : ℕ) (s : MemoryStream) :
    prepareFrameOver player (0, false, false) frameNumber s =
      prepareFrame player frameNumber s := by
  unfold prepareFrameOver prepareFrame
  generalize readStruct 11 (seekToFrameDescriptor frameNumber s) = r
  obtain ⟨_ | bs, t⟩ := r
  · rfl
  · rfl

theorem validateFrame_over (frameNumber : ℕ) (s : MemoryStream) :
    validateFrameOver (0, false, false) frameNumber s = validateFrame frameNumber s := by
  have hdescriptor : validateFrameDescriptorOver (0, false, false) frameNumber s =
      validateFrameDescriptor frameNumber s := by
    unfold validateFrameDescriptorOver validateFrameDescriptor
    generalize readStruct 11 (seekToFrameDescriptor frameNumber s) = r
    obtain ⟨_ | bs, t⟩ := r
    · rfl
    · rfl
  unfold validateFrameOver validateFrame
  cases hframe : (validateFrameDescriptor frameNumber s).1 <;> simp only [hdescriptor, hframe]

theorem validateStream_over (s : MemoryStream) :
    validateStreamOver (fun _ => (0, false, false)) s = validateStream s := by
  have hframes : ∀ is s,
      validateFramesOver (fun _ => (0, false, false)) is s = validateFrames is s := by
    intro is
    induction is with
    | nil => exact fun _ => rfl
    | cons i is ih =>
      intro s
      simp only [validateFrames, validateFramesOver, validateFrame_over, ih]
  unfold validateStream validateStreamOver
  cases hread : (readGraphicsDescriptor s).1 <;> simp only [hframes, hread]

end Reader

end Qgf

end Qmk.Painter
