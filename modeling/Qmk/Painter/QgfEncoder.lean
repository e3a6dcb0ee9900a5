import Qmk.Painter.Qgf

/-! # What the graphics encoder writes

Every frame is written as a whole, or as the box around the pixels in which it differs from
the frame before it. Without run lengths the second choice is an exception, so no file is
written at all.
-/

namespace Qmk.Painter.Qgf

section Difference

variable {frame lastFrame : Image Rgb} {bbox : Box}

theorem mem_differing {n m : ℕ} {differ : ℕ → ℕ → Bool} {x : ℕ} :
    x ∈ differing n m differ ↔ x < n ∧ ∃ y < m, differ x y = true := by
  simp [differing]

theorem differing_bounds {n m : ℕ} {differ : ℕ → ℕ → Bool} {first last : ℕ}
    (hfirst : (differing n m differ).head? = some first)
    (hlast : (differing n m differ).getLast? = some last) {x : ℕ}
    (hx : x ∈ differing n m differ) : first ≤ x ∧ x ≤ last := by
  have hsorted : (differing n m differ).Pairwise (· < ·) :=
    List.pairwise_lt_range.sublist List.filter_sublist
  constructor
  · obtain ⟨xs, hxs⟩ := List.head?_eq_some_iff.mp hfirst
    rw [hxs, List.pairwise_cons] at hsorted
    rw [hxs] at hx
    rcases List.mem_cons.mp hx with rfl | hx
    · exact le_rfl
    · exact (hsorted.1 x hx).le
  · obtain ⟨xs, hxs⟩ := List.getLast?_eq_some_iff.mp hlast
    rw [hxs, List.pairwise_append] at hsorted
    rw [hxs] at hx
    rcases List.mem_append.mp hx with hx | hx
    · exact (hsorted.2.2 x hx last (by simp)).le
    · exact (List.mem_singleton.mp hx).le

/-- The box is inside the frame, has pixels, and the frames are equal outside. -/
structure IsBox (frame lastFrame : Image Rgb) (bbox : Box) : Prop where
  left : bbox.left < bbox.right
  right : bbox.right ≤ frame.width
  top : bbox.top < bbox.bottom
  bottom : bbox.bottom ≤ frame.height
  outside : ∀ x y, x < frame.width → y < frame.height →
    ¬ (bbox.left ≤ x ∧ x < bbox.right ∧ bbox.top ≤ y ∧ y < bbox.bottom) →
      frame.pixel x y = lastFrame.pixel x y

theorem differenceBox_some (h : differenceBox frame lastFrame = some bbox) :
    IsBox frame lastFrame bbox := by
  unfold differenceBox at h
  dsimp only at h
  split at h
  · rename_i left top right bottom hleft htop hright hbottom
    obtain rfl := Option.some.inj h
    have hcolumn := mem_differing.mp (List.mem_of_getLast? hright)
    have hrow := mem_differing.mp (List.mem_of_getLast? hbottom)
    have hcolumns := differing_bounds hleft hright (List.mem_of_getLast? hright)
    have hrows := differing_bounds htop hbottom (List.mem_of_getLast? hbottom)
    refine ⟨?_, ?_, ?_, ?_, fun x y hx hy houtside => ?_⟩ <;> dsimp only at *
    · omega
    · omega
    · omega
    · omega
    · by_contra hne
      have hx := differing_bounds hleft hright (x := x)
        (mem_differing.mpr ⟨hx, y, hy, by simpa using hne⟩)
      have hy := differing_bounds htop hbottom (x := y)
        (mem_differing.mpr ⟨hy, x, by omega, by simpa using hne⟩)
      exact houtside (by omega)
  · cases h

end Difference

section Compression

/-- The grayscale formats. -/
def Gray (format : Format) : Prop := format ∈ validFormats ∧ format.imageFormat = .grayscale

theorem gray_valid : ∀ format ∈ validFormats, format.imageFormat = .grayscale →
    format.Indexed ∧
      parseFormat format.imageFormatByte.toNat = some (format.bpp, false, false) := by
  decide

theorem Gray.indexed {format : Format} (h : Gray format) : format.Indexed :=
  (gray_valid format h.1 h.2).1

theorem Gray.parseFormat {format : Format} (h : Gray format) :
    parseFormat format.imageFormatByte.toNat = some (format.bpp, false, false) :=
  (gray_valid format h.1 h.2).2

/-- The bytes of `n` pixels. -/
def packedSize (format : Format) (n : ℕ) : ℕ := packedCount (8 / format.bpp) n

variable {info : EncoderInfo} {im : Image Rgb}

/-- The image in the mode of the format. -/
def converted (info : EncoderInfo) (im : Image Rgb) : Converted := .rgb (im.map info.convert)

/-- `data` is the image, compressed if that makes it shorter. -/
def Encodes (info : EncoderInfo) (im : Image Rgb) (data : List UInt8) (useRaw : Bool) : Prop :=
  ∃ raw, convertImageBytes info.format (converted info im) = some raw ∧
    data.length ≤ raw.length ∧
      if useRaw then data = raw else toBytes (compressBytesQmkRle raw) = some data

theorem graphicData_eq (hgray : Gray info.format) (im : Image Rgb) : ∃ raw encoded,
    convertImageBytes info.format (converted info im) = some raw ∧
      raw.length = packedSize info.format (im.width * im.height) ∧
      toBytes (compressBytesQmkRle raw) = some encoded ∧
      graphicData info im = some ⟨raw, if info.useRle then some encoded else none⟩ := by
  have hsuits : (converted info im).Suits info.format := hgray.2
  obtain ⟨raw, hraw, hpacked, -⟩ := convertImageBytes_indexed hgray.indexed hsuits
  obtain ⟨blocks, rest, -, -, hencoded⟩ := toBytes_compress raw
  refine ⟨raw, _, hraw, ?_, hencoded, ?_⟩
  · have hcount := congrArg List.length hpacked
    have hindices : (indices info.format (converted info im)).length = im.width * im.height :=
      (List.length_map _).trans (Image.length_toList (im.map info.convert))
    rw [List.length_map, packBytes, List.length_map, List.length_range, hindices] at hcount
    exact hcount.symm
  · rw [graphicData, show Converted.rgb (im.map info.convert) = converted info im from rfl, hraw]
    simp only [Option.bind_eq_bind, Option.bind_some, hencoded, Option.pure_def]
    split_ifs <;> rfl

theorem encodes_imageData {raw encoded : List UInt8}
    (hraw : convertImageBytes info.format (converted info im) = some raw)
    (hencoded : toBytes (compressBytesQmkRle raw) = some encoded) :
    Encodes info im (GraphicData.imageData ⟨raw, if info.useRle then some encoded else none⟩)
      (GraphicData.useRaw ⟨raw, if info.useRle then some encoded else none⟩) := by
  refine ⟨raw, hraw, ?_⟩
  simp only [GraphicData.imageData, GraphicData.useRaw]
  by_cases hrle : info.useRle = true
  · simp only [hrle, if_true, decide_eq_true_eq]
    split_ifs with hle
    · exact ⟨le_rfl, rfl⟩
    · exact ⟨(not_le.mp hle).le, hencoded⟩
  · simp [hrle]

/-- A delta frame that is small enough to be chosen, without run lengths. -/
def SmallDelta (info : EncoderInfo) (frame lastFrame : Image Rgb) : Prop :=
  ∃ bbox, differenceBox frame lastFrame = some bbox ∧
    packedSize info.format ((bbox.right - bbox.left) * (bbox.bottom - bbox.top)) + 8 <
      packedSize info.format (frame.width * frame.height)

/-- The frame is written as a whole or as the box in which it differs from the last one. -/
inductive Choice (info : EncoderInfo) (frame : Image Rgb) (lastFrame : Option (Image Rgb)) :
    Outputs → Prop
  | whole {data : List UInt8} {useRaw : Bool} (h : Encodes info frame data useRaw) :
    Choice info frame lastFrame ⟨none, data, useRaw⟩
  | delta {last : Image Rgb} {bbox : Box} {data : List UInt8} {useRaw : Bool}
    (hlast : lastFrame = some last) (hbox : IsBox frame last bbox)
    (h : Encodes info (frame.crop bbox.left bbox.top bbox.right bbox.bottom) data useRaw) :
    Choice info frame lastFrame
      ⟨some ⟨bbox.left, bbox.top, bbox.right - 1, bbox.bottom - 1⟩, data, useRaw⟩

/-- `_compress_image` raises no exception unless it takes a delta frame without run lengths. -/
theorem compressImage_eq (hgray : Gray info.format) (frame : Image Rgb)
    (lastFrame : Option (Image Rgb)) :
    (∃ outputs, compressImage info frame lastFrame = some outputs ∧
        Choice info frame lastFrame outputs) ∧
      ¬ (info.useRle = false ∧ info.useDeltas = true ∧
        ∃ last ∈ lastFrame, SmallDelta info frame last) ∨
    compressImage info frame lastFrame = none ∧ info.useRle = false ∧ info.useDeltas = true ∧
      ∃ last ∈ lastFrame, SmallDelta info frame last := by
  obtain ⟨raw, encoded, hraw, hlen, hencoded, hdata⟩ := graphicData_eq hgray frame
  have hwhole := encodes_imageData hraw hencoded
  unfold compressImage
  rw [hdata]
  simp only [Option.bind_eq_bind, Option.bind_some, Option.pure_def]
  split
  · rename_i hnone
    refine .inl ⟨⟨_, rfl, .whole hwhole⟩, ?_⟩
    rintro ⟨-, hdeltas, last, hlast, bbox, hbox, -⟩
    rw [if_pos hdeltas, hlast, Option.bind_some, hbox] at hnone
    cases hnone
  · rename_i bbox hbox
    obtain ⟨hdeltas, hbox⟩ := Option.ite_none_right_eq_some.mp hbox
    obtain ⟨last, hlast, hbox⟩ := Option.bind_eq_some_iff.mp hbox
    obtain ⟨draw, dencoded, hdraw, hdlen, hdencoded, hddata⟩ := graphicData_eq hgray
      (frame.crop bbox.left bbox.top bbox.right bbox.bottom)
    rw [hddata]
    have hdelta := encodes_imageData hdraw hdencoded
    have hsame : ∀ bbox', differenceBox frame last = some bbox' → bbox' = bbox :=
      fun bbox' h => Option.some.inj (h.symm.trans hbox)
    simp only [Option.bind_some]
    by_cases hrle : info.useRle = true
    · refine .inl ⟨?_, by simp [hrle]⟩
      simp only [hrle, if_true, Option.bind_some] at hwhole hdelta ⊢
      split_ifs
      · exact ⟨_, rfl, .delta hlast (differenceBox_some hbox) hdelta⟩
      · exact ⟨_, rfl, .whole hwhole⟩
    · have hrle : info.useRle = false := by simpa using hrle
      have hsmall : (∃ last ∈ lastFrame, SmallDelta info frame last) ↔
          draw.length + 8 < raw.length := by
        rw [hdlen, hlen]
        constructor
        · rintro ⟨last', hlast', bbox', hbox', hlt⟩
          obtain rfl := Option.some.inj (hlast'.symm.trans hlast)
          obtain rfl := hsame bbox' hbox'
          exact hlt
        · exact fun hlt => ⟨last, hlast, bbox, hbox, hlt⟩
      simp only [hrle, Bool.false_eq_true, if_false, GraphicData.imageData, GraphicData.useRaw,
        hdeltas, true_and, hsmall] at hwhole hdelta ⊢
      split_ifs with hlt
      · exact .inr ⟨rfl, hlt⟩
      · exact .inl ⟨⟨_, rfl, .whole hwhole⟩, hlt⟩

end Compression

section Frames

variable {info : EncoderInfo} {frame : Frame} {lastFrame : Option (Image Rgb)} {outputs : Outputs}
  {w h : ℕ}

def frameHead (format : Format) (frame : Frame) (outputs : Outputs) : List UInt8 :=
  writeHeader 2 6 ++ o8 format.imageFormatByte.toNat ++
    o8 (if outputs.delta.isSome then 2 else 0) ++ o8 (if outputs.useRaw then 0 else 1) ++ o8 0xFF ++
    leBytes 2 frame.delay

def deltaBlock (outputs : Outputs) : List UInt8 :=
  match outputs.delta with
  | some bbox => writeHeader 4 8 ++ leBytes 2 bbox.left ++ leBytes 2 bbox.top ++
    leBytes 2 bbox.right ++ leBytes 2 bbox.bottom
  | none => []

def frameBlock (format : Format) (frame : Frame) (outputs : Outputs) : List UInt8 :=
  frameHead format frame outputs ++ deltaBlock outputs ++
    writeHeader 5 outputs.imageData.length ++ outputs.imageData

theorem writeFrame_eq (hgray : Gray info.format) (hw : frame.image.width < 2 ^ 16)
    (hh : frame.image.height < 2 ^ 16) : writeFrame info frame lastFrame =
      (compressImage info frame.image lastFrame).bind fun outputs =>
        if frame.delay < 2 ^ 16 then some (frameBlock info.format frame outputs) else none := by
  unfold writeFrame
  rcases compressImage_eq hgray frame.image lastFrame with
    ⟨⟨outputs, hout, hchoice⟩, -⟩ | ⟨hnone, -⟩
  · rw [hout]
    simp only [Option.bind_eq_bind, Option.bind_some, writeFrameDescriptor, o16, Option.pure_def]
    by_cases hdelay : frame.delay < 2 ^ 16
    · rw [if_pos hdelay, if_pos hdelay, Option.bind_some, Option.bind_some]
      cases hchoice with
      | whole => rfl
      | delta hlast hbox =>
        have hright := hbox.right
        have hbottom := hbox.bottom
        have hleft := hbox.left
        have htop := hbox.top
        simp only [writeDeltaDescriptor, o16, Option.bind_eq_bind, Option.pure_def]
        rw [if_pos (by omega), if_pos (by omega), if_pos (by omega), if_pos (by omega)]
        rfl
    · rw [if_neg hdelay, if_neg hdelay]
      rfl
  · rw [hnone]
    rfl

def encodeFrames (info : EncoderInfo) : Option (Image Rgb) → List Frame → Option (List Outputs)
  | _, [] => some []
  | lastFrame, frame :: frames =>
    (compressImage info frame.image lastFrame).bind fun outputs =>
      (encodeFrames info (some frame.image) frames).map (outputs :: ·)

/-- Exactly the small delta frames without run lengths are exceptions. -/
theorem encodeFrames_isSome (hgray : Gray info.format) (lastFrame : Option (Image Rgb))
    (frames : List Frame) : (encodeFrames info lastFrame frames).isSome ↔
      (info.useRle = true ∨ info.useDeltas = false ∨
        (lastFrame.toList ++ frames.map Frame.image).IsChain
          fun last frame => ¬ SmallDelta info frame last) := by
  induction frames generalizing lastFrame with
  | nil => cases lastFrame <;> simp [encodeFrames]
  | cons frame frames ih =>
    have ih := ih (some frame.image)
    rw [encodeFrames]
    rcases compressImage_eq hgray frame.image lastFrame with
      ⟨⟨outputs, hout, -⟩, hok⟩ | ⟨hnone, hrle, hdeltas, last, hlast, hsmall⟩
    · rw [hout, Option.bind_some, Option.isSome_map, ih]
      cases lastFrame with
      | none => simp
      | some last =>
        have hok : ¬ (info.useRle = false ∧ info.useDeltas = true ∧
            SmallDelta info frame.image last) := by simpa using hok
        simp only [Option.toList_some, List.map_cons, List.singleton_append,
          List.isChain_cons_cons]
        grind
    · obtain rfl : lastFrame = some last := hlast
      rw [hnone]
      simp [hrle, hdeltas, hsmall, List.isChain_cons_cons]

def frameBlocks (format : Format) (frames : List Frame) (outputs : List Outputs) :
    List (List UInt8) :=
  List.zipWith (frameBlock format) frames outputs

theorem writeFrames_eq (hgray : Gray info.format) (hw : w < 2 ^ 16) (hh : h < 2 ^ 16)
    {frames : List Frame} (hsize : ∀ f ∈ frames, f.image.width = w ∧ f.image.height = h)
    (lastFrame : Option (Image Rgb)) : writeFrames info lastFrame frames =
      (encodeFrames info lastFrame frames).bind fun outputs =>
        if ∀ f ∈ frames, f.delay < 2 ^ 16 then some (frameBlocks info.format frames outputs)
        else none := by
  induction frames generalizing lastFrame with
  | nil => simp [writeFrames, encodeFrames, frameBlocks]
  | cons frame frames ih =>
    obtain ⟨hframe, hframes⟩ := List.forall_mem_cons.mp hsize
    rw [writeFrames, encodeFrames, ih hframes,
      writeFrame_eq hgray (hframe.1 ▸ hw) (hframe.2 ▸ hh)]
    cases compressImage info frame.image lastFrame with
    | none => rfl
    | some outputs =>
      cases encodeFrames info (some frame.image) frames with
      | none =>
        simp only [Option.bind_eq_bind, Option.bind_some, Option.bind_none, Option.map_none]
        split_ifs <;> rfl
      | some os =>
        simp only [Option.bind_eq_bind, Option.bind_some, Option.map_some, List.forall_mem_cons]
        by_cases hdelay : frame.delay < 2 ^ 16
        · by_cases hdelays : ∀ f ∈ frames, f.delay < 2 ^ 16
          · rw [if_pos hdelay, if_pos hdelays, if_pos ⟨hdelay, hdelays⟩]
            rfl
          · have hboth : ¬ (frame.delay < 2 ^ 16 ∧ ∀ f ∈ frames, f.delay < 2 ^ 16) :=
              fun h => hdelays h.2
            rw [if_pos hdelay, if_neg hdelays, if_neg hboth]
            rfl
        · have hboth : ¬ (frame.delay < 2 ^ 16 ∧ ∀ f ∈ frames, f.delay < 2 ^ 16) :=
            fun h => hdelay h.1
          rw [if_neg hdelay, if_neg hboth]
          rfl

theorem length_encodeFrames {lastFrame : Option (Image Rgb)} {frames : List Frame}
    {outputs : List Outputs} (h : encodeFrames info lastFrame frames = some outputs) :
    outputs.length = frames.length := by
  induction frames generalizing lastFrame outputs with
  | nil =>
    obtain rfl := Option.some.inj h
    rfl
  | cons frame frames ih =>
    obtain ⟨o, -, h⟩ := Option.bind_eq_some_iff.mp h
    obtain ⟨os, hos, rfl⟩ := Option.map_eq_some_iff.mp h
    rw [List.length_cons, List.length_cons, ih hos]

/-- The frame before the `i`-th one. -/
def previous (lastFrame : Option (Image Rgb)) (frames : List Frame) : ℕ → Option (Image Rgb)
  | 0 => lastFrame
  | i + 1 => (frames[i]?).map Frame.image

theorem choice_encodeFrames (hgray : Gray info.format) {lastFrame : Option (Image Rgb)}
    {frames : List Frame} {outputs : List Outputs}
    (h : encodeFrames info lastFrame frames = some outputs) {i : ℕ} {out : Outputs}
    (hframe : frames[i]? = some frame) (hout : outputs[i]? = some out) :
    Choice info frame.image (previous lastFrame frames i) out := by
  induction frames generalizing lastFrame outputs i with
  | nil => cases hframe
  | cons first frames ih =>
    obtain ⟨o, ho, h⟩ := Option.bind_eq_some_iff.mp h
    obtain ⟨os, hos, rfl⟩ := Option.map_eq_some_iff.mp h
    cases i with
    | zero =>
      obtain rfl := Option.some.inj hframe
      obtain rfl := Option.some.inj hout
      rcases compressImage_eq hgray first.image lastFrame with
        ⟨⟨o', ho', hchoice⟩, -⟩ | ⟨hnone, -⟩
      · obtain rfl := Option.some.inj (ho.symm.trans ho')
        exact hchoice
      · rw [ho] at hnone
        cases hnone
    | succ i =>
      have hchoice := ih hos hframe hout
      cases i with
      | zero => exact hchoice
      | succ i => exact hchoice

theorem length_frameBlocks {lastFrame : Option (Image Rgb)} {frames : List Frame}
    {outputs : List Outputs} (h : encodeFrames info lastFrame frames = some outputs) :
    (frameBlocks info.format frames outputs).length = frames.length := by
  rw [frameBlocks, List.length_zipWith, length_encodeFrames h, Nat.min_self]

theorem frameOffsets_le {start : ℕ} {blocks : List (List UInt8)} :
    ∀ offset ∈ frameOffsets start blocks, offset ≤ start + blocks.flatten.length := by
  induction blocks generalizing start with
  | nil => simp [frameOffsets]
  | cons block blocks ih =>
    intro offset hoffset
    rw [List.flatten_cons, List.length_append]
    rcases List.mem_cons.mp hoffset with rfl | hoffset
    · omega
    · have := ih offset hoffset
      omega

theorem length_frameOffsets (start : ℕ) (blocks : List (List UInt8)) :
    (frameOffsets start blocks).length = blocks.length := by
  induction blocks generalizing start with
  | nil => rfl
  | cons block blocks ih => simp [frameOffsets, ih]

theorem writeFrameOffsets_eq {offsets : List ℕ} (h : ∀ offset ∈ offsets, offset < 2 ^ 32) :
    writeFrameOffsets offsets =
      some (writeHeader 1 (offsets.length * 4) ++ offsets.flatMap (leBytes 4)) := by
  have hmap : offsets.mapM o32 = some (offsets.map (leBytes 4)) := by
    induction offsets with
    | nil => rfl
    | cons offset offsets ih =>
      obtain ⟨hoffset, hoffsets⟩ := List.forall_mem_cons.mp h
      rw [List.mapM_cons, ih hoffsets, o32, if_pos hoffset]
      rfl
  rw [writeFrameOffsets, hmap]
  rfl

end Frames

section File

variable {info : EncoderInfo} {frames : List Frame} {file : List UInt8} {outputs : List Outputs}
  {w h : ℕ}

def graphicsBytes (size width height count : ℕ) : List UInt8 :=
  writeHeader 0 18 ++ o24 0x464751 ++ o8 1 ++ leBytes 4 size ++ leBytes 4 (2 ^ 32 - 1 - size) ++
    leBytes 2 width ++ leBytes 2 height ++ leBytes 2 count

theorem writeGraphicsDescriptor_eq {size count : ℕ} (hw : w < 2 ^ 16) (hh : h < 2 ^ 16) :
    writeGraphicsDescriptor size w h count =
      if size < 2 ^ 32 ∧ count < 2 ^ 16 then some (graphicsBytes size w h count) else none := by
  unfold writeGraphicsDescriptor o32 o16
  by_cases hsize : size < 2 ^ 32
  · have hmod : size % 2 ^ 32 = size := Nat.mod_eq_of_lt hsize
    have hneg : 2 ^ 32 - 1 - size < 2 ^ 32 := by omega
    simp only [hmod, if_pos hneg, if_pos hw, if_pos hh, hsize, true_and, if_true,
      Option.bind_eq_bind, Option.bind_some, Option.pure_def]
    split_ifs <;> rfl
  · have hboth : ¬ (size < 2 ^ 32 ∧ count < 2 ^ 16) := fun h => hsize h.1
    rw [if_neg hsize, if_neg hboth]
    rfl

def fileBody (format : Format) (frames : List Frame) (outputs : List Outputs) : List UInt8 :=
  writeHeader 1 (frames.length * 4) ++
    (frameOffsets (23 + 5 + frames.length * 4) (frameBlocks format frames outputs)).flatMap
      (leBytes 4) ++
    (frameBlocks format frames outputs).flatten

theorem length_graphicsBytes (size width height count : ℕ) :
    (graphicsBytes size width height count).length = 23 := by
  simp [graphicsBytes, o8, o24]

theorem length_fileBody (h : encodeFrames info none frames = some outputs) :
    (fileBody info.format frames outputs).length =
      5 + frames.length * 4 + (frameBlocks info.format frames outputs).flatten.length := by
  rw [fileBody, List.length_append, List.length_append, length_writeHeader,
    length_flatMap_const fun offset _ => length_leBytes 4 offset, length_frameOffsets,
    length_frameBlocks h]

structure Saved (info : EncoderInfo) (w h : ℕ) (frames : List Frame) (outputs : List Outputs)
    (file : List UInt8) : Prop where
  gray : Gray info.format
  width_lt : w < 2 ^ 16
  height_lt : h < 2 ^ 16
  size : ∀ f ∈ frames, f.image.width = w ∧ f.image.height = h
  encoded : encodeFrames info none frames = some outputs
  delays : ∀ f ∈ frames, f.delay < 2 ^ 16
  count : frames.length < 2 ^ 16
  length_lt : file.length < 2 ^ 32
  file : file = graphicsBytes file.length w h frames.length ++ fileBody info.format frames outputs

theorem save_eq (hgray : Gray info.format) (hw : w < 2 ^ 16) (hh : h < 2 ^ 16) (hne : frames ≠ [])
    (hsize : ∀ f ∈ frames, f.image.width = w ∧ f.image.height = h) :
    save info frames = some file ↔ ∃ outputs, Saved info w h frames outputs file := by
  obtain ⟨first, rest, rfl⟩ := List.exists_cons_of_ne_nil hne
  obtain ⟨hw', hh'⟩ := hsize first List.mem_cons_self
  have hsame : ∀ f ∈ first :: rest, f.image.width = first.image.width ∧
      f.image.height = first.image.height := fun f hf => by rw [hw', hh']; exact hsize f hf
  unfold save
  dsimp only
  rw [if_pos hsame, writeFrames_eq hgray hw hh hsize none, hw', hh']
  constructor
  · intro hfile
    simp only [Option.bind_eq_bind, Option.bind_eq_some_iff, Option.pure_def, Option.some.injEq,
      Option.ite_none_right_eq_some, writeGraphicsDescriptor_eq hw hh] at hfile
    obtain ⟨blocks, ⟨outputs, hencoded, hdelays, rfl⟩, _, ⟨⟨hlen, hcount⟩, rfl⟩, offsets, hoffsets,
      rfl⟩ := hfile
    rw [writeFrameOffsets_eq fun offset ho => (frameOffsets_le offset ho).trans_lt hlen,
      length_frameOffsets, length_frameBlocks hencoded] at hoffsets
    obtain rfl := Option.some.inj hoffsets
    have htotal : ∀ size, (graphicsBytes size w h (first :: rest).length ++
        fileBody info.format (first :: rest) outputs).length = 23 + 5 + (first :: rest).length * 4 +
          (frameBlocks info.format (first :: rest) outputs).flatten.length := by
      intro size
      rw [List.length_append, length_graphicsBytes, length_fileBody hencoded]
      omega
    rw [List.append_assoc]
    refine ⟨outputs, hgray, hw, hh, hsize, hencoded, hdelays, hcount, ?_, ?_⟩
    · exact (htotal _).trans_lt hlen
    · exact congrArg (graphicsBytes · w h _ ++ _) (htotal _).symm
  · rintro ⟨outputs, hsaved⟩
    have hbody := length_fileBody hsaved.encoded
    have hlen := congrArg List.length hsaved.file
    rw [List.length_append, length_graphicsBytes, hbody] at hlen
    have hlt := hsaved.length_lt
    have htotal : 23 + 5 + (first :: rest).length * 4 +
        (frameBlocks info.format (first :: rest) outputs).flatten.length = file.length := by omega
    simp only [Option.bind_eq_bind, Option.pure_def, hsaved.encoded, Option.bind_some,
      if_pos hsaved.delays, htotal, writeGraphicsDescriptor_eq hw hh,
      if_pos (And.intro hlt hsaved.count)]
    rw [writeFrameOffsets_eq fun offset ho => (frameOffsets_le offset ho).trans_lt
      (htotal.trans_lt hlt), length_frameOffsets, length_frameBlocks hsaved.encoded]
    exact congrArg some (by rw [List.append_assoc]; exact hsaved.file.symm)

end File

section Sizes

variable {info : EncoderInfo} {frames : List Frame} {file : List UInt8} {outputs : List Outputs}
  {w h : ℕ}

def dataSize (info : EncoderInfo) (im : Image Rgb) : ℕ :=
  match convertImageBytes info.format (converted info im) with
  | some raw => if info.useRle then min raw.length (compressBytesQmkRle raw).length else raw.length
  | none => 0

def frameSize (info : EncoderInfo) (frame : Image Rgb) (lastFrame : Option (Image Rgb)) : ℕ :=
  match if info.useDeltas then lastFrame.bind (differenceBox frame) else none with
  | none => 16 + dataSize info frame
  | some bbox =>
    let delta := dataSize info (frame.crop bbox.left bbox.top bbox.right bbox.bottom)
    if delta + 8 < dataSize info frame then 29 + delta else 16 + dataSize info frame

def framesSize (info : EncoderInfo) : Option (Image Rgb) → List Frame → ℕ
  | _, [] => 0
  | lastFrame, frame :: frames =>
    frameSize info frame.image lastFrame + framesSize info (some frame.image) frames

def fileSize (info : EncoderInfo) (frames : List Frame) : ℕ :=
  28 + frames.length * 4 + framesSize info none frames

theorem length_toBytes {l : List ℕ} {bytes : List UInt8} (h : toBytes l = some bytes) :
    bytes.length = l.length := by
  induction l generalizing bytes with
  | nil =>
    obtain rfl := Option.some.inj h
    rfl
  | cons n l ih =>
    rw [toBytes, List.mapM_cons] at h
    obtain ⟨c, -, h⟩ := Option.bind_eq_some_iff.mp h
    obtain ⟨cs, hcs, h⟩ := Option.bind_eq_some_iff.mp h
    obtain rfl := Option.some.inj h
    rw [List.length_cons, List.length_cons, ih hcs]

theorem length_imageData {im : Image Rgb} {data : GraphicData}
    (h : graphicData info im = some data) : data.imageData.length = dataSize info im := by
  obtain ⟨raw, hraw, h⟩ := Option.bind_eq_some_iff.mp h
  unfold dataSize
  rw [show convertImageBytes info.format (converted info im) = some raw from hraw]
  dsimp only
  split_ifs at h ⊢ with hrle
  · obtain ⟨rle, hencoded, h⟩ := Option.bind_eq_some_iff.mp h
    obtain rfl := Option.some.inj h
    rw [← length_toBytes hencoded]
    simp only [GraphicData.imageData]
    split_ifs <;> omega
  · obtain rfl := Option.some.inj h
    rfl

theorem length_frameBlock {frame : Frame} {lastFrame : Option (Image Rgb)} {out : Outputs}
    (h : compressImage info frame.image lastFrame = some out) :
    (frameBlock info.format frame out).length = frameSize info frame.image lastFrame := by
  obtain ⟨data, hdata, h⟩ := Option.bind_eq_some_iff.mp h
  have hlen := length_imageData hdata
  have hblock : ∀ o : Outputs, (frameBlock info.format frame o).length =
      16 + (deltaBlock o).length + o.imageData.length := by
    intro o
    simp only [frameBlock, frameHead, List.length_append, length_writeHeader, o8, length_leBytes]
    omega
  obtain ⟨box, hbox⟩ : ∃ box, (if info.useDeltas = true then
      lastFrame.bind (differenceBox frame.image) else none) = box := ⟨_, rfl⟩
  unfold frameSize
  dsimp only at h
  rw [hbox] at h ⊢
  rw [hblock]
  cases box with
  | none =>
    obtain rfl := Option.some.inj h
    rw [← hlen]
    rfl
  | some bbox =>
    obtain ⟨delta, hdelta, h⟩ := Option.bind_eq_some_iff.mp h
    dsimp only
    rw [← hlen, ← length_imageData hdelta]
    split_ifs at h ⊢
    · obtain ⟨_, -, h⟩ := Option.bind_eq_some_iff.mp h
      obtain rfl := Option.some.inj h
      simp only [deltaBlock, List.length_append, length_writeHeader, length_leBytes]
    · obtain rfl := Option.some.inj h
      rfl

theorem length_frames {lastFrame : Option (Image Rgb)}
    (h : encodeFrames info lastFrame frames = some outputs) :
    (frameBlocks info.format frames outputs).flatten.length = framesSize info lastFrame frames := by
  induction frames generalizing lastFrame outputs with
  | nil => rfl
  | cons frame frames ih =>
    obtain ⟨o, ho, h⟩ := Option.bind_eq_some_iff.mp h
    obtain ⟨os, hos, rfl⟩ := Option.map_eq_some_iff.mp h
    have htail := ih hos
    rw [framesSize, ← htail, ← length_frameBlock ho, ← List.length_append]
    rfl

theorem Saved.length_eq (hs : Saved info w h frames outputs file) :
    file.length = fileSize info frames := by
  have hlen := congrArg List.length hs.file
  rw [List.length_append, length_graphicsBytes, length_fileBody hs.encoded,
    length_frames hs.encoded] at hlen
  rw [fileSize]
  omega

end Sizes

end Qmk.Painter.Qgf
