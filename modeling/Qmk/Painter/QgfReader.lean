import Qmk.Painter.QgfEncoder

/-! # Reading a graphics file back

The blocks of a file that was written are found, read and validated, as long as the size of
the file fits into the length of a stream.
-/

namespace Qmk.Painter.Qgf

section Descriptor

variable {size width height count : ℕ} {s t : MemoryStream} {rest : List UInt8}

theorem readGraphicsDescriptor_eq (hsize : size < 2 ^ 32) (hw : width < 2 ^ 16)
    (hh : height < 2 ^ 16) (hcount : count < 2 ^ 16) (hpos : (s.setpos 0).2 = t)
    (ht : t.Holds (graphicsBytes size width height count ++ rest)) :
    readGraphicsDescriptor s = (some ⟨width, height, count, size⟩, t.advance 23) := by
  have hlen := length_graphicsBytes size width height count
  have hheader : validateBlockHeader (blockHeader (graphicsBytes size width height count)) 0 18 =
      true := by
    rw [graphicsBytes]
    simp only [List.append_assoc]
    exact (validateBlockHeader_writeHeader (by decide) 18 18 _).mpr (by decide)
  have hmod : size % 2 ^ 32 = size := Nat.mod_eq_of_lt hsize
  have hneg : (2 ^ 32 - 1 - size) % 2 ^ 32 = 2 ^ 32 - 1 - size := Nat.mod_eq_of_lt (by omega)
  have hwmod : width % 2 ^ 16 = width := Nat.mod_eq_of_lt hw
  have hhmod : height % 2 ^ 16 = height := Nat.mod_eq_of_lt hh
  have hcmod : count % 2 ^ 16 = count := Nat.mod_eq_of_lt hcount
  simp only [readGraphicsDescriptor, hpos, readStruct_holds ht hlen, hheader, true_and]
  simp only [Nat.reducePow, Nat.reduceSub] at hmod hneg hwmod hhmod hcmod
  simp [graphicsBytes, writeHeader, o8, o24, List.append_assoc, field_leBytes, field_self,
    field_append, hmod, hneg, hwmod, hhmod, hcmod]

end Descriptor

section Offsets

variable {info : EncoderInfo} {frames : List Frame} {outputs : List Outputs} {file : List UInt8}
  {w h i : ℕ} {s : MemoryStream} {frame : Frame} {out : Outputs}

theorem Saved.readGraphicsDescriptor (hs : Saved info w h frames outputs file)
    (hsize : file.length < 2 ^ 31) (hf : MemoryStream.ReadsFrom file s) :
    readGraphicsDescriptor s =
      (some ⟨w, h, frames.length, file.length⟩, MemoryStream.ofFile file 23) :=
  readGraphicsDescriptor_eq hs.length_lt hs.width_lt hs.height_lt hs.count
    (t := MemoryStream.ofFile file 0) (by rw [hf.setpos (Nat.zero_le _) hsize])
    (MemoryStream.holds_ofFile (a := []) hs.file rfl)

def framesStart (frames : List Frame) : ℕ := 23 + 5 + frames.length * 4

def frameStart (format : Format) (frames : List Frame) (outputs : List Outputs) (i : ℕ) : ℕ :=
  framesStart frames + ((frameBlocks format frames outputs).take i).flatten.length

theorem getElem?_frameOffsets {start : ℕ} {blocks : List (List UInt8)} (hi : i < blocks.length) :
    (frameOffsets start blocks)[i]? = some (start + (blocks.take i).flatten.length) := by
  induction blocks generalizing start i with
  | nil => simp at hi
  | cons block blocks ih =>
    cases i with
    | zero => simp [frameOffsets]
    | succ i =>
      rw [frameOffsets, List.getElem?_cons_succ, ih (by simpa using hi), List.take_succ_cons,
        List.flatten_cons, List.length_append, Nat.add_assoc]

theorem Saved.holds_offset (hs : Saved info w h frames outputs file) (hi : i < frames.length) :
    ∃ rest, (MemoryStream.ofFile file (23 + 5 + i * 4)).Holds
      (leBytes 4 (frameStart info.format frames outputs i) ++ rest) := by
  have hoffset : (frameOffsets (framesStart frames) (frameBlocks info.format frames outputs))[i]? =
      some (frameStart info.format frames outputs i) :=
    getElem?_frameOffsets (hi.trans_eq (length_frameBlocks hs.encoded).symm)
  have hsplit : file = graphicsBytes file.length w h frames.length ++
      writeHeader 1 (frames.length * 4) ++
        ((frameOffsets (framesStart frames) (frameBlocks info.format frames outputs)).flatMap
          (leBytes 4) ++ (frameBlocks info.format frames outputs).flatten) := by
    have hfile := hs.file
    rw [fileBody, List.append_assoc, ← List.append_assoc (graphicsBytes _ _ _ _)] at hfile
    exact hfile
  have hholds := holds_piece (fun offset _ => length_leBytes 4 offset) hsplit hoffset
  rwa [List.length_append, length_graphicsBytes, length_writeHeader] at hholds

theorem Saved.file_eq (hs : Saved info w h frames outputs file) : ∃ a,
    file = a ++ (frameBlocks info.format frames outputs).flatten ∧
      a.length = framesStart frames := by
  refine ⟨_, hs.file.trans (List.append_assoc _ _ _).symm, ?_⟩
  rw [List.length_append, List.length_append, length_graphicsBytes, length_writeHeader,
    length_flatMap_const fun offset _ => length_leBytes 4 offset, length_frameOffsets,
    length_frameBlocks hs.encoded, framesStart]
  omega

theorem Saved.frameStart_le (hs : Saved info w h frames outputs file) :
    frameStart info.format frames outputs i ≤ file.length := by
  obtain ⟨a, hfile, ha⟩ := hs.file_eq
  have hlen := congrArg List.length hfile
  have htake := congrArg (fun blocks => blocks.flatten.length)
    (List.take_append_drop i (frameBlocks info.format frames outputs))
  simp only [List.flatten_append, List.length_append] at htake
  rw [List.length_append, ha] at hlen
  rw [frameStart]
  omega

theorem Saved.readFrameOffset (hs : Saved info w h frames outputs file) (hi : i < frames.length)
    (hsize : file.length < 2 ^ 31) (hf : MemoryStream.ReadsFrom file s) :
    ∃ q, readFrameOffset i s =
      (some (frameStart info.format frames outputs i), MemoryStream.ofFile file q) := by
  have hcount := hs.count
  have hheader : (MemoryStream.ofFile file 23).Holds (writeHeader 1 (frames.length * 4) ++ _) :=
    MemoryStream.holds_ofFile (a := graphicsBytes file.length w h frames.length)
      (by rw [← List.append_assoc, ← List.append_assoc]; exact hs.file)
      (length_graphicsBytes _ _ _ _)
  have hvalid : validateBlockHeader (blockHeader (writeHeader 1 (frames.length * 4))) 1
      (frames.length * 4 : ℕ) = true := by
    have hmod : frames.length * 4 % 2 ^ 24 = frames.length * 4 := Nat.mod_eq_of_lt (by omega)
    have := validateBlockHeader_writeHeader (by decide : 1 < 256) (frames.length * 4)
      (frames.length * 4 : ℕ) []
    rw [List.append_nil] at this
    exact this.mpr (.inr (by rw [hmod]))
  have hinside : 23 + 5 + i * 4 ≤ file.length := by
    have := hs.frameStart_le (i := 0)
    rw [frameStart, framesStart] at this
    omega
  obtain ⟨rest, hoffset⟩ := hs.holds_offset hi
  have hsmall := hs.frameStart_le (i := i)
  have hmod : frameStart info.format frames outputs i % 256 ^ 4 =
      frameStart info.format frames outputs i := Nat.mod_eq_of_lt (by omega)
  refine ⟨23 + 5 + i * 4 + 4, ?_⟩
  simp only [Qgf.readFrameOffset, hs.readGraphicsDescriptor hsize hf,
    readStruct_holds hheader (length_writeHeader _ _), hvalid, hi, and_self, if_true,
    MemoryStream.ofFile_advance, MemoryStream.seek_cur_ofFile hinside,
    readStruct_holds hoffset (length_leBytes _ _), Option.map_some, leNat_leBytes, hmod]

theorem Saved.seekToFrameDescriptor (hs : Saved info w h frames outputs file)
    (hi : i < frames.length) (hsize : file.length < 2 ^ 31) (hf : MemoryStream.ReadsFrom file s) :
    seekToFrameDescriptor i s =
      MemoryStream.ofFile file (frameStart info.format frames outputs i) := by
  obtain ⟨q, hoffset⟩ := hs.readFrameOffset hi hsize hf
  simp only [Qgf.seekToFrameDescriptor, hoffset, Option.getD_some,
    MemoryStream.setpos_ofFile hs.frameStart_le hsize]

theorem Saved.holds_frame (hs : Saved info w h frames outputs file)
    (hframe : frames[i]? = some frame) (hout : outputs[i]? = some out) :
    (MemoryStream.ofFile file (frameStart info.format frames outputs i)).Holds
      (frameBlock info.format frame out ++
        ((frameBlocks info.format frames outputs).drop (i + 1)).flatten) := by
  obtain ⟨a, hfile, ha⟩ := hs.file_eq
  have hblock : (frameBlocks info.format frames outputs)[i]? =
      some (frameBlock info.format frame out) := by
    rw [frameBlocks, List.getElem?_zipWith, hframe, hout]
  obtain ⟨hlt, hblock⟩ := List.getElem?_eq_some_iff.mp hblock
  have hsplit := List.take_append_drop i (frameBlocks info.format frames outputs)
  rw [List.drop_eq_getElem_cons hlt, hblock] at hsplit
  apply MemoryStream.holds_ofFile
    (a := a ++ ((frameBlocks info.format frames outputs).take i).flatten)
  · rw [List.append_assoc, ← List.flatten_cons, ← List.flatten_append, hsplit]
    exact hfile
  · rw [List.length_append, ha, frameStart]

end Offsets

section Frames

variable {info : EncoderInfo} {format : Format} {frames : List Frame} {outputs : List Outputs}
  {file rest : List UInt8} {w h i : ℕ} {s : MemoryStream} {frame : Frame} {out : Outputs}

@[simp] theorem length_frameHead : (frameHead format frame out).length = 11 := by
  simp [frameHead, o8]

def frameInfo (format : Format) (frame : Frame) (out : Outputs) : FrameInfo where
  compressionScheme := if out.useRaw then 0 else 1
  bpp := format.bpp
  isDelta := out.delta.isSome
  delay := frame.delay

def deltaInfo (out : Outputs) (frameInfo : FrameInfo) : FrameInfo :=
  match out.delta with
  | some bbox => { frameInfo with
      left := bbox.left, top := bbox.top, right := bbox.right, bottom := bbox.bottom }
  | none => frameInfo

theorem parseFrameDescriptor_eq (hgray : Gray format) (hdelay : frame.delay < 2 ^ 16) :
    parseFrameDescriptor (frameHead format frame out) = frameInfo format frame out := by
  have hmod : frame.delay % 2 ^ 16 = frame.delay := Nat.mod_eq_of_lt hdelay
  have hbyte : format.imageFormatByte.toNat % 256 = format.imageFormatByte.toNat :=
    Nat.mod_eq_of_lt format.imageFormatByte.toNat_lt
  have hformat := hgray.parseFormat
  simp only [Nat.reducePow] at hmod
  cases hdelta : out.delta <;> cases hraw : out.useRaw <;>
    simp [parseFrameDescriptor, frameInfo, frameHead, writeHeader, o8, o24, List.append_assoc,
      field_leBytes, field_self, field_append, hmod, hbyte, hformat, hdelta, hraw]

theorem validateBlockHeader_frameHead :
    validateBlockHeader (blockHeader (frameHead format frame out)) 2 6 = true := by
  rw [frameHead]
  simp only [List.append_assoc]
  exact (validateBlockHeader_writeHeader (by decide) 6 6 _).mpr (by decide)

theorem Saved.readHead (hs : Saved info w h frames outputs file)
    (hframe : frames[i]? = some frame) (hout : outputs[i]? = some out)
    (hsize : file.length < 2 ^ 31) (hf : MemoryStream.ReadsFrom file s) : ∃ p,
      readStruct 11 (Qgf.seekToFrameDescriptor i s) =
          (some (frameHead info.format frame out), MemoryStream.ofFile file p) ∧
        (MemoryStream.ofFile file p).Holds
          (deltaBlock out ++ (writeHeader 5 out.imageData.length ++ (out.imageData ++
            ((frameBlocks info.format frames outputs).drop (i + 1)).flatten))) := by
  have hholds := hs.holds_frame hframe hout
  simp only [frameBlock, List.append_assoc] at hholds
  have hlen : (frameHead info.format frame out).length = 11 := length_frameHead
  have hnext := MemoryStream.Holds.advance hholds
  rw [hlen] at hnext
  rw [hs.seekToFrameDescriptor (List.getElem?_eq_some_iff.mp hframe).1 hsize hf,
    readStruct_holds hholds hlen]
  exact ⟨_, rfl, hnext⟩

def BoxFits (out : Outputs) : Prop :=
  ∀ bbox ∈ out.delta, bbox.left < 2 ^ 16 ∧ bbox.top < 2 ^ 16 ∧ bbox.right < 2 ^ 16 ∧
    bbox.bottom < 2 ^ 16

theorem readDelta_eq {frameInfo : FrameInfo} (hfits : BoxFits out)
    (hdelta : frameInfo.isDelta = out.delta.isSome) (hholds : s.Holds (deltaBlock out ++ rest)) :
    readDelta frameInfo s =
      (some (deltaInfo out frameInfo), s.advance (deltaBlock out).length) := by
  unfold readDelta
  rw [hdelta]
  cases hbox : out.delta with
  | none => simp [deltaInfo, deltaBlock, hbox]
  | some bbox =>
    obtain ⟨hleft, htop, hright, hbottom⟩ := hfits bbox hbox
    have hlen : (deltaBlock out).length = 13 := by simp [deltaBlock, hbox]
    have hl : bbox.left % 2 ^ 16 = bbox.left := Nat.mod_eq_of_lt hleft
    have ht : bbox.top % 2 ^ 16 = bbox.top := Nat.mod_eq_of_lt htop
    have hr : bbox.right % 2 ^ 16 = bbox.right := Nat.mod_eq_of_lt hright
    have hb : bbox.bottom % 2 ^ 16 = bbox.bottom := Nat.mod_eq_of_lt hbottom
    simp only [Nat.reducePow] at hl ht hr hb
    have hdelta : frameInfo.isDelta = true := by rw [hdelta, hbox]; rfl
    rw [if_pos (by rfl), readStruct_holds hholds hlen, hlen]
    simp [deltaInfo, deltaBlock, hbox, hdelta, field_append, field_leBytes, field_self, hl, ht, hr,
      hb]

theorem validateDeltaDescriptor_eq (hbox : out.delta.isSome)
    (hholds : s.Holds (deltaBlock out ++ rest)) :
    validateDeltaDescriptor s = (true, s.advance (deltaBlock out).length) := by
  obtain ⟨bbox, hbox⟩ := Option.isSome_iff_exists.mp hbox
  have hlen : (deltaBlock out).length = 13 := by simp [deltaBlock, hbox]
  have hvalid : validateBlockHeader (blockHeader (deltaBlock out)) 4 8 = true := by
    simp only [deltaBlock, hbox, List.append_assoc]
    exact (validateBlockHeader_writeHeader (by decide) 8 8 _).mpr (by decide)
  simp only [validateDeltaDescriptor, readStruct_holds hholds hlen, hvalid, hlen]

theorem Saved.validateFrame (hs : Saved info w h frames outputs file) (hi : i < frames.length)
    (hsize : file.length < 2 ^ 31) (hf : MemoryStream.ReadsFrom file s) :
    ∃ p, validateFrame i s = (true, MemoryStream.ofFile file p) := by
  obtain ⟨frame, hframe⟩ : ∃ frame, frames[i]? = some frame := ⟨_, List.getElem?_eq_getElem hi⟩
  obtain ⟨out, hout⟩ : ∃ out, outputs[i]? = some out :=
    ⟨_, List.getElem?_eq_getElem (hi.trans_eq (length_encodeFrames hs.encoded).symm)⟩
  obtain ⟨p, hread, hholds⟩ := hs.readHead hframe hout hsize hf
  have hparse := @parseFrameDescriptor_eq info.format frame out hs.gray
    (hs.delays _ (List.mem_of_getElem? hframe))
  have hdata := MemoryStream.Holds.advance hholds
  rw [MemoryStream.ofFile_advance] at hdata
  have hvalid := (validateBlockHeader_writeHeader (by decide : 5 < 256) out.imageData.length (-1)
    []).mpr (.inl (by decide))
  rw [List.append_nil] at hvalid
  have hdelta : (if (frameInfo info.format frame out).isDelta then
      validateDeltaDescriptor (MemoryStream.ofFile file p)
        else (true, MemoryStream.ofFile file p)) =
          (true, MemoryStream.ofFile file (p + (deltaBlock out).length)) := by
    cases hbox : out.delta with
    | none => simp [frameInfo, deltaBlock, hbox]
    | some bbox =>
      rw [frameInfo, hbox, if_pos (by rfl)]
      exact validateDeltaDescriptor_eq (by rw [hbox]; rfl) hholds
  have hpalette : (frameInfo info.format frame out).hasPalette = false := rfl
  refine ⟨p + (deltaBlock out).length + 5, ?_⟩
  have hhead : validateFrameDescriptor i s =
      (some (frameInfo info.format frame out), MemoryStream.ofFile file p) := by
    unfold validateFrameDescriptor
    dsimp only
    rw [hread]
    dsimp only
    rw [if_pos validateBlockHeader_frameHead, hparse]
  have htail : validateFrameDataDescriptor
      (MemoryStream.ofFile file (p + (deltaBlock out).length)) =
        (true, MemoryStream.ofFile file (p + (deltaBlock out).length + 5)) := by
    simp only [validateFrameDataDescriptor, readStruct_holds hdata (length_writeHeader _ _), hvalid,
      MemoryStream.ofFile_advance]
  unfold Qgf.validateFrame
  simp only [hhead, hpalette, Bool.false_eq_true, if_false, if_true, hdelta, htail]

theorem Saved.validateFrames (hs : Saved info w h frames outputs file)
    (hsize : file.length < 2 ^ 31) {is : List ℕ} (his : ∀ i ∈ is, i < frames.length)
    (hf : MemoryStream.ReadsFrom file s) :
    ∃ t, validateFrames is s = (true, t) ∧ MemoryStream.ReadsFrom file t := by
  induction is generalizing s with
  | nil => exact ⟨s, rfl, hf⟩
  | cons i is ih =>
    obtain ⟨hi, his⟩ := List.forall_mem_cons.mp his
    obtain ⟨p, hframe⟩ := hs.validateFrame hi hsize hf
    simp only [Qgf.validateFrames, hframe, if_true]
    exact ih his (MemoryStream.readsFrom_ofFile file p)

theorem Saved.validateStream (hs : Saved info w h frames outputs file)
    (hsize : file.length < 2 ^ 31) (hf : MemoryStream.ReadsFrom file s) :
    ∃ t, validateStream s = (true, t) ∧ MemoryStream.ReadsFrom file t := by
  unfold Qgf.validateStream
  simp only [hs.readGraphicsDescriptor hsize hf]
  exact hs.validateFrames hsize (fun i hi => List.mem_range.mp hi)
    (MemoryStream.readsFrom_ofFile file 23)

end Frames

section Loading

variable {info : EncoderInfo} {frames : List Frame} {outputs : List Outputs} {file : List UInt8}
  {w h : ℕ}

theorem Saved.getTotalSize (hs : Saved info w h frames outputs file) :
    getTotalSize (.make file 23) = (file.length, .make file 23) := by
  have hpos : ((MemoryStream.make file 23).setpos 0).2 = .make file 23 := rfl
  have hholds : (MemoryStream.make file 23).Holds
      (graphicsBytes file.length w h frames.length ++ []) := by
    refine ⟨?_, fileBody info.format frames outputs, by
      rw [List.append_nil, ← hs.file]
      rfl⟩
    rw [List.append_nil, length_graphicsBytes]
    rfl
  rw [Qgf.getTotalSize, readGraphicsDescriptor_eq hs.length_lt hs.width_lt hs.height_lt hs.count
    hpos hholds]
  rfl

theorem Saved.loadImageMem_large (hs : Saved info w h frames outputs file)
    (hsize : 2 ^ 31 ≤ file.length) : loadImageMem file = none := by
  have hneg := MemoryStream.toInt_of_ge hsize hs.length_lt
  have hvalid : ∀ s : MemoryStream, s.length < 0 → (Qgf.validateStream s).1 = false := by
    intro s hs
    simp only [Qgf.validateStream, Qgf.readGraphicsDescriptor, readStruct_negative hs 0]
  unfold loadImageMem
  simp only [hs.getTotalSize]
  rw [hvalid _ hneg]
  exact if_neg (by decide)

def handle (w h : ℕ) (frames : List Frame) (file : List UInt8) : ImageHandle where
  width := w
  height := h
  frameCount := frames.length
  stream := .ofFile file 23

theorem Saved.loadImageMem (hs : Saved info w h frames outputs file)
    (hsize : file.length < 2 ^ 31) : loadImageMem file = some (handle w h frames file) := by
  have hstream : ({ MemoryStream.make file 23 with
      length := (BitVec.ofNat 32 file.length).toInt, position := 0 } : MemoryStream) =
        .ofFile file 0 := by
    rw [MemoryStream.toInt_of_lt hsize]
    rfl
  obtain ⟨t, hvalid, ht⟩ := hs.validateStream hsize (MemoryStream.readsFrom_ofFile file 0)
  unfold Qgf.loadImageMem
  simp only [hs.getTotalSize]
  rw [hstream]
  simp only [hvalid, hs.readGraphicsDescriptor hsize ht, Option.getD_some]
  rfl

end Loading

end Qmk.Painter.Qgf
