import Qmk.Painter.Surface

/-! # Truncated image data

The decoders of `qp_draw_codec.c` on a stream that ends too early. Without compression the end is
reported. The decoder of the run-length encoding takes the end for a byte, which is then drawn.
-/

namespace Qmk.Painter

inductive Compression
  | uncompressed | rle
  deriving DecidableEq

/-- The decoder that `qp_internal_prepare_input_state` chooses. -/
def Compression.decoder : Compression → ByteInput → Option UInt8 × ByteInput
  | uncompressed => byteUncompressedDecoder
  | rle => byteRleDecoder

/-- What comes next in a stream of blocks: a marker, one more byte than `n` of a range, or the byte
of a run of `n`. -/
inductive Expected
  | marker
  | range (n : ℕ)
  | run (n : ℕ)

/-- What a marker announces. A run of none is one of 256, as the counter wraps around. -/
def Expected.ofMarker (c : UInt8) : Expected :=
  if 128 ≤ c then range (c.toNat - 128) else run (if c = 0 then 256 else c.toNat)

/-- The bytes that the blocks of a stream stand for, up to the end of the stream. -/
def expand : Expected → List UInt8 → List UInt8
  | _, [] => []
  | .marker, c :: bytes => expand (.ofMarker c) bytes
  | .range n, c :: bytes => c :: expand (if n = 0 then .marker else .range (n - 1)) bytes
  | .run n, c :: bytes => List.replicate n c ++ expand .marker bytes

/-- The bytes that can be decoded of those of a stream. -/
def Compression.available : Compression → List UInt8 → List UInt8
  | uncompressed, bytes => bytes
  | rle, bytes => expand .marker bytes

section Model

variable {σ τ δ : Type*}

def logged (input : σ → Option UInt8 × σ) (s : σ × List UInt8) : Option UInt8 × σ × List UInt8 :=
  ((input s.1).1, (input s.1).2, s.2 ++ (input s.1).1.toList)

def sendBytes (input : σ → Option UInt8 × σ) (output : UInt8 → τ → Bool × τ) :
    ℕ → σ → τ → Bool × σ × τ
  | 0, s, t => (true, s, t)
  | remaining + 1, s, t =>
    match input s with
    | (none, s) => (false, s, t)
    | (some byteval, s) =>
      let r := output byteval t
      if r.1 then sendBytes input output remaining s r.2 else (false, s, r.2)

/-- The functions of a `painter_driver_t` that images are appended with, on a device with its
buffer and the palette, and `qp_internal_num_pixels_in_buffer`. -/
structure Driver (δ : Type*) where
  appendPixels : ℕ → UInt8 → δ → Bool × δ
  appendPixdata : ℕ → UInt8 → δ → Bool × δ
  pixdata : ℕ → δ → Bool × δ
  nativeBitsPerPixel : ℕ
  numPixelsInBuffer : ℕ

/-- `qp_internal_pixel_output_state_t` and `qp_internal_byte_output_state_t`. -/
structure Output (δ : Type*) where
  device : δ
  writePos : ℕ := 0

namespace Driver

variable (driver : Driver δ)

/-- One of the appenders: `append` into the buffer, which is sent when it has reached its limit as
so many pixels as `count` tells. -/
def appendOne (append : ℕ → UInt8 → δ → Bool × δ) (limit : ℕ) (count : ℕ → ℕ) (b : UInt8)
    (t : Output δ) : Bool × Output δ :=
  let r := append t.writePos b t.device
  let writePos := t.writePos + 1
  if ¬ r.1 then (false, ⟨r.2, writePos⟩)
  else if writePos = limit then
    let sent := driver.pixdata (count writePos) r.2
    if ¬ sent.1 then (false, ⟨sent.2, writePos⟩) else (true, ⟨sent.2, 0⟩)
  else (true, ⟨r.2, writePos⟩)

def pixelAppender : UInt8 → Output δ → Bool × Output δ :=
  driver.appendOne driver.appendPixels driver.numPixelsInBuffer id

def nativePixels (writePos : ℕ) : ℕ := writePos * 8 / driver.nativeBitsPerPixel

def byteAppender : UInt8 → Output δ → Bool × Output δ :=
  driver.appendOne driver.appendPixdata
    (driver.numPixelsInBuffer * driver.nativeBitsPerPixel / 8) driver.nativePixels

def flush (count : ℕ → ℕ) (t : Output δ) : Bool × δ :=
  if 0 < t.writePos then driver.pixdata (count t.writePos) t.device else (true, t.device)

/-- `byte_count`, where the product has 32 bits. -/
def byteCount (bpp pixelCount : ℕ) : ℕ := pixelCount * bpp % 2 ^ 32 / 8

def appender (input : σ → Option UInt8 × σ) (bpp pixelCount : ℕ) (s : σ) (d : δ) : Bool × σ × δ :=
  if bpp ≤ 8 then
    let r := decodePalette input driver.pixelAppender bpp pixelCount s ⟨d, 0⟩
    if r.1 then ((driver.flush id r.2.2).1, r.2.1, (driver.flush id r.2.2).2)
    else (false, r.2.1, r.2.2.device)
  else if bpp ≠ driver.nativeBitsPerPixel then (false, s, d)
  else
    let r := sendBytes input driver.byteAppender (byteCount bpp pixelCount) s ⟨d, 0⟩
    if r.1 then
      ((driver.flush driver.nativePixels r.2.2).1, r.2.1,
        (driver.flush driver.nativePixels r.2.2).2)
    else (false, r.2.1, r.2.2.device)

end Driver

/-- The bytes of so many pixels. -/
def neededBytes (bpp pixelCount : ℕ) : ℕ :=
  if bpp ≤ 8 then packedCount (8 / bpp) pixelCount else pixelCount * bpp / 8

/-- What is promised of bytes that are too few: it is reported that they are, and no others are
used. -/
structure Reported (available : List UInt8) (needed : ℕ) (ok : Bool) (used : List UInt8) :
    Prop where
  fails : available.length < needed → ok = false
  used_prefix : used <+: available

/-- All pixels of some bytes one after the other, until one fails. -/
def outputBytes (output : UInt8 → τ → Bool × τ) (bitsPerPixel : ℕ) : List UInt8 → τ → Bool × τ
  | [], t => (true, t)
  | b :: bytes, t =>
    let r := outputPixels output bitsPerPixel (8 / bitsPerPixel) b.toNat t
    if r.1 then outputBytes output bitsPerPixel bytes r.2 else r

end Model

section Loops

variable {σ τ : Type*} {input : σ → Option UInt8 × σ} {output : UInt8 → τ → Bool × τ}
  {available log : List UInt8} {s : σ} {t : τ} {bits bound remaining : ℕ}

theorem outputPixels_byte (b : UInt8) (t : τ) : outputPixels output 8 1 b.toNat t = output b t := by
  have hb : UInt8.ofNat (b.toNat &&& (2 ^ 8 - 1)) = b := by
    rw [Nat.and_two_pow_sub_one_of_lt_two_pow b.toNat_lt]
    exact UInt8.ofNat_toNat
  simp only [outputPixels, hb]
  rcases output b t with ⟨ok, t'⟩
  cases ok <;> rfl

theorem sendBytes_eq (hbound : remaining ≤ bound) : sendBytes input output remaining s t =
    decodePaletteLoop input output 8 bound remaining s t := by
  induction remaining generalizing s t bound with
  | zero => cases bound <;> rfl
  | succ remaining ih =>
    obtain ⟨bound, rfl⟩ : ∃ k, bound = k + 1 := ⟨bound - 1, by omega⟩
    rw [sendBytes, decodePaletteLoop, if_neg (Nat.succ_ne_zero remaining)]
    rcases input s with ⟨c, s'⟩
    cases c with
    | none => rfl
    | some b =>
      have hone : min (remaining + 1) (8 / 8) = 1 := by omega
      simp only [hone, outputPixels_byte, Nat.add_sub_cancel, ih (Nat.le_of_succ_le_succ hbound)]

theorem outputBytes_eight (bytes : List UInt8) (t : τ) :
    outputBytes output 8 bytes t = outputAll output bytes t := by
  induction bytes generalizing t with
  | nil => rfl
  | cons b bytes ih =>
    simp only [outputBytes, outputAll, ← ih]
    rw [show 8 / 8 = 1 from rfl, outputPixels_byte]

/-- A loop for which there are enough bytes uses only these. The induction is on the bytes. -/
theorem loop_used (hserves : (pull input available.length s).1 = available.map some)
    (hneed : remaining ≤ available.length * (8 / bits)) :
    (decodePaletteLoop (logged input) output bits bound remaining (s, log) t).2.1.2 <+:
      log ++ available := by
  induction available generalizing s log t bound remaining with
  | nil =>
    obtain rfl : remaining = 0 := by simpa using hneed
    cases bound <;> simp [decodePaletteLoop]
  | cons b available ih =>
    cases bound with
    | zero => simp [decodePaletteLoop]
    | succ bound =>
      rw [decodePaletteLoop]
      split_ifs with hzero
      · simp
      · rw [List.length_cons, pull, List.map_cons, List.cons.injEq] at hserves
        have hlater : remaining - min remaining (8 / bits) ≤ available.length * (8 / bits) := by
          rw [List.length_cons, Nat.succ_mul] at hneed
          omega
        simp only [logged, hserves.1, Option.toList_some]
        split_ifs
        · rw [show log ++ b :: available = (log ++ [b]) ++ available by simp]
          exact ih hserves.2 hlater
        · exact ⟨available, by simp⟩

theorem loop_grows (x : σ × List UInt8) (t : τ) :
    x.2 <+: (decodePaletteLoop (logged input) output bits bound remaining x t).2.1.2 := by
  induction bound generalizing remaining x t with
  | zero => exact List.prefix_refl _
  | succ bound ih =>
    rw [decodePaletteLoop]
    split_ifs with hzero
    · exact List.prefix_refl _
    · have hmore : x.2 <+: (logged input x).2.2 := List.prefix_append _ _
      rcases hnext : logged input x with ⟨c, y⟩
      rw [hnext] at hmore
      cases c with
      | none => exact hmore
      | some b =>
        dsimp only
        split_ifs
        · exact hmore.trans (ih y _)
        · exact hmore

/-- A loop for which there are too few bytes asks for one more, if the output takes all of them. -/
theorem loop_missing (hbits : 0 < 8 / bits)
    (hserves : (pull input available.length s).1 = available.map some)
    (hneed : available.length * (8 / bits) < remaining) (hbound : remaining ≤ bound) :
    let r := decodePaletteLoop (logged input) output bits bound remaining (s, log) t
    if (outputBytes output bits available t).1 then
      match (input (pull input available.length s).2).1 with
      | none => r.1 = false ∧ r.2.1.2 = log ++ available
      | some b => log ++ available ++ [b] <+: r.2.1.2
    else r.1 = false ∧ r.2.1.2 <+: log ++ available := by
  induction available generalizing s log t bound remaining with
  | nil =>
    obtain ⟨bound, rfl⟩ : ∃ k, bound = k + 1 := ⟨bound - 1, by omega⟩
    simp only [outputBytes, List.length_nil, pull, if_true, List.append_nil]
    rw [decodePaletteLoop, if_neg (by omega)]
    cases hinput : (input s).1 with
    | none => simp [logged, hinput]
    | some b =>
      simp only [logged, hinput, Option.toList_some]
      split_ifs
      · exact loop_grows ((input s).2, log ++ [b]) _
      · exact List.prefix_refl _
  | cons b available ih =>
    obtain ⟨bound, rfl⟩ : ∃ k, bound = k + 1 := ⟨bound - 1, by omega⟩
    rw [List.length_cons, pull, List.map_cons, List.cons.injEq] at hserves
    rw [List.length_cons, Nat.succ_mul] at hneed
    have hall : min remaining (8 / bits) = 8 / bits := Nat.min_eq_right (by omega)
    have hlater := @ih (log ++ [b]) (input s).2
      (outputPixels output bits (8 / bits) b.toNat t).2 bound (remaining - 8 / bits) hserves.2
      (by omega) (by omega)
    simp only [outputBytes, List.length_cons, pull]
    rw [decodePaletteLoop, if_neg (show remaining ≠ 0 by omega)]
    simp only [logged, hserves.1, Option.toList_some, hall]
    cases hok : (outputPixels output bits (8 / bits) b.toNat t).1 with
    | false =>
      simp only [hok, Bool.false_eq_true, if_false, true_and]
      exact ⟨available, by simp⟩
    | true =>
      simp only [if_true]
      simp only [List.append_assoc, List.cons_append] at hlater ⊢
      exact hlater

theorem sendBytes_enough (hserves : (pull input available.length s).1 = available.map some)
    (hneed : remaining ≤ available.length) :
    (sendBytes input output remaining s t).1 =
        (outputAll output (available.take remaining) t).1 ∧
      (sendBytes input output remaining s t).2.2 =
        (outputAll output (available.take remaining) t).2 := by
  induction remaining generalizing available s t with
  | zero => exact ⟨rfl, rfl⟩
  | succ remaining ih =>
    cases available with
    | nil => simp at hneed
    | cons b available =>
      rw [List.length_cons, pull, List.map_cons, List.cons.injEq] at hserves
      rw [List.length_cons] at hneed
      rcases hinput : input s with ⟨c, s'⟩
      obtain rfl : c = some b := by rw [← hserves.1, hinput]
      rw [hinput] at hserves
      simp only [sendBytes, hinput, List.take_succ_cons, outputAll]
      split_ifs with hok
      · exact ih hserves.2 (Nat.le_of_succ_le_succ hneed)
      · exact ⟨(Bool.eq_false_iff.mpr hok).symm, rfl⟩

theorem pull_logged (n : ℕ) : (pull (logged input) n (s, log)).1 = (pull input n s).1 := by
  induction n generalizing s log with
  | zero => rfl
  | succ n ih => simp only [pull, logged, ih]

end Loops

section Decoders

variable {s : ByteInput} {rest available : List UInt8} {b c : UInt8} {n : ℕ}

/-- What the decoder of the run-length encoding has before it: the blocks behind a marker, the rest
of a range or of a run. Nothing is said about it once the stream has ended. -/
inductive Ready : ByteInput → List UInt8 → Prop
  | marker {s : ByteInput} {rest : List UInt8} (hmode : s.mode = .markerByte)
      (hrest : s.srcStream.Holds rest) : Ready s (expand .marker rest)
  | range {s : ByteInput} {rest : List UInt8} {c : UInt8} {n : ℕ}
      (hmode : s.mode = .nonRepeatingRun) (hremain : s.remain.toNat = n + 1)
      (hcurr : s.curr = some c) (hrest : s.srcStream.Holds rest) :
      Ready s (c :: expand (if n = 0 then .marker else .range (n - 1)) rest)
  | run {s : ByteInput} {rest : List UInt8} {c : UInt8} {n : ℕ}
      (hmode : s.mode = .repeatingRun)
      (hremain : (if s.remain = 0 then 256 else s.remain.toNat) = n + 1)
      (hcurr : s.curr = some c) (hrest : s.srcStream.Holds rest) :
      Ready s (List.replicate (n + 1) c ++ expand .marker rest)
  | ended (s : ByteInput) : Ready s []

theorem byteRleDecoder_isSome (s : ByteInput) : ∃ c, (byteRleDecoder s).1 = some c := ⟨_, rfl⟩

theorem ready_run_more (hmode : s.mode = .repeatingRun)
    (hremain : (if s.remain = 0 then 256 else s.remain.toNat) = n + 2) (hcurr : s.curr = some c)
    (hrest : s.srcStream.Holds rest) :
    (byteRleDecoder s).1 = some c ∧
      Ready (byteRleDecoder s).2 (List.replicate (n + 1) c ++ expand .marker rest) := by
  have hdecoder : byteRleDecoder s = (some c, { s with remain := s.remain - 1 }) := by
    have hother : s.mode ≠ .markerByte := by simp [hmode]
    by_cases hzero : s.remain = 0
    · simp [byteRleDecoder, hmode, hzero, hcurr, byteOf]
    · rw [if_neg hzero] at hremain
      rw [byteRleDecoder_more hother hremain hcurr, if_neg (by simp [hmode])]
  rw [hdecoder]
  refine ⟨rfl, .run (s := { s with remain := s.remain - 1 }) hmode ?_ hcurr hrest⟩
  dsimp only
  by_cases hzero : s.remain = 0
  · rw [hzero, if_pos rfl] at hremain
    rw [hzero, if_neg (by decide), show ((0 : UInt8) - 1).toNat = 255 by decide]
    omega
  · rw [if_neg hzero] at hremain
    have hpred := toNat_sub_one hremain
    rw [if_neg fun h => by simp [h] at hpred, hpred]

theorem ready_step (hmode : s.mode ≠ .markerByte) (h : Ready s (b :: available)) :
    (byteRleDecoder s).1 = some b ∧ Ready (byteRleDecoder s).2 available := by
  generalize hbytes : b :: available = bytes at h
  cases h with
  | marker h => exact absurd h hmode
  | ended => cases hbytes
  | @range rest c n hrange hremain hcurr hrest =>
    obtain ⟨rfl, rfl⟩ := List.cons.inj hbytes
    cases n with
    | zero =>
      rw [byteRleDecoder_last hmode hremain hcurr]
      exact ⟨rfl, .marker rfl hrest⟩
    | succ n =>
      rw [byteRleDecoder_more hmode hremain hcurr, if_pos hrange]
      refine ⟨rfl, ?_⟩
      cases rest with
      | nil => exact .ended _
      | cons d rest =>
        have hget := hrest.get
        have hlater : (s.srcStream.advance [d].length).Holds rest :=
          MemoryStream.Holds.advance hrest
        have hready := Ready.range (s := ({ s with remain := s.remain - 1 } : ByteInput).fetch)
          (n := n) (c := d) hrange (toNat_sub_one hremain)
          (by simp [ByteInput.fetch, hget]) (by simpa [ByteInput.fetch, hget] using hlater)
        simpa [expand] using hready
  | @run rest c n hrun hremain hcurr hrest =>
    rw [List.replicate_succ, List.cons_append] at hbytes
    obtain ⟨rfl, rfl⟩ := List.cons.inj hbytes
    cases n with
    | zero =>
      have hone : s.remain.toNat = 1 := by
        split_ifs at hremain
        · omega
        · exact hremain
      rw [byteRleDecoder_last hmode hone hcurr]
      exact ⟨rfl, .marker rfl hrest⟩
    | succ n => exact ready_run_more hrun hremain hcurr hrest

theorem ready_parseMarker {marker : UInt8} (h : AtMarker s (marker :: c :: rest)) :
    s.parseMarker.mode ≠ .markerByte ∧
      Ready s.parseMarker (expand .marker (marker :: c :: rest)) := by
  have hlater : (s.srcStream.advance [marker, c].length).Holds rest :=
    MemoryStream.Holds.advance h.holds
  rw [parseMarker_eq h]
  refine ⟨by dsimp only; split_ifs <;> simp, ?_⟩
  rw [expand, Expected.ofMarker]
  by_cases hlarge : 128 ≤ marker
  · have hge : 128 ≤ marker.toNat := by simpa [UInt8.le_iff_toNat_le] using hlarge
    simp only [if_pos hlarge, expand]
    refine .range rfl ?_ rfl hlater
    rw [UInt8.toNat_sub_of_le _ _ (by rw [UInt8.le_iff_toNat_le]; simp; omega)]
    simp
    omega
  · simp only [if_neg hlarge, expand]
    by_cases hzero : marker = 0
    · subst hzero
      exact .run (n := 255) rfl rfl rfl hlater
    · have hpos : marker.toNat ≠ 0 := fun h => hzero (UInt8.toNat_inj.mp h)
      rw [if_neg hzero, ← Nat.succ_pred_eq_of_ne_zero hpos]
      refine .run rfl ?_ rfl hlater
      rw [if_neg hzero]
      exact (Nat.succ_pred_eq_of_ne_zero hpos).symm

theorem ready_next (h : Ready s (b :: available)) :
    (byteRleDecoder s).1 = some b ∧ Ready (byteRleDecoder s).2 available := by
  by_cases hmode : s.mode = .markerByte
  swap
  · exact ready_step hmode h
  generalize hbytes : b :: available = bytes at h
  cases h with
  | ended => cases hbytes
  | range hrange => simp [hmode] at hrange
  | run hrun => simp [hmode] at hrun
  | @marker rest hmode hrest =>
    rcases rest with _ | ⟨marker, _ | ⟨c, rest⟩⟩
    · simp [expand] at hbytes
    · simp [expand] at hbytes
    · obtain ⟨hparsed, hready⟩ := ready_parseMarker ⟨hmode, hrest⟩
      rw [← hbytes] at hready
      rw [byteRleDecoder_marker hmode hparsed]
      exact ready_step hparsed hready

theorem pull_ready (h : Ready s available) :
    (pull byteRleDecoder available.length s).1 = available.map some := by
  induction available generalizing s with
  | nil => rfl
  | cons b available ih =>
    obtain ⟨hb, hlater⟩ := ready_next h
    rw [List.length_cons, pull, ih hlater, hb, List.map_cons]

theorem uncompressed_end (h : s.srcStream.Holds rest) :
    (byteUncompressedDecoder (pull byteUncompressedDecoder rest.length s).2).1 = none := by
  induction rest generalizing s with
  | nil => exact h.get_nil
  | cons c rest ih =>
    have hlater : (s.srcStream.advance [c].length).Holds rest := MemoryStream.Holds.advance h
    refine ih (s := (byteUncompressedDecoder s).2) ?_
    rw [byteUncompressedDecoder, ByteInput.fetch, h.get]
    exact hlater

theorem pull_available (compression : Compression) {stream : MemoryStream}
    (h : stream.Holds rest) :
    (pull compression.decoder (compression.available rest).length (prepareRleInput stream)).1 =
      (compression.available rest).map some := by
  cases compression with
  | uncompressed =>
    have hrest : (prepareRleInput stream).srcStream.Holds (rest ++ []) := by
      rw [List.append_nil]
      exact h
    exact pull_uncompressed hrest
  | rle => exact pull_ready (.marker rfl h)

end Decoders

section Reports

variable {τ δ : Type*} {compression : Compression} {stream : MemoryStream} {rest : List UInt8}
  {output : UInt8 → τ → Bool × τ} {t : τ} {bits count : ℕ}

/-- What `qp_internal_decode_palette` returns for a stream, with the bytes that it uses. -/
def decodeStream (compression : Compression) (stream : MemoryStream)
    (output : UInt8 → τ → Bool × τ) (bpp pixelCount : ℕ) (t : τ) : Bool × List UInt8 :=
  let r := decodePalette (logged compression.decoder) output bpp pixelCount
    (prepareRleInput stream, []) t
  (r.1, r.2.1.2)

/-- What `qp_internal_appender` returns for a stream, with the bytes that it uses. -/
def Driver.appendStream (driver : Driver δ) (compression : Compression) (stream : MemoryStream)
    (bpp pixelCount : ℕ) (d : δ) : Bool × List UInt8 :=
  let r := driver.appender (logged compression.decoder) bpp pixelCount (prepareRleInput stream, [])
    d
  (r.1, r.2.1.2)

theorem packedCount_le_iff {ppb n k : ℕ} (hppb : 0 < ppb) :
    packedCount ppb n ≤ k ↔ n ≤ k * ppb := by
  rw [packedCount, ← Nat.lt_succ_iff, Nat.div_lt_iff_lt_mul hppb, Nat.succ_mul]
  omega

/-- Without compression, or when an output fails, a loop that has too few bytes fails and uses no
others. -/
theorem loop_reported (h : stream.Holds rest) (hbits : 0 < 8 / bits)
    (htaken : compression = .uncompressed ∨
      (outputBytes output bits (compression.available rest) t).1 = false)
    (hneed : (compression.available rest).length * (8 / bits) < count) :
    let r := decodePaletteLoop (logged compression.decoder) output bits count count
      (prepareRleInput stream, []) t
    r.1 = false ∧ r.2.1.2 <+: compression.available rest := by
  have hmissing := @loop_missing _ _ compression.decoder output _ [] _ t bits count count hbits
    (pull_available compression h) hneed le_rfl
  simp only [List.nil_append] at hmissing
  split_ifs at hmissing with hok
  · obtain rfl : compression = .uncompressed := htaken.resolve_right (by simp [hok])
    have hend : (Compression.uncompressed.decoder (pull Compression.uncompressed.decoder
        (Compression.uncompressed.available rest).length (prepareRleInput stream)).2).1 = none :=
      uncompressed_end (s := prepareRleInput stream) h
    rw [hend] at hmissing
    exact ⟨hmissing.1, hmissing.2 ▸ List.prefix_refl _⟩
  · exact hmissing

/-- With compression, a loop that has too few bytes uses one that is none when the output takes all
of them. -/
theorem loop_unreported (h : stream.Holds rest) (hbits : 0 < 8 / bits)
    (hcompression : compression = .rle)
    (htaken : (outputBytes output bits (compression.available rest) t).1 = true)
    (hneed : (compression.available rest).length * (8 / bits) < count) :
    ¬ (decodePaletteLoop (logged compression.decoder) output bits count count
      (prepareRleInput stream, []) t).2.1.2 <+: compression.available rest := by
  have hmissing := @loop_missing _ _ compression.decoder output _ [] _ t bits count count hbits
    (pull_available compression h) hneed le_rfl
  subst hcompression
  obtain ⟨c, hc⟩ := byteRleDecoder_isSome (pull Compression.rle.decoder
    (Compression.rle.available rest).length (prepareRleInput stream)).2
  rw [Compression.decoder] at hc
  simp only [List.nil_append, htaken, if_true, Compression.decoder, hc] at hmissing
  intro hprefix
  have hlength := (hmissing.trans hprefix).length_le
  simp at hlength

theorem loop_reported_iff (h : stream.Holds rest) (hbits : 0 < 8 / bits) {needed : ℕ} {ok : Bool}
    (hneeded : needed ≤ (compression.available rest).length ↔
      count ≤ (compression.available rest).length * (8 / bits))
    (hok : (decodePaletteLoop (logged compression.decoder) output bits count count
      (prepareRleInput stream, []) t).1 = false → ok = false) :
    Reported (compression.available rest) needed ok
        (decodePaletteLoop (logged compression.decoder) output bits count count
          (prepareRleInput stream, []) t).2.1.2 ↔
      compression = .uncompressed ∨ needed ≤ (compression.available rest).length ∨
        (outputBytes output bits (compression.available rest) t).1 = false := by
  rcases Nat.lt_or_ge ((compression.available rest).length * (8 / bits)) count with hfew | henough
  · simp only [hneeded, Nat.not_le.mpr hfew, false_or]
    constructor
    · intro hreported
      by_contra hnot
      obtain ⟨hrle, htaken⟩ := not_or.mp hnot
      have hrle : compression = .rle := by
        cases compression
        · exact absurd rfl hrle
        · rfl
      exact loop_unreported h hbits hrle (by simpa using htaken) hfew hreported.used_prefix
    · intro htaken
      obtain ⟨hfails, hprefix⟩ := loop_reported h hbits htaken hfew
      exact ⟨fun _ => hok hfails, hprefix⟩
  · refine iff_of_true ⟨fun hlt => ?_, ?_⟩ (.inr (.inl (hneeded.mpr henough)))
    · exact absurd (hneeded.mpr henough) (Nat.not_le.mpr hlt)
    · exact loop_used (pull_available compression h) henough

theorem reported_of_lt {available used : List UInt8} {needed : ℕ} {ok : Bool}
    (h : available.length < needed) :
    Reported available needed ok used ↔ ok = false ∧ used <+: available :=
  ⟨fun hreported => ⟨hreported.fails h, hreported.used_prefix⟩,
    fun ⟨hfails, hprefix⟩ => ⟨fun _ => hfails, hprefix⟩⟩

namespace Driver

variable (driver : Driver δ)

/-- The driver takes bytes for as many pixels as there are in them. -/
def takes (bpp : ℕ) (bytes : List UInt8) (d : δ) : Bool :=
  if bpp ≤ 8 then (outputBytes driver.pixelAppender bpp bytes ⟨d, 0⟩).1
  else (outputAll driver.byteAppender bytes ⟨d, 0⟩).1

/-- The driver takes native bytes, and what is left of them in the buffer. -/
def takesImage (bytes : List UInt8) (d : δ) : Bool :=
  (outputAll driver.byteAppender bytes ⟨d, 0⟩).1 &&
    (driver.flush driver.nativePixels (outputAll driver.byteAppender bytes ⟨d, 0⟩).2).1

/-- The end of the stream is missed: by the decoder of the run-length encoding, or because the
number of bytes does not fit in 32 bits. -/
def Misses (compression : Compression) (available : List UInt8) (bpp pixelCount : ℕ) (d : δ) :
    Prop :=
  if bpp ≤ 8 ∨ available.length < byteCount bpp pixelCount then
    compression = .rle ∧ driver.takes bpp available d
  else driver.takesImage (available.take (byteCount bpp pixelCount)) d

variable {driver}

theorem appendStream_of_appender {bpp pixelCount : ℕ} {d : δ} {count : ℕ → ℕ}
    {r : Bool × (ByteInput × List UInt8) × Output δ}
    (happend : driver.appender (logged compression.decoder) bpp pixelCount
      (prepareRleInput stream, []) d =
        if r.1 then ((driver.flush count r.2.2).1, r.2.1, (driver.flush count r.2.2).2)
        else (false, r.2.1, r.2.2.device)) :
    (driver.appendStream compression stream bpp pixelCount d).2 = r.2.1.2 ∧
      (driver.appendStream compression stream bpp pixelCount d).1 =
        (r.1 && (driver.flush count r.2.2).1) := by
  simp only [appendStream, happend]
  cases hok : r.1 with
  | false => exact ⟨rfl, rfl⟩
  | true => exact ⟨rfl, (Bool.true_and _).symm⟩

theorem appendStream_of_le {bpp : ℕ} (hle : bpp ≤ 8) (pixelCount : ℕ) (d : δ) :
    let r := decodePaletteLoop (logged compression.decoder) driver.pixelAppender bpp pixelCount
      pixelCount (prepareRleInput stream, []) ⟨d, 0⟩
    (driver.appendStream compression stream bpp pixelCount d).2 = r.2.1.2 ∧
      (r.1 = false → (driver.appendStream compression stream bpp pixelCount d).1 = false) := by
  intro r
  have happend : driver.appender (logged compression.decoder) bpp pixelCount
      (prepareRleInput stream, []) d =
        if r.1 then ((driver.flush id r.2.2).1, r.2.1, (driver.flush id r.2.2).2)
        else (false, r.2.1, r.2.2.device) := by
    rw [appender, if_pos hle]
    rfl
  obtain ⟨hread, hreported⟩ := appendStream_of_appender happend
  refine ⟨hread, fun hfails => ?_⟩
  rw [hreported, hfails, Bool.false_and]

theorem appendStream_native {bpp : ℕ} (hle : ¬ bpp ≤ 8) (hnative : bpp = driver.nativeBitsPerPixel)
    (pixelCount : ℕ) (d : δ) :
    let r := sendBytes (logged compression.decoder) driver.byteAppender (byteCount bpp pixelCount)
      (prepareRleInput stream, []) ⟨d, 0⟩
    (driver.appendStream compression stream bpp pixelCount d).2 = r.2.1.2 ∧
      (driver.appendStream compression stream bpp pixelCount d).1 =
        (r.1 && (driver.flush driver.nativePixels r.2.2).1) := by
  intro r
  have happend : driver.appender (logged compression.decoder) bpp pixelCount
      (prepareRleInput stream, []) d =
        if r.1 then ((driver.flush driver.nativePixels r.2.2).1, r.2.1,
          (driver.flush driver.nativePixels r.2.2).2)
        else (false, r.2.1, r.2.2.device) := by
    rw [appender, if_neg hle, if_neg (not_not.mpr hnative)]
  exact appendStream_of_appender happend

theorem byteCount_le {bpp pixelCount : ℕ} (hle : ¬ bpp ≤ 8) :
    byteCount bpp pixelCount ≤ neededBytes bpp pixelCount := by
  rw [neededBytes, if_neg hle]
  exact Nat.div_le_div_right (Nat.mod_le _ _)

theorem appendStream_reported_iff (h : stream.Holds rest) {bpp : ℕ} (hbpp : 0 < bpp)
    (pixelCount : ℕ) (d : δ) :
    Reported (compression.available rest) (neededBytes bpp pixelCount)
        (driver.appendStream compression stream bpp pixelCount d).1
        (driver.appendStream compression stream bpp pixelCount d).2 ↔
      (8 < bpp ∧ bpp ≠ driver.nativeBitsPerPixel) ∨
        neededBytes bpp pixelCount ≤ (compression.available rest).length ∨
          ¬ driver.Misses compression (compression.available rest) bpp pixelCount d := by
  have hrle : compression ≠ .rle ↔ compression = .uncompressed := by cases compression <;> decide
  by_cases hle : bpp ≤ 8
  · obtain ⟨hused, hfails⟩ :=
      @appendStream_of_le _ compression stream driver bpp hle pixelCount d
    rw [hused, loop_reported_iff h (Nat.div_pos hle hbpp) ?_ hfails]
    · simp only [Misses, if_pos (Or.inl hle), takes, if_pos hle, not_and_or, Bool.not_eq_true,
        hrle, Nat.not_lt.mpr hle, false_and, false_or]
      exact or_left_comm
    · rw [neededBytes, if_pos hle, packedCount_le_iff (Nat.div_pos hle hbpp)]
  by_cases hnative : bpp = driver.nativeBitsPerPixel
  swap
  · refine iff_of_true ?_ (.inl ⟨Nat.not_le.mp hle, hnative⟩)
    simp only [appendStream, appender, if_neg hle, if_pos hnative]
    exact ⟨fun _ => rfl, List.nil_prefix⟩
  obtain ⟨hused, hreturns⟩ :=
    @appendStream_native _ compression stream driver bpp hle hnative pixelCount d
  rcases Nat.lt_or_ge (compression.available rest).length (byteCount bpp pixelCount) with
    hfew | henough
  · -- Fewer bytes than are asked for are fewer than are needed.
    have hneed := hfew.trans_le (byteCount_le hle)
    rw [sendBytes_eq le_rfl] at hused hreturns
    rw [hused]
    have hiff := @loop_reported_iff _ compression stream rest driver.byteAppender ⟨d, 0⟩ 8
      (byteCount bpp pixelCount) h (by decide) (byteCount bpp pixelCount)
      (driver.appendStream compression stream bpp pixelCount d).1 (by simp)
      (fun hfails => by rw [hreturns, hfails, Bool.false_and])
    rw [reported_of_lt hneed, ← reported_of_lt hfew, hiff, outputBytes_eight]
    have hother : ¬ (8 < bpp ∧ bpp ≠ driver.nativeBitsPerPixel) := fun hother => hother.2 hnative
    simp only [Misses, if_pos (Or.inr hfew), takes, if_neg hle, not_and_or, Bool.not_eq_true,
      hrle, Nat.not_le.mpr hfew, Nat.not_le.mpr hneed, hother, false_or]
  · have hserves := pull_available compression h
    have hlogged := @pull_logged _ compression.decoder [] (prepareRleInput stream)
      (compression.available rest).length
    obtain ⟨hsent, hstate⟩ := @sendBytes_enough _ _ (logged compression.decoder) driver.byteAppender
      _ (prepareRleInput stream, []) ⟨d, 0⟩ _ (hlogged.trans hserves) henough
    have hprefix := @loop_used _ _ compression.decoder driver.byteAppender _ [] _ ⟨d, 0⟩ 8
      (byteCount bpp pixelCount) _ hserves (by simpa using henough)
    rw [← sendBytes_eq le_rfl, ← hused] at hprefix
    have hmisses : driver.Misses compression (compression.available rest) bpp pixelCount d ↔
        (driver.appendStream compression stream bpp pixelCount d).1 = true := by
      rw [Misses, if_neg (not_or.mpr ⟨hle, Nat.not_lt.mpr henough⟩), takesImage, hreturns, hsent,
        hstate]
    rw [hmisses, Bool.not_eq_true]
    constructor
    · intro hreported
      rcases Nat.lt_or_ge (compression.available rest).length (neededBytes bpp pixelCount) with
        hlt | hge
      · exact .inr (.inr (hreported.fails hlt))
      · exact .inr (.inl hge)
    · rintro (⟨-, hother⟩ | hge | hfails)
      · exact absurd hnative hother
      · exact ⟨fun hlt => absurd hge (Nat.not_le.mpr hlt), hprefix⟩
      · exact ⟨fun _ => hfails, hprefix⟩

end Driver

end Reports

/-- An end of the stream is reported exactly when it is not missed. The decoder of the run-length
encoding misses each one, unless an output fails before. -/
theorem truncated_reported_iff {stream : MemoryStream} {rest : List UInt8} (h : stream.Holds rest)
    {bpp : ℕ} (hbpp : 0 < bpp) (compression : Compression) (pixelCount : ℕ) :
    (∀ {τ : Type} (output : UInt8 → τ → Bool × τ) (t : τ), bpp ≤ 8 →
      (Reported (compression.available rest) (neededBytes bpp pixelCount)
          (decodeStream compression stream output bpp pixelCount t).1
          (decodeStream compression stream output bpp pixelCount t).2 ↔
        compression = .uncompressed ∨
          neededBytes bpp pixelCount ≤ (compression.available rest).length ∨
            (outputBytes output bpp (compression.available rest) t).1 = false)) ∧
    ∀ {δ : Type} (driver : Driver δ) (d : δ),
      Reported (compression.available rest) (neededBytes bpp pixelCount)
          (driver.appendStream compression stream bpp pixelCount d).1
          (driver.appendStream compression stream bpp pixelCount d).2 ↔
        (8 < bpp ∧ bpp ≠ driver.nativeBitsPerPixel) ∨
          neededBytes bpp pixelCount ≤ (compression.available rest).length ∨
            ¬ driver.Misses compression (compression.available rest) bpp pixelCount d := by
  refine ⟨fun output t hle => ?_, fun driver d => driver.appendStream_reported_iff h hbpp _ d⟩
  refine loop_reported_iff h (Nat.div_pos hle hbpp) ?_ id
  rw [neededBytes, if_pos hle, packedCount_le_iff (Nat.div_pos hle hbpp)]

/-- A range of two bytes, of which there is only one: the end of the stream is the second pixel. -/
theorem truncatedRange_drawn :
    ¬ Reported (Compression.rle.available [129, 5]) (neededBytes 8 2)
      (decodeStream .rle (.ofFile [129, 5] 0) collect 8 2 []).1
      (decodeStream .rle (.ofFile [129, 5] 0) collect 8 2 []).2 := by
  intro h
  exact absurd (h.fails (by decide)) (by decide)

/-- Without compression the same bytes are too few for three pixels. -/
theorem truncatedBytes_reported :
    Reported (Compression.uncompressed.available [129, 5]) (neededBytes 8 3)
      (decodeStream .uncompressed (.ofFile [129, 5] 0) collect 8 3 []).1
      (decodeStream .uncompressed (.ofFile [129, 5] 0) collect 8 3 []).2 :=
  ((@truncated_reported_iff _ [129, 5] (MemoryStream.holds_ofFile (a := []) rfl rfl) 8
    (by decide) .uncompressed 3).1 collect [] (by decide)).mpr (.inl rfl)

section Surfaces

variable {σ τ τ' γ : Type*} {input : σ → Option UInt8 × σ} {output : UInt8 → τ → Bool × τ}
  {output' : UInt8 → τ' → Bool × τ'}

/-- A surface with its buffer as a driver, whatever it does with native bytes. -/
def surfaceDriver (panel : Panel) (palette : UInt8 → γ) (nativeBitsPerPixel : ℕ)
    (appendPixdata : ℕ → UInt8 → Surface γ × (ℕ → γ) → Bool × Surface γ × (ℕ → γ)) :
    Driver (Surface γ × (ℕ → γ)) where
  appendPixels pos index d := (true, d.1, fun n => if n = pos then palette index else d.2 n)
  appendPixdata := appendPixdata
  pixdata count d := (true, d.1.streamPixdata panel ((List.range count).map d.2), d.2)
  nativeBitsPerPixel := nativeBitsPerPixel
  numPixelsInBuffer := panel.maxPixels

theorem outputPixels_map {f : τ → τ'}
    (hf : ∀ p t, output' p (f t) = ((output p t).1, f (output p t).2)) (bits q byteval : ℕ)
    (t : τ) : outputPixels output' bits q byteval (f t) =
      ((outputPixels output bits q byteval t).1, f (outputPixels output bits q byteval t).2) := by
  induction q generalizing byteval t with
  | zero => rfl
  | succ q ih =>
    simp only [outputPixels, hf]
    split_ifs
    · exact ih _ _
    · rfl

theorem decodePaletteLoop_map {f : τ → τ'}
    (hf : ∀ p t, output' p (f t) = ((output p t).1, f (output p t).2)) (bits bound remaining : ℕ)
    (s : σ) (t : τ) : decodePaletteLoop input output' bits bound remaining s (f t) =
      ((decodePaletteLoop input output bits bound remaining s t).1,
        (decodePaletteLoop input output bits bound remaining s t).2.1,
        f (decodePaletteLoop input output bits bound remaining s t).2.2) := by
  induction bound generalizing remaining s t with
  | zero => rfl
  | succ bound ih =>
    simp only [decodePaletteLoop, outputPixels_map hf]
    split_ifs
    · rfl
    rcases input s with ⟨c, s'⟩
    cases c with
    | none => rfl
    | some b =>
      dsimp only
      split_ifs
      · exact ih _ _ _
      · rfl

theorem appender_surface {panel : Panel} {palette : UInt8 → γ} {nativeBitsPerPixel : ℕ}
    {appendPixdata : ℕ → UInt8 → Surface γ × (ℕ → γ) → Bool × Surface γ × (ℕ → γ)} {bpp : ℕ}
    (hle : bpp ≤ 8) (buffer : ℕ → γ) (pixelCount : ℕ) (s : σ) (d : Surface γ) :
    let r := (surfaceDriver panel palette nativeBitsPerPixel appendPixdata).appender input bpp
      pixelCount s (d, buffer)
    (r.1, r.2.1, r.2.2.1) = internalAppender panel input palette buffer bpp pixelCount s d := by
  have hone : ∀ p (t : PixelOutput γ),
      (surfaceDriver panel palette nativeBitsPerPixel appendPixdata).pixelAppender p
          ⟨(t.device, t.buffer), t.pixelWritePos⟩ =
        ((pixelAppender panel palette p t).1,
          ⟨((pixelAppender panel palette p t).2.device, (pixelAppender panel palette p t).2.buffer),
            (pixelAppender panel palette p t).2.pixelWritePos⟩) := by
    intro p t
    simp only [Driver.pixelAppender, Driver.appendOne, surfaceDriver, pixelAppender, id]
    split_ifs <;> first | rfl | contradiction
  have hloop := @decodePaletteLoop_map σ _ _ input _ _
    (fun t : PixelOutput γ => (⟨(t.device, t.buffer), t.pixelWritePos⟩ : Output _)) hone bpp
    pixelCount pixelCount s ⟨d, buffer, 0⟩
  obtain ⟨⟨ok, s', t⟩, hq⟩ : ∃ q, decodePaletteLoop input (pixelAppender panel palette) bpp
      pixelCount pixelCount s ⟨d, buffer, 0⟩ = q := ⟨_, rfl⟩
  rw [hq] at hloop
  simp only [Driver.appender, if_pos hle, decodePalette, hloop, internalAppender, hq]
  cases ok with
  | false => simp
  | true =>
    by_cases hpos : 0 < t.pixelWritePos
    · simp [hpos, Driver.flush, surfaceDriver, PixelOutput.send, PixelOutput.pixdata]
    · simp [hpos, Driver.flush]

end Surfaces

end Qmk.Painter
