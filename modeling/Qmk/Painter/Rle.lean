import Mathlib.Data.List.Basic
import Qmk.Painter.Stream

/-! # The run-length encoding

The encoder of `painter.py` and the byte decoders of `qp_draw_codec.c`. The encoded bytes
are blocks, each with a marker: a run of one byte, or a range of bytes as they are. The
encoder keeps the bytes that it has not yet put into a block.
-/

namespace Qmk.Painter

section Encoder

/-- The variables of `compress_bytes_qmk_rle`. -/
structure RleState where
  output : List ℕ := []
  temp : List UInt8 := []
  repeating : Bool := false
  deriving DecidableEq, Repr

def appendRange (r : List UInt8) (output : List ℕ) : List ℕ :=
  output ++ (127 + r.length) :: r.map UInt8.toNat

/-- `temp[-1] == temp[-2]`. -/
def endsTwice (temp : List UInt8) : Bool :=
  2 ≤ temp.length ∧ temp.getLast? = temp.dropLast.getLast?

/-- One pass of the loop over the bytes, with no byte in the pass behind the last one. -/
def rleStep (s : RleState) (c : Option UInt8) : RleState :=
  let temp := s.temp ++ c.toList
  if c.isSome ∧ temp.length ≤ 1 then { s with temp }
  else if s.repeating then
    let repeating := endsTwice temp
    if ¬ repeating ∨ temp.length = 128 ∨ c.isNone then
      { output := s.output ++
          [if c.isNone then temp.length else temp.length - 1, (temp.headD 0).toNat]
        temp := [temp.getLastD 0]
        repeating := false }
    else { s with temp, repeating }
  else if endsTwice temp then
    if 2 < temp.length then
      { output := appendRange (temp.take (temp.length - 2)) s.output
        temp := [temp.getLastD 0, temp.getLastD 0]
        repeating := true }
    else { s with temp, repeating := true }
  else if temp.length = 128 ∨ c.isNone then
    { output := appendRange temp s.output, temp := [], repeating := false }
  else { s with temp }

def compressBytesQmkRle (bytearray : List UInt8) : List ℕ :=
  (rleStep (bytearray.foldl (fun s c => rleStep s (some c)) {}) none).output

/-- Python's `bytes`, which fails on a number that is no byte. -/
def toBytes (output : List ℕ) : Option (List UInt8) :=
  output.mapM fun n => if n < 256 then some (UInt8.ofNat n) else none

end Encoder

section Decoder

inductive RleMode
  | markerByte | repeatingRun | nonRepeatingRun
  deriving DecidableEq, Repr

/-- `qp_internal_byte_input_state_t`. -/
structure ByteInput where
  srcStream : MemoryStream
  curr : Option UInt8 := some 0
  mode : RleMode := .markerByte
  remain : UInt8 := 0

def byteOf (c : Option UInt8) : UInt8 := c.getD 0xFF

def ByteInput.fetch (s : ByteInput) : ByteInput :=
  { s with curr := s.srcStream.get.1, srcStream := s.srcStream.get.2 }

def byteUncompressedDecoder (s : ByteInput) : Option UInt8 × ByteInput := (s.fetch.curr, s.fetch)

def ByteInput.parseMarker (s : ByteInput) : ByteInput :=
  let c := byteOf s.srcStream.get.1
  let s := { s with srcStream := s.srcStream.get.2 }
  let s := if 128 ≤ c then { s with mode := .nonRepeatingRun, remain := c - 127 }
    else { s with mode := .repeatingRun, remain := c }
  s.fetch

def byteRleDecoder (s : ByteInput) : Option UInt8 × ByteInput :=
  let s := if s.mode = .markerByte then s.parseMarker else s
  let c := byteOf s.curr
  let s := { s with remain := s.remain - 1 }
  let s := if 0 < s.remain then if s.mode = .nonRepeatingRun then s.fetch else s
    else { s with mode := .markerByte }
  (some c, s)

/-- The bytes that a decoder gives in `n` calls. -/
def pull {σ : Type*} (decoder : σ → Option UInt8 × σ) : ℕ → σ → List (Option UInt8) × σ
  | 0, s => ([], s)
  | n + 1, s =>
    ((decoder s).1 :: (pull decoder n (decoder s).2).1, (pull decoder n (decoder s).2).2)

end Decoder

inductive Block
  | run (n : ℕ) (c : UInt8)
  | range (bytes : List UInt8)

namespace Block

def encode : Block → List ℕ
  | run n c => [n, c.toNat]
  | range bytes => (127 + bytes.length) :: bytes.map UInt8.toNat

def expand : Block → List UInt8
  | run n c => List.replicate n c
  | range bytes => bytes

def Valid : Block → Prop
  | run n _ => 1 ≤ n ∧ n ≤ 127
  | range bytes => 1 ≤ bytes.length ∧ bytes.length ≤ 128

end Block

section Encoding

variable {output : List ℕ} {temp x : List UInt8} {c : UInt8}

theorem endsTwice_append (temp : List UInt8) (c : UInt8) :
    endsTwice (temp ++ [c]) = true ↔ temp.getLast? = some c := by
  cases temp with
  | nil => simp [endsTwice]
  | cons d temp =>
    simp only [endsTwice, decide_eq_true_eq, List.getLast?_concat, List.dropLast_concat,
      List.length_append, List.length_cons, List.length_nil]
    constructor
    · rintro ⟨-, h⟩
      exact h.symm
    · intro h
      exact ⟨by omega, h.symm⟩

/-- The output consists of blocks, which stand for all bytes but the pending ones. -/
def Written (output : List ℕ) (temp x : List UInt8) : Prop :=
  ∃ blocks : List Block, (∀ b ∈ blocks, b.Valid) ∧ output = blocks.flatMap Block.encode ∧
    x = blocks.flatMap Block.expand ++ temp

theorem Written.push (h : Written output temp x) (c : UInt8) :
    Written output (temp ++ [c]) (x ++ [c]) := by
  obtain ⟨blocks, hvalid, houtput, hx⟩ := h
  exact ⟨blocks, hvalid, houtput, by rw [hx, List.append_assoc]⟩

theorem Written.flush {b : Block} {t : List UInt8} (h : Written output temp x) (hb : b.Valid)
    (htemp : temp = b.expand ++ t) : Written (output ++ b.encode) t x := by
  obtain ⟨blocks, hvalid, houtput, hx⟩ := h
  refine ⟨blocks ++ [b], ?_, ?_, ?_⟩
  · intro b' hb'
    rcases List.mem_append.mp hb' with hmem | hmem
    · exact hvalid b' hmem
    · rwa [List.mem_singleton.mp hmem]
  · simp [houtput]
  · simp [hx, htemp]

/-- What is pending: a run, or a range that does not end in a run. -/
inductive Pending : Bool → List UInt8 → Prop
  | run {k : ℕ} (c : UInt8) (hk : 2 ≤ k) (hle : k ≤ 127) : Pending true (List.replicate k c)
  | range {temp : List UInt8} (hle : temp.length ≤ 127) (hlast : endsTwice temp = false) :
    Pending false temp

theorem rleStep_some (s : RleState) (c : UInt8) : rleStep s (some c) =
    if (s.temp ++ [c]).length ≤ 1 then { s with temp := s.temp ++ [c] }
    else if s.repeating then
      if ¬ endsTwice (s.temp ++ [c]) ∨ (s.temp ++ [c]).length = 128 then
        { output := s.output ++ [(s.temp ++ [c]).length - 1, ((s.temp ++ [c]).headD 0).toNat]
          temp := [c]
          repeating := false }
      else { s with temp := s.temp ++ [c], repeating := endsTwice (s.temp ++ [c]) }
    else if endsTwice (s.temp ++ [c]) then
      if 2 < (s.temp ++ [c]).length then
        { output := appendRange ((s.temp ++ [c]).take ((s.temp ++ [c]).length - 2)) s.output
          temp := [c, c]
          repeating := true }
      else { s with temp := s.temp ++ [c], repeating := true }
    else if (s.temp ++ [c]).length = 128 then
      { output := appendRange (s.temp ++ [c]) s.output, temp := [], repeating := false }
    else { s with temp := s.temp ++ [c] } := by
  simp [rleStep]

theorem written_rleStep {s : RleState} (h : Written s.output s.temp x)
    (hpending : Pending s.repeating s.temp) (c : UInt8) :
    Written (rleStep s (some c)).output (rleStep s (some c)).temp (x ++ [c]) ∧
      Pending (rleStep s (some c)).repeating (rleStep s (some c)).temp := by
  obtain ⟨output, temp, repeating⟩ := s
  change Written output temp x at h
  change Pending repeating temp at hpending
  have hpush := h.push c
  have htwice := endsTwice_append temp c
  cases hpending with
  | @run k d hk hle =>
    have hshort : ¬ (List.replicate k d ++ [c]).length ≤ 1 := by simp; omega
    rw [List.getLast?_replicate, if_neg (by omega), Option.some_inj] at htwice
    rw [rleStep_some, if_neg hshort, if_pos rfl]
    have hhead : (List.replicate k d ++ [c]).headD 0 = d := by
      obtain ⟨n, rfl⟩ : ∃ n, k = n + 1 := ⟨k - 1, by omega⟩
      rfl
    dsimp only
    rw [hhead]
    by_cases hcd : d = c
    · subst hcd
      rw [htwice.mpr rfl]
      by_cases hlimit : (List.replicate k d ++ [d]).length = 128
      · rw [if_pos (Or.inr hlimit), hlimit]
        have hk : k = 127 := by simpa using hlimit
        have hflush := hpush.flush (b := .run 127 d) (t := [d]) ⟨by omega, Nat.le_refl _⟩
          (by rw [hk]; rfl)
        exact ⟨hflush, .range (by simp) rfl⟩
      · rw [if_neg (by simpa using hlimit), ← List.replicate_succ'] at *
        rw [List.length_replicate] at hlimit
        exact ⟨hpush, .run d (by omega) (by omega)⟩
    · have hsplit : endsTwice (List.replicate k d ++ [c]) = false :=
        Bool.eq_false_iff.mpr (mt htwice.mp hcd)
      rw [if_pos (Or.inl (by simp [hsplit]))]
      have hflush := hpush.flush (b := .run k d) (t := [c]) ⟨by omega, hle⟩ rfl
      rw [Block.encode] at hflush
      exact ⟨by simpa using hflush, .range (by simp) rfl⟩
  | range hle hlast =>
    rw [rleStep_some]
    dsimp only
    by_cases hshort : (temp ++ [c]).length ≤ 1
    · rw [if_pos hshort]
      have hnil : temp = [] := by simpa using hshort
      subst hnil
      exact ⟨hpush, .range (by simp) rfl⟩
    · rw [if_neg hshort, if_neg Bool.false_ne_true]
      by_cases hrun : endsTwice (temp ++ [c]) = true
      · rw [if_pos hrun]
        obtain ⟨temp, rfl⟩ := List.getLast?_eq_some_iff.mp (htwice.mp hrun)
        by_cases hlong : 2 < (temp ++ [c] ++ [c]).length
        · have hflush := hpush.flush (b := .range temp) (t := [c, c])
            ⟨by simp at hlong; omega, by simp at hle; omega⟩ (by simp [Block.expand])
          have htake : (temp ++ [c] ++ [c]).take ((temp ++ [c] ++ [c]).length - 2) = temp := by
            rw [List.append_assoc, List.take_left']
            simp
          rw [if_pos hlong, htake]
          exact ⟨hflush, .run (k := 2) c (by omega) (by omega)⟩
        · have hnil : temp = [] := by
            simp at hlong
            exact hlong
          subst hnil
          rw [if_neg hlong]
          exact ⟨hpush, .run (k := 2) c (by omega) (by omega)⟩
      · rw [if_neg hrun]
        by_cases hlimit : (temp ++ [c]).length = 128
        · rw [if_pos hlimit]
          have hflush := hpush.flush (b := .range (temp ++ [c])) (t := [])
            ⟨by omega, by omega⟩ (by simp [Block.expand])
          exact ⟨hflush, .range (by simp) rfl⟩
        · rw [if_neg hlimit]
          rw [List.length_append, List.length_singleton] at hlimit
          exact ⟨hpush, .range (by simp; omega) (Bool.eq_false_iff.mpr hrun)⟩

/-- The whole encoding: blocks that stand for the bytes, and a marker of an empty range when the
last byte has been put into a block before the end. -/
theorem exists_blocks (x : List UInt8) : ∃ (blocks : List Block) (marker : List ℕ),
    (∀ b ∈ blocks, b.Valid) ∧ (marker = [] ∨ marker = [127]) ∧
      compressBytesQmkRle x = blocks.flatMap Block.encode ++ marker ∧
      blocks.flatMap Block.expand = x := by
  have hloop : ∀ (y z : List UInt8) (s : RleState), Written s.output s.temp y →
      Pending s.repeating s.temp →
      Written (z.foldl (fun s c => rleStep s (some c)) s).output
        (z.foldl (fun s c => rleStep s (some c)) s).temp (y ++ z) ∧
      Pending (z.foldl (fun s c => rleStep s (some c)) s).repeating
        (z.foldl (fun s c => rleStep s (some c)) s).temp := by
    intro y z
    induction z generalizing y with
    | nil =>
      intro s h hpending
      rw [List.append_nil]
      exact ⟨h, hpending⟩
    | cons c z ih =>
      intro s h hpending
      obtain ⟨hstep, hpending⟩ := written_rleStep h hpending c
      have := ih (y ++ [c]) _ hstep hpending
      rwa [List.append_assoc] at this
  obtain ⟨hwritten, hpending⟩ := hloop [] x {} ⟨[], by simp, rfl, rfl⟩ (.range (by simp) rfl)
  rw [List.nil_append] at hwritten
  unfold compressBytesQmkRle
  generalize x.foldl (fun s c => rleStep s (some c)) {} = s at hwritten hpending
  obtain ⟨output, temp, repeating⟩ := s
  change Written output temp x at hwritten
  change Pending repeating temp at hpending
  cases hpending with
  | @run k c hk hle =>
    obtain ⟨blocks, hvalid, houtput, hx⟩ := hwritten.flush (b := .run k c) (t := [])
      ⟨by omega, hle⟩ (List.append_nil _).symm
    refine ⟨blocks, [], hvalid, Or.inl rfl, ?_, by simpa using hx.symm⟩
    rw [List.append_nil, ← houtput]
    obtain ⟨n, rfl⟩ : ∃ n, k = n + 1 := ⟨k - 1, by omega⟩
    simp [rleStep, Block.encode, List.replicate_succ]
  | range hle hlast =>
    have hend : (rleStep ⟨output, temp, false⟩ none).output = appendRange temp output := by
      simp [rleStep, hlast]
    rw [hend]
    rcases List.eq_nil_or_concat temp with rfl | ⟨init, c, rfl⟩
    · obtain ⟨blocks, hvalid, houtput, hx⟩ := hwritten
      exact ⟨blocks, [127], hvalid, Or.inr rfl, by simp [appendRange, houtput],
        by simpa using hx.symm⟩
    · rw [List.concat_eq_append] at *
      obtain ⟨blocks, hvalid, houtput, hx⟩ := hwritten.flush (b := .range (init ++ [c])) (t := [])
        ⟨by simp, by omega⟩ (List.append_nil _).symm
      exact ⟨blocks, [], hvalid, Or.inl rfl, by simpa [appendRange, Block.encode] using houtput,
        by simpa using hx.symm⟩

end Encoding

section Bytes

def Block.bytes : Block → List UInt8
  | .run n c => [UInt8.ofNat n, c]
  | .range bytes => UInt8.ofNat (127 + bytes.length) :: bytes

theorem toBytes_append (x y : List ℕ) :
    toBytes (x ++ y) = (toBytes x).bind fun a => (toBytes y).map (a ++ ·) := by
  simp only [toBytes, List.mapM_append, Option.map_eq_bind]
  rfl

theorem toBytes_toNat (x : List UInt8) : toBytes (x.map UInt8.toNat) = some x := by
  induction x with
  | nil => rfl
  | cons c x ih =>
    have hc : c.toNat < 256 := c.toNat_lt
    rw [toBytes] at ih
    simp [toBytes, ih, hc]

theorem toBytes_encode {b : Block} (hb : b.Valid) : toBytes b.encode = some b.bytes := by
  cases b with
  | run n c =>
    have hn : n < 256 := by
      have := hb.2
      omega
    have hc : c.toNat < 256 := c.toNat_lt
    simp [toBytes, Block.encode, Block.bytes, hn, hc]
  | range bytes =>
    have hn : 127 + bytes.length < 256 := by
      have := hb.2
      omega
    have htail := toBytes_toNat bytes
    rw [toBytes] at htail
    simp [toBytes, Block.encode, Block.bytes, hn, htail]

theorem toBytes_blocks {blocks : List Block} (hvalid : ∀ b ∈ blocks, b.Valid) :
    toBytes (blocks.flatMap Block.encode) = some (blocks.flatMap Block.bytes) := by
  induction blocks with
  | nil => rfl
  | cons b blocks ih =>
    have hb := toBytes_encode (hvalid b List.mem_cons_self)
    have htail := ih fun b' hb' => hvalid b' (List.mem_cons_of_mem b hb')
    rw [List.flatMap_cons, toBytes_append, hb, htail]
    rfl

theorem toBytes_compress (x : List UInt8) : ∃ (blocks : List Block) (rest : List UInt8),
    (∀ b ∈ blocks, b.Valid) ∧ blocks.flatMap Block.expand = x ∧
      toBytes (compressBytesQmkRle x) = some (blocks.flatMap Block.bytes ++ rest) := by
  obtain ⟨blocks, marker, hvalid, hmarker, houtput, hx⟩ := exists_blocks x
  obtain ⟨rest, hrest⟩ : ∃ rest, toBytes marker = some rest := by
    rcases hmarker with rfl | rfl
    · exact ⟨[], rfl⟩
    · exact ⟨[127], rfl⟩
  refine ⟨blocks, rest, hvalid, hx, ?_⟩
  rw [houtput, toBytes_append, toBytes_blocks hvalid, hrest]
  rfl

end Bytes

section Decoding

theorem pull_add {σ : Type*} (decoder : σ → Option UInt8 × σ) (m n : ℕ) (s : σ) :
    pull decoder (m + n) s = ((pull decoder m s).1 ++ (pull decoder n (pull decoder m s).2).1,
      (pull decoder n (pull decoder m s).2).2) := by
  induction m generalizing s with
  | zero => simp [pull]
  | succ m ih =>
    rw [Nat.succ_add]
    simp only [pull, ih, List.cons_append]

/-- The decoder is at a marker, with `rest` to come. -/
structure AtMarker (s : ByteInput) (rest : List UInt8) : Prop where
  mode : s.mode = .markerByte
  holds : s.srcStream.Holds rest

variable {s : ByteInput} {rest : List UInt8} {c : UInt8}

theorem toNat_sub_one {r : UInt8} {n : ℕ} (h : r.toNat = n + 1) : (r - 1).toNat = n := by
  have hle : (1 : UInt8) ≤ r := by
    rw [UInt8.le_iff_toNat_le, h]
    simp
  rw [UInt8.toNat_sub_of_le _ _ hle, h]
  simp

theorem byteRleDecoder_last (hmode : s.mode ≠ .markerByte) (hremain : s.remain.toNat = 1)
    (hcurr : s.curr = some c) :
    byteRleDecoder s = (some c, { s with remain := 0, mode := .markerByte }) := by
  have hone : s.remain = 1 := UInt8.toNat_inj.mp hremain
  simp [byteRleDecoder, hmode, hone, hcurr, byteOf]

theorem byteRleDecoder_more {n : ℕ} (hmode : s.mode ≠ .markerByte)
    (hremain : s.remain.toNat = n + 2) (hcurr : s.curr = some c) : byteRleDecoder s =
      (some c, if s.mode = .nonRepeatingRun then { s with remain := s.remain - 1 }.fetch
        else { s with remain := s.remain - 1 }) := by
  have hpos : 0 < s.remain - 1 := by
    rw [UInt8.lt_iff_toNat_lt, toNat_sub_one hremain]
    simp
  simp only [byteRleDecoder, hmode, if_false, hpos, if_true, hcurr, byteOf, Option.getD_some]

theorem pull_run {n : ℕ} (hmode : s.mode = .repeatingRun) (hremain : s.remain.toNat = n + 1)
    (hcurr : s.curr = some c) (hholds : s.srcStream.Holds rest) :
    (pull byteRleDecoder (n + 1) s).1 = List.replicate (n + 1) (some c) ∧
      AtMarker (pull byteRleDecoder (n + 1) s).2 rest := by
  have hother : s.mode ≠ .markerByte := by simp [hmode]
  induction n generalizing s with
  | zero =>
    simp only [pull, byteRleDecoder_last hother hremain hcurr]
    exact ⟨rfl, rfl, hholds⟩
  | succ n ih =>
    rw [pull, byteRleDecoder_more hother hremain hcurr, if_neg (by simp [hmode])]
    obtain ⟨hbytes, hready⟩ := ih (s := { s with remain := s.remain - 1 }) hmode
      (toNat_sub_one hremain) hcurr hholds hother
    exact ⟨by rw [hbytes]; rfl, hready⟩

theorem pull_range {bytes : List UInt8} (hmode : s.mode = .nonRepeatingRun)
    (hremain : s.remain.toNat = bytes.length + 1) (hcurr : s.curr = some c)
    (hholds : s.srcStream.Holds (bytes ++ rest)) :
    (pull byteRleDecoder (bytes.length + 1) s).1 = (c :: bytes).map some ∧
      AtMarker (pull byteRleDecoder (bytes.length + 1) s).2 rest := by
  have hother : s.mode ≠ .markerByte := by simp [hmode]
  induction bytes generalizing s c with
  | nil =>
    simp only [List.length_nil, pull, byteRleDecoder_last hother hremain hcurr]
    exact ⟨rfl, rfl, hholds⟩
  | cons d bytes ih =>
    have hget := MemoryStream.Holds.get hholds
    rw [List.length_cons, pull, byteRleDecoder_more hother hremain hcurr, if_pos hmode]
    have hfetch : ({ s with remain := s.remain - 1 } : ByteInput).fetch =
        { s with remain := s.remain - 1, curr := some d, srcStream := s.srcStream.advance 1 } := by
      simp [ByteInput.fetch, hget]
    rw [hfetch]
    have htail : (s.srcStream.advance [d].length).Holds (bytes ++ rest) :=
      MemoryStream.Holds.advance hholds
    obtain ⟨hbytes, hready⟩ := ih (c := d) (s := { s with
      remain := s.remain - 1, curr := some d, srcStream := s.srcStream.advance 1 }) hmode
      (toNat_sub_one hremain) rfl htail hother
    exact ⟨by rw [hbytes]; rfl, hready⟩

theorem byteRleDecoder_marker (hmode : s.mode = .markerByte)
    (hparsed : s.parseMarker.mode ≠ .markerByte) :
    byteRleDecoder s = byteRleDecoder s.parseMarker := by
  simp only [byteRleDecoder, hmode, hparsed, if_true, if_false]

theorem parseMarker_eq {marker : UInt8} (h : AtMarker s (marker :: c :: rest)) :
    s.parseMarker = { s with
      mode := if 128 ≤ marker then .nonRepeatingRun else .repeatingRun
      remain := if 128 ≤ marker then marker - 127 else marker
      curr := some c
      srcStream := s.srcStream.advance 2 } := by
  have hget := MemoryStream.Holds.get h.holds
  have htail : (s.srcStream.advance [marker].length).Holds (c :: rest) :=
    MemoryStream.Holds.advance h.holds
  have hnext := MemoryStream.Holds.get htail
  rw [List.length_singleton, MemoryStream.advance_advance] at hnext
  simp only [ByteInput.parseMarker, hget, byteOf, Option.getD_some]
  split_ifs <;> simp [ByteInput.fetch, hnext]

theorem pull_block {b : Block} (hb : b.Valid) (h : AtMarker s (b.bytes ++ rest)) :
    (pull byteRleDecoder b.expand.length s).1 = b.expand.map some ∧
      AtMarker (pull byteRleDecoder b.expand.length s).2 rest := by
  -- the first byte is given by the state that the marker leads to
  have hparse : ∀ n, s.parseMarker.mode ≠ .markerByte →
      pull byteRleDecoder (n + 1) s = pull byteRleDecoder (n + 1) s.parseMarker := by
    intro n hmode
    rw [pull, pull, byteRleDecoder_marker h.mode hmode]
  cases b with
  | run n c =>
    obtain ⟨hpos, hle⟩ := hb
    obtain ⟨n, rfl⟩ : ∃ m, n = m + 1 := ⟨n - 1, by omega⟩
    have hnat : (UInt8.ofNat (n + 1)).toNat = n + 1 :=
      UInt8.toNat_ofNat_of_lt' (by rw [UInt8.size]; omega)
    have hsmall : ¬ 128 ≤ UInt8.ofNat (n + 1) := by
      rw [UInt8.le_iff_toNat_le, hnat]
      simp
      omega
    have hrest : s.srcStream.Holds ([UInt8.ofNat (n + 1), c] ++ rest) := h.holds
    have hparsed := parseMarker_eq ⟨h.mode, hrest⟩
    rw [if_neg hsmall, if_neg hsmall] at hparsed
    rw [Block.expand, List.length_replicate, List.map_replicate, hparse n (by simp [hparsed]),
      hparsed]
    exact pull_run rfl hnat rfl (MemoryStream.Holds.advance hrest)
  | range bytes =>
    obtain ⟨hpos, hle⟩ := hb
    cases bytes with
    | nil => simp at hpos
    | cons c bytes =>
      simp only [List.length_cons] at hle
      have hnat : (UInt8.ofNat (127 + (bytes.length + 1))).toNat = 127 + (bytes.length + 1) :=
        UInt8.toNat_ofNat_of_lt' (by rw [UInt8.size]; omega)
      have hlarge : 128 ≤ UInt8.ofNat (127 + (bytes.length + 1)) := by
        rw [UInt8.le_iff_toNat_le, hnat]
        simp
        omega
      have hrest : s.srcStream.Holds
          ([UInt8.ofNat (127 + (bytes.length + 1)), c] ++ (bytes ++ rest)) := h.holds
      have hparsed := parseMarker_eq ⟨h.mode, hrest⟩
      rw [if_pos hlarge, if_pos hlarge] at hparsed
      have hremain : (UInt8.ofNat (127 + (bytes.length + 1)) - 127).toNat = bytes.length + 1 := by
        rw [UInt8.toNat_sub_of_le _ _ (by rw [UInt8.le_iff_toNat_le, hnat]; simp), hnat]
        simp
      rw [Block.expand, List.length_cons, hparse bytes.length (by simp [hparsed]), hparsed]
      exact pull_range rfl hremain rfl (MemoryStream.Holds.advance hrest)

theorem pull_blocks {blocks : List Block} (hvalid : ∀ b ∈ blocks, b.Valid)
    (h : AtMarker s (blocks.flatMap Block.bytes ++ rest)) :
    (pull byteRleDecoder (blocks.flatMap Block.expand).length s).1 =
        (blocks.flatMap Block.expand).map some ∧
      AtMarker (pull byteRleDecoder (blocks.flatMap Block.expand).length s).2 rest := by
  induction blocks generalizing s with
  | nil => exact ⟨rfl, h⟩
  | cons b blocks ih =>
    rw [List.flatMap_cons, List.append_assoc] at h
    obtain ⟨hblock, hnext⟩ := pull_block (hvalid b List.mem_cons_self) h
    obtain ⟨hbytes, hlast⟩ := ih (fun b' hb' => hvalid b' (List.mem_cons_of_mem b hb')) hnext
    rw [List.flatMap_cons, List.length_append, pull_add]
    exact ⟨by rw [hblock, hbytes, List.map_append], hlast⟩

/-- `qp_internal_prepare_input_state` for a stream that is compressed. -/
def prepareRleInput (stream : MemoryStream) : ByteInput := { srcStream := stream }

/-- Reading the encoding of `x` from a stream gives `x` back. -/
theorem pull_compress {x bytes : List UInt8} {stream : MemoryStream}
    (hbytes : toBytes (compressBytesQmkRle x) = some bytes) (h : stream.Holds (bytes ++ rest)) :
    (pull byteRleDecoder x.length (prepareRleInput stream)).1 = x.map some := by
  obtain ⟨blocks, marker, hvalid, rfl, hencoded⟩ := toBytes_compress x
  obtain rfl := Option.some.inj (hbytes.symm.trans hencoded)
  rw [List.append_assoc] at h
  exact (pull_blocks hvalid ⟨rfl, h⟩).1

theorem pull_uncompressed {bytes : List UInt8} {s : ByteInput}
    (h : s.srcStream.Holds (bytes ++ rest)) :
    (pull byteUncompressedDecoder bytes.length s).1 = bytes.map some := by
  induction bytes generalizing s with
  | nil => rfl
  | cons c bytes ih =>
    have hget := h.get
    have hnext : (s.srcStream.advance [c].length).Holds (bytes ++ rest) :=
      MemoryStream.Holds.advance h
    have htail : (byteUncompressedDecoder s).2.srcStream.Holds (bytes ++ rest) := by
      rw [byteUncompressedDecoder, ByteInput.fetch, hget]
      exact hnext
    rw [List.length_cons, pull, ih htail, byteUncompressedDecoder, ByteInput.fetch, hget]
    rfl

end Decoding

section Streams

variable {file : List UInt8} {s : ByteInput}

theorem readsFrom_fetch (h : MemoryStream.ReadsFrom file s.srcStream) :
    s.fetch.srcStream.ReadsFrom file :=
  h.get

theorem readsFrom_byteUncompressedDecoder (h : MemoryStream.ReadsFrom file s.srcStream) :
    (byteUncompressedDecoder s).2.srcStream.ReadsFrom file := readsFrom_fetch h

theorem readsFrom_parseMarker (h : MemoryStream.ReadsFrom file s.srcStream) :
    s.parseMarker.srcStream.ReadsFrom file := by
  unfold ByteInput.parseMarker
  dsimp only
  apply readsFrom_fetch
  split_ifs
  · exact h.get
  · exact h.get

theorem readsFrom_byteRleDecoder (h : MemoryStream.ReadsFrom file s.srcStream) :
    (byteRleDecoder s).2.srcStream.ReadsFrom file := by
  have hmarker : (if s.mode = .markerByte then s.parseMarker else s).srcStream.ReadsFrom file := by
    split_ifs
    · exact readsFrom_parseMarker h
    · exact h
  unfold byteRleDecoder
  dsimp only
  split_ifs at hmarker ⊢
  all_goals first
    | exact hmarker
    | exact readsFrom_fetch hmarker

end Streams

end Qmk.Painter
