import Mathlib.Data.List.Induction
import Qmk.Painter.Truncated

/-! # What the appenders hand to the driver

The appenders of `qp_draw_codec.c` on a device that remembers the buffer and what it has been
handed, bit by bit. A pixel of the device has some number of bits, and a byte of native data has
eight.
-/

namespace Qmk.Painter

section Recorder

def bitsOf {k : ℕ} (x : BitVec k) : List Bool := (List.range k).map x.getLsbD

@[simp]
theorem length_bitsOf {k : ℕ} (x : BitVec k) : (bitsOf x).length = k := by
  simp [bitsOf]

/-- The buffer, the number of bits from its start that have been written to, and the bits that have
been handed to `pixdata`. -/
structure Recorder where
  buffer : ℕ → Bool := fun _ => false
  written : ℕ := 0
  handed : List Bool := []

namespace Recorder

def bits (d : Recorder) (n : ℕ) : List Bool := (List.range n).map d.buffer

/-- A word of `k` bits is written to its place in the buffer. -/
def write {k : ℕ} (pos : ℕ) (x : BitVec k) (d : Recorder) : Recorder :=
  { d with
    buffer := fun j => if pos * k ≤ j ∧ j < pos * k + k then x.getLsbD (j - pos * k)
      else d.buffer j
    written := max d.written (pos * k + k) }

/-- Pixels of `n` bits are handed over. -/
def hand (n count : ℕ) (d : Recorder) : Recorder :=
  { d with handed := d.handed ++ d.bits (count * n) }

end Recorder

/-- A device with pixels of `n` bits, which `color` gives for the indices of the palette, and with a
buffer of `size` bytes. -/
def recorder (n size : ℕ) (color : UInt8 → BitVec n) : Driver Recorder where
  appendPixels pos index d := (true, d.write pos (color index))
  appendPixdata pos byte d := (true, d.write pos byte.toBitVec)
  pixdata count d := (true, d.hand n count)
  nativeBitsPerPixel := n
  numPixelsInBuffer := size * 8 / n

end Recorder

section Words

variable {n k : ℕ} (driver : Driver Recorder) (word : UInt8 → BitVec k) (limit : ℕ)
  (count : ℕ → ℕ)

/-- Words of `k` bits have been appended, from the start of an empty buffer. -/
structure Appended (n : ℕ) (word : UInt8 → BitVec k) (limit : ℕ) (count : ℕ → ℕ)
    (words : List UInt8) (t : Output Recorder) : Prop where
  writePos : t.writePos = words.length % limit
  length : t.device.handed.length = words.length / limit * (count limit * n)
  within : 0 < limit → t.device.written ≤ limit * k
  beyond : limit = 0 → t.device.written = words.length * k
  exact : count limit * n = limit * k ∨ words.length < limit →
    t.device.handed ++ t.device.bits (t.writePos * k) = words.flatMap fun b => bitsOf (word b)

theorem bits_write (d : Recorder) (pos : ℕ) (x : BitVec k) :
    (d.write pos x).bits ((pos + 1) * k) = d.bits (pos * k) ++ bitsOf x := by
  rw [Nat.succ_mul, Recorder.bits, List.range_add, List.map_append, List.map_map]
  congr 1
  · refine List.map_congr_left fun j hj => ?_
    have hlt : j < pos * k := List.mem_range.mp hj
    exact if_neg (by omega)
  · refine List.map_congr_left fun j hj => ?_
    have hlt : j < k := List.mem_range.mp hj
    simp only [Function.comp_apply, Recorder.write]
    rw [if_pos (by omega), Nat.add_sub_cancel_left]

theorem succ_of_full {m : ℕ} (h : m % limit + 1 = limit) :
    (m + 1) % limit = 0 ∧ (m + 1) / limit = m / limit + 1 := by
  have hlimit : 0 < limit := by omega
  have hm : m + 1 = limit * (m / limit + 1) := by
    have hsplit := Nat.div_add_mod m limit
    rw [Nat.mul_add_one]
    omega
  rw [hm]
  exact ⟨Nat.mul_mod_right _ _, Nat.mul_div_cancel_left _ hlimit⟩

theorem succ_of_not_full {m : ℕ} (h : m % limit + 1 ≠ limit) :
    (m + 1) % limit = m % limit + 1 ∧ (m + 1) / limit = m / limit := by
  rcases Nat.eq_zero_or_pos limit with rfl | hlimit
  · simp
  · have hlt : m % limit + 1 < limit := by
      have := Nat.mod_lt m hlimit
      omega
    have hm : m + 1 = limit * (m / limit) + (m % limit + 1) := by
      have hsplit := Nat.div_add_mod m limit
      omega
    rw [hm, Nat.mul_add_mod, Nat.mod_eq_of_lt hlt, Nat.mul_add_div hlimit, Nat.div_eq_of_lt hlt,
      Nat.add_zero]
    exact ⟨rfl, rfl⟩

variable {word limit count} {words : List UInt8} {t : Output Recorder}

theorem appended_nil : Appended n word limit count [] ⟨{}, 0⟩ where
  writePos := (Nat.zero_mod limit).symm
  length := by simp
  within := fun _ => Nat.zero_le _
  beyond := fun _ => by simp
  exact := fun _ => by simp [Recorder.bits]

theorem Appended.write (h : Appended n word limit count words t) (b : UInt8) :
    let d := t.device.write t.writePos (word b)
    d.handed = t.device.handed ∧
      (0 < limit → d.written ≤ limit * k) ∧
      (limit = 0 → d.written = (words.length + 1) * k) ∧
      (count limit * n = limit * k ∨ words.length < limit →
        d.handed ++ d.bits ((t.writePos + 1) * k) =
          (words ++ [b]).flatMap fun b => bitsOf (word b)) := by
  refine ⟨rfl, ?_, ?_, ?_⟩
  · intro hlimit
    have hlt : t.writePos < limit := by
      rw [h.writePos]
      exact Nat.mod_lt _ hlimit
    have hle : (t.writePos + 1) * k ≤ limit * k := Nat.mul_le_mul_right k hlt
    rw [Nat.succ_mul] at hle
    exact max_le (h.within hlimit) hle
  · rintro rfl
    have hpos : t.writePos = words.length := by rw [h.writePos, Nat.mod_zero]
    have hwritten := h.beyond rfl
    simp only [Recorder.write, hpos, hwritten, Nat.succ_mul]
    exact max_eq_right (Nat.le_add_right _ _)
  · intro hexact
    rw [bits_write, ← List.append_assoc, List.flatMap_append, ← h.exact hexact]
    simp [Recorder.write]

theorem Appended.appendOne {driver : Driver Recorder}
    (hpixdata : ∀ count d, driver.pixdata count d = (true, d.hand n count))
    (h : Appended n word limit count words t) (b : UInt8) :
    ∃ t', driver.appendOne (fun pos b d => (true, d.write pos (word b))) limit count b t =
        (true, t') ∧ Appended n word limit count (words ++ [b]) t' := by
  obtain ⟨hhanded, hwithin, hbeyond, hexact⟩ := h.write b
  have hlength : (words ++ [b]).length = words.length + 1 := by simp
  unfold Driver.appendOne
  by_cases hfull : t.writePos + 1 = limit
  · have hmod : words.length % limit + 1 = limit := by rw [← h.writePos, hfull]
    obtain ⟨hpos, hdiv⟩ := succ_of_full limit hmod
    refine ⟨⟨(t.device.write t.writePos (word b)).hand n (count limit), 0⟩, ?_, ?_⟩
    · simp [hfull, hpixdata]
    · refine ⟨?_, ?_, hwithin, ?_, ?_⟩
      · rw [hlength, hpos]
      · rw [hlength, hdiv, Nat.succ_mul, ← h.length, ← hhanded]
        simp [Recorder.hand, Recorder.bits]
      · intro hzero
        omega
      · rintro (hcount | hlt)
        · rw [← hexact (Or.inl hcount), hfull, ← hcount]
          simp [Recorder.hand, Recorder.bits]
        · have hle := Nat.mod_le words.length limit
          omega
  · have hmod : words.length % limit + 1 ≠ limit := by rwa [← h.writePos]
    obtain ⟨hpos, hdiv⟩ := succ_of_not_full limit hmod
    refine ⟨⟨t.device.write t.writePos (word b), t.writePos + 1⟩, ?_, ?_⟩
    · simp [hfull]
    · refine ⟨?_, ?_, hwithin, ?_, ?_⟩
      · rw [hlength, hpos, h.writePos]
      · rw [hlength, hdiv, ← h.length, ← hhanded]
      · rw [hlength]
        exact hbeyond
      · intro hcase
        exact hexact (hcase.imp_right fun hlt => by omega)

theorem Appended.outputAll {driver : Driver Recorder}
    (hpixdata : ∀ count d, driver.pixdata count d = (true, d.hand n count))
    (h : Appended n word limit count words t) (more : List UInt8) :
    ∃ t', Painter.outputAll
        (driver.appendOne (fun pos b d => (true, d.write pos (word b))) limit count) more t =
          (true, t') ∧ Appended n word limit count (words ++ more) t' := by
  induction more generalizing words t with
  | nil => exact ⟨t, rfl, by rwa [List.append_nil]⟩
  | cons b more ih =>
    obtain ⟨t', hstep, hnext⟩ := h.appendOne hpixdata b
    obtain ⟨t'', hrest, hlast⟩ := ih hnext
    refine ⟨t'', ?_, by simpa using hlast⟩
    simp only [Painter.outputAll, hstep, if_true, hrest]

end Words

section Unpacked

variable {σ τ : Type*} {input : σ → Option UInt8 × σ} {output : UInt8 → τ → Bool × τ}
  {available : List UInt8} {bpp : ℕ}

def unpackByte (bpp : ℕ) (b : UInt8) : List UInt8 :=
  (List.range (8 / bpp)).map fun q => UInt8.ofNat (b.toNat >>> (q * bpp) &&& (2 ^ bpp - 1))

/-- So many pixels of some bytes. -/
def unpack (bpp pixelCount : ℕ) (bytes : List UInt8) : List UInt8 :=
  (bytes.flatMap (unpackByte bpp)).take pixelCount

theorem length_unpack (pixelCount : ℕ) (bytes : List UInt8) :
    (unpack bpp pixelCount bytes).length = min pixelCount (bytes.length * (8 / bpp)) := by
  simp [unpack, unpackByte, List.length_flatMap]

theorem outputPixels_eq (q byteval : ℕ) (t : τ) : outputPixels output bpp q byteval t =
    outputAll output ((List.range q).map fun j =>
      UInt8.ofNat (byteval >>> (j * bpp) &&& (2 ^ bpp - 1))) t := by
  induction q generalizing byteval t with
  | zero => rfl
  | succ q ih =>
    have hshift : ∀ j, byteval >>> ((j + 1) * bpp) = byteval >>> bpp >>> (j * bpp) := by
      intro j
      rw [Nat.succ_mul, Nat.add_comm, Nat.shiftRight_add]
    rw [List.range_succ_eq_map, List.map_cons, List.map_map, Nat.zero_mul, Nat.shiftRight_zero]
    simp only [outputPixels, outputAll, ih, Function.comp_def, Nat.succ_eq_add_one, hshift]

/-- With enough bytes, the pixels of the bytes are put out. The induction is on the bytes. -/
theorem decodePaletteLoop_unpack {bound remaining : ℕ} {s : σ} {t : τ}
    (hserves : (pull input available.length s).1 = available.map some)
    (henough : remaining ≤ available.length * (8 / bpp)) (hbpp : 0 < 8 / bpp)
    (hbound : remaining ≤ bound) :
    let r := decodePaletteLoop input output bpp bound remaining s t
    let all := outputAll output (unpack bpp remaining available) t
    r.1 = all.1 ∧ r.2.2 = all.2 := by
  induction available generalizing s t bound remaining with
  | nil =>
    obtain rfl : remaining = 0 := by simpa using henough
    cases bound <;> simp [decodePaletteLoop, unpack, outputAll]
  | cons b available ih =>
    rcases Nat.eq_zero_or_pos remaining with rfl | hpos
    · cases bound <;> simp [decodePaletteLoop, unpack, outputAll]
    obtain ⟨bound, rfl⟩ : ∃ n, bound = n + 1 := ⟨bound - 1, by omega⟩
    rw [List.length_cons, pull, List.map_cons, List.cons.injEq] at hserves
    rw [List.length_cons, Nat.succ_mul] at henough
    have hlen : (unpackByte bpp b).length = 8 / bpp := by simp [unpackByte]
    have hsplit : unpack bpp remaining (b :: available) =
        (unpackByte bpp b).take remaining ++ unpack bpp (remaining - 8 / bpp) available := by
      rw [unpack, List.flatMap_cons, List.take_append, hlen, unpack]
    have hfirst : outputPixels output bpp (min remaining (8 / bpp)) b.toNat t =
        outputAll output ((unpackByte bpp b).take remaining) t := by
      rw [outputPixels_eq, unpackByte, ← List.map_take, List.take_range]
    have hlater : remaining - min remaining (8 / bpp) = remaining - 8 / bpp := by omega
    rcases hinput : input s with ⟨x, s'⟩
    obtain rfl : x = some b := by rw [← hserves.1, hinput]
    rw [hinput] at hserves
    rw [decodePaletteLoop, if_neg hpos.ne', hsplit]
    simp only [hinput, hfirst, hlater, outputAll_append]
    split_ifs with hok
    · exact ih hserves.2 (by omega) (by omega)
    · exact ⟨(Bool.eq_false_iff.mpr hok).symm, rfl⟩

end Unpacked

section Handed

variable {σ : Type*} {input : σ → Option UInt8 × σ} {available : List UInt8} {s : σ}
  {n size bpp pixelCount : ℕ} {color : UInt8 → BitVec n}

/-- The bits of the pixels that an image stands for: those of the colors of the indices, or the
bytes themselves. -/
def pixelBits (n : ℕ) (color : UInt8 → BitVec n) (bpp pixelCount : ℕ) (bytes : List UInt8) :
    List Bool :=
  if bpp ≤ 8 then (unpack bpp pixelCount bytes).flatMap fun i => bitsOf (color i)
  else (bytes.flatMap fun b => bitsOf b.toBitVec).take (pixelCount * n)

theorem Appended.flush {k : ℕ} {word : UInt8 → BitVec k} {limit : ℕ} {count : ℕ → ℕ}
    {words : List UInt8} {t : Output Recorder} {driver : Driver Recorder}
    (hpixdata : ∀ count d, driver.pixdata count d = (true, d.hand n count))
    (hcount : count 0 = 0) (h : Appended n word limit count words t) :
    let d := (driver.flush count t).2
    d.written = t.device.written ∧
      d.handed.length = words.length / limit * (count limit * n) +
        count (words.length % limit) * n ∧
      (count t.writePos * n = t.writePos * k →
        count limit * n = limit * k ∨ words.length < limit →
          d.handed = words.flatMap fun b => bitsOf (word b)) := by
  have hflush : (driver.flush count t).2 = t.device.hand n (count t.writePos) ∨
      t.writePos = 0 ∧ (driver.flush count t).2 = t.device := by
    unfold Driver.flush
    split_ifs with hpos
    · exact Or.inl (by rw [hpixdata])
    · exact Or.inr ⟨by omega, rfl⟩
  dsimp only
  rcases hflush with hd | ⟨hzero, hd⟩
  · rw [hd]
    refine ⟨rfl, ?_, ?_⟩
    · simp [Recorder.hand, Recorder.bits, h.length, h.writePos]
    · intro hlast hexact
      rw [← h.exact hexact, ← hlast]
      rfl
  · rw [hd]
    refine ⟨rfl, ?_, ?_⟩
    · rw [h.length, ← h.writePos, hzero, hcount, Nat.zero_mul, Nat.add_zero]
    · intro hlast hexact
      rw [← h.exact hexact, hzero]
      simp [Recorder.bits]

theorem pixdata_recorder (count : ℕ) (d : Recorder) :
    (recorder n size color).pixdata count d = (true, d.hand n count) := rfl

/-- The pixels of a palette go through the buffer as words of their own size. -/
theorem appender_palette (hbpp : 0 < bpp) (hpalette : bpp ≤ 8)
    (hserves : (pull input available.length s).1 = available.map some)
    (henough : pixelCount ≤ available.length * (8 / bpp)) :
    ∃ t, Appended n color (size * 8 / n) id (unpack bpp pixelCount available) t ∧
      ((recorder n size color).appender input bpp pixelCount s {}).2.2 =
        ((recorder n size color).flush id t).2 := by
  have hempty : Appended n color (size * 8 / n) id [] ⟨{}, 0⟩ := appended_nil
  obtain ⟨t, hall, happended⟩ :=
    hempty.outputAll (@pixdata_recorder n size color) (unpack bpp pixelCount available)
  refine ⟨t, by simpa using happended, ?_⟩
  have hdecode := @decodePaletteLoop_unpack _ _ _ (recorder n size color).pixelAppender _ _
    pixelCount _ _ ⟨{}, 0⟩ hserves henough (Nat.div_pos hpalette hbpp) le_rfl
  have hpixels : outputAll (recorder n size color).pixelAppender
      (unpack bpp pixelCount available) ⟨{}, 0⟩ = (true, t) := hall
  rw [hpixels] at hdecode
  simp only [Driver.appender, if_pos hpalette, decodePalette, hdecode.1, hdecode.2, if_true]

theorem appender_native (hnative : 8 < n)
    (hserves : (pull input available.length s).1 = available.map some)
    (henough : Driver.byteCount n pixelCount ≤ available.length) :
    ∃ t, Appended n UInt8.toBitVec (size * 8 / n * n / 8) (recorder n size color).nativePixels
        (available.take (Driver.byteCount n pixelCount)) t ∧
      ((recorder n size color).appender input n pixelCount s {}).2.2 =
        ((recorder n size color).flush (recorder n size color).nativePixels t).2 := by
  have hempty : Appended n UInt8.toBitVec (size * 8 / n * n / 8)
      (recorder n size color).nativePixels [] ⟨{}, 0⟩ := appended_nil
  obtain ⟨t, hall, happended⟩ := hempty.outputAll (@pixdata_recorder n size color)
    (available.take (Driver.byteCount n pixelCount))
  refine ⟨t, by simpa using happended, ?_⟩
  obtain ⟨hok, hsent⟩ := @sendBytes_enough _ _ _ (recorder n size color).byteAppender _ _
    ⟨{}, 0⟩ _ hserves henough
  have hbytes : outputAll (recorder n size color).byteAppender
      (available.take (Driver.byteCount n pixelCount)) ⟨{}, 0⟩ = (true, t) := hall
  rw [hbytes] at hok hsent
  have hbpp : ¬ n ≠ (recorder n size color).nativeBitsPerPixel := not_not_intro rfl
  simp only [Driver.appender, if_neg (Nat.not_le_of_lt hnative), if_neg hbpp, hok, hsent, if_true]

/-- So many bits of native data are handed over. -/
def handedBits (n limit count : ℕ) : ℕ :=
  count / limit * (limit * 8 / n * n) + count % limit * 8 / n * n

theorem bits_split (limit count : ℕ) :
    count / limit * (limit * 8) + count % limit * 8 = count * 8 := by
  rw [← Nat.mul_assoc, ← Nat.add_mul, Nat.mul_comm (count / limit), Nat.div_add_mod]

/-- No more bits are handed over than there are, and fewer if the buffer is sent with a part of a
pixel at its end. -/
theorem handedBits_le (n limit count : ℕ) : handedBits n limit count ≤ count * 8 := by
  have hfull : count / limit * (limit * 8 / n * n) ≤ count / limit * (limit * 8) :=
    Nat.mul_le_mul_left _ (Nat.div_mul_le_self _ n)
  have hlast : count % limit * 8 / n * n ≤ count % limit * 8 := Nat.div_mul_le_self _ n
  exact (Nat.add_le_add hfull hlast).trans_eq (bits_split limit count)

theorem handedBits_lt {n limit count : ℕ} (hlimit : 0 < limit) (hfull : limit ≤ count)
    (hpart : limit * 8 / n * n < limit * 8) : handedBits n limit count < count * 8 := by
  have hsent : 0 < count / limit := Nat.div_pos hfull hlimit
  have hfewer : count / limit * (limit * 8 / n * n) < count / limit * (limit * 8) :=
    Nat.mul_lt_mul_of_pos_left hpart hsent
  have hlast : count % limit * 8 / n * n ≤ count % limit * 8 := Nat.div_mul_le_self _ n
  exact (Nat.add_lt_add_of_lt_of_le hfewer hlast).trans_eq (bits_split limit count)

/-- All bytes of the pixels are asked for if their bits are counted without overflow and make whole
bytes. -/
theorem byteCount_mul_eq_iff (n pixelCount : ℕ) : Driver.byteCount n pixelCount * 8 =
    pixelCount * n ↔ pixelCount * n < 2 ^ 32 ∧ 8 ∣ pixelCount * n := by
  unfold Driver.byteCount
  constructor
  · intro heq
    omega
  · rintro ⟨hlt, hdvd⟩
    rw [Nat.mod_eq_of_lt hlt, Nat.div_mul_cancel hdvd]

theorem byteCount_mul_le (n pixelCount : ℕ) :
    Driver.byteCount n pixelCount * 8 ≤ pixelCount * n := by
  unfold Driver.byteCount
  omega

/-- The limit in bytes leaves out a part of the last pixel that fits if this has one. -/
theorem limit_part {m : ℕ} (hnative : 8 < n) (hm : 0 < m) (hpart : ¬ 8 ∣ m * n) :
    0 < m * n / 8 ∧ m * n / 8 * 8 / n * n < m * n / 8 * 8 := by
  obtain ⟨m, rfl⟩ : ∃ k, m = k + 1 := ⟨m - 1, by omega⟩
  rw [Nat.succ_mul] at hpart ⊢
  have hdiv : (m * n + n) / 8 * 8 / n = m := by
    rw [Nat.div_eq_iff (by omega)]
    omega
  rw [hdiv]
  omega

/-- A buffer with a whole number of pixels is always sent with whole pixels, and so are leftovers
that have never filled the buffer. -/
theorem whole_pixels {m count : ℕ} (hnative : 8 < n) (hbytes : count * 8 = pixelCount * n)
    (hcase : 8 ∣ m * n ∨ pixelCount < m) :
    (n ∣ m * n / 8 * 8 ∨ count < m * n / 8) ∧ n ∣ count % (m * n / 8) * 8 := by
  rcases hcase with hdvd | hfew
  · have hlimit : m * n / 8 * 8 = m * n := Nat.div_mul_cancel hdvd
    have hlast : count % (m * n / 8) * 8 = pixelCount % m * n := by
      rw [← Nat.mul_mod_mul_right, hbytes, hlimit, Nat.mul_mod_mul_right]
    rw [hlimit, hlast]
    exact ⟨Or.inl (Nat.dvd_mul_left n m), Nat.dvd_mul_left n _⟩
  · have hnext : (pixelCount + 1) * n ≤ m * n := Nat.mul_le_mul_right n hfew
    have hlt : count < m * n / 8 := by
      rw [Nat.succ_mul] at hnext
      omega
    rw [Nat.mod_eq_of_lt hlt, hbytes]
    exact ⟨Or.inr hlt, Nat.dvd_mul_left n _⟩

/-- The pixels of a palette fit the buffer and are handed over unless a pixel is larger than the
buffer. -/
theorem palette_exact_iff (hn : 0 < n) (hbpp : 0 < bpp) (hpalette : bpp ≤ 8)
    (hserves : (pull input available.length s).1 = available.map some)
    (henough : pixelCount ≤ available.length * (8 / bpp)) :
    let d := ((recorder n size color).appender input bpp pixelCount s {}).2.2
    (d.written ≤ size * 8 ∧
        d.handed = (unpack bpp pixelCount available).flatMap fun i => bitsOf (color i)) ↔
      pixelCount = 0 ∨ n ≤ size * 8 := by
  obtain ⟨t, happended, hd⟩ :=
    @appender_palette _ _ _ _ n size _ _ color hbpp hpalette hserves henough
  obtain ⟨hwritten, -, hexact⟩ := happended.flush pixdata_recorder rfl
  have hlength : (unpack bpp pixelCount available).length = pixelCount := by
    rw [length_unpack, Nat.min_eq_left henough]
  dsimp only
  rw [hd, hwritten]
  constructor
  · rintro ⟨hfits, -⟩
    refine or_iff_not_imp_right.mpr fun hlarge => ?_
    rw [happended.beyond (Nat.div_eq_of_lt (Nat.lt_of_not_le hlarge)), hlength] at hfits
    by_contra hpos
    have hone : 1 * n ≤ pixelCount * n := Nat.mul_le_mul_right n (Nat.pos_of_ne_zero hpos)
    omega
  · intro hcase
    refine ⟨?_, hexact rfl (Or.inl rfl)⟩
    rcases Nat.eq_zero_or_pos (size * 8 / n) with hzero | hpos
    · have hnone : pixelCount = 0 := hcase.resolve_right fun hle =>
        (Nat.div_pos hle hn).ne' hzero
      rw [happended.beyond hzero, hlength, hnone, Nat.zero_mul]
      exact Nat.zero_le _
    · exact (happended.within hpos).trans (Nat.div_mul_le_self _ n)

theorem length_bytes (bytes : List UInt8) :
    (bytes.flatMap fun b => bitsOf b.toBitVec).length = bytes.length * 8 := by
  simp [List.length_flatMap]

theorem take_bytes (m : ℕ) (bytes : List UInt8) :
    ((bytes.take m).flatMap fun b => bitsOf b.toBitVec) =
      (bytes.flatMap fun b => bitsOf b.toBitVec).take (m * 8) := by
  induction bytes generalizing m with
  | nil => simp
  | cons b bytes ih =>
    cases m with
    | zero => simp
    | succ m =>
      have hm : (m + 1) * 8 = (bitsOf b.toBitVec).length + m * 8 := by
        rw [length_bitsOf, Nat.succ_mul, Nat.add_comm]
      rw [List.take_succ_cons, List.flatMap_cons, List.flatMap_cons, ih, hm,
        List.take_length_add_append]

/-- Bytes that are sent as whole pixels fit the buffer and are all handed over. -/
theorem native_exact (hnative : 8 < n)
    (hserves : (pull input available.length s).1 = available.map some)
    (henough : pixelCount * n ≤ available.length * 8)
    (hbytes : Driver.byteCount n pixelCount * 8 = pixelCount * n)
    (hlimit : pixelCount = 0 ∨ 0 < size * 8 / n * n / 8)
    (hfull : n ∣ size * 8 / n * n / 8 * 8 ∨
      Driver.byteCount n pixelCount < size * 8 / n * n / 8)
    (hlast : n ∣ Driver.byteCount n pixelCount % (size * 8 / n * n / 8) * 8) :
    let d := ((recorder n size color).appender input n pixelCount s {}).2.2
    d.written ≤ size * 8 ∧
      d.handed = (available.flatMap fun b => bitsOf b.toBitVec).take (pixelCount * n) := by
  have hcount : Driver.byteCount n pixelCount ≤ available.length := by omega
  obtain ⟨t, happended, hd⟩ :=
    @appender_native _ _ _ _ n size pixelCount color hnative hserves hcount
  obtain ⟨hwritten, -, hexact⟩ := happended.flush pixdata_recorder (by simp [Driver.nativePixels])
  have hlength : (available.take (Driver.byteCount n pixelCount)).length =
      Driver.byteCount n pixelCount := by rw [List.length_take, Nat.min_eq_left hcount]
  have hwhole : ∀ m, n ∣ m * 8 → (recorder n size color).nativePixels m * n = m * 8 :=
    fun m hdvd => Nat.div_mul_cancel hdvd
  dsimp only
  rw [hd, hwritten]
  constructor
  · rcases Nat.eq_zero_or_pos (size * 8 / n * n / 8) with hzero | hpos
    · have hnone : pixelCount = 0 := hlimit.resolve_right fun h => h.ne' hzero
      rw [happended.beyond hzero, hlength, hbytes, hnone, Nat.zero_mul]
      exact Nat.zero_le _
    · exact ((happended.within hpos).trans (Nat.div_mul_le_self _ 8)).trans
        (Nat.div_mul_le_self _ n)
  · rw [hexact, take_bytes, hbytes]
    · rw [happended.writePos, hlength]
      exact hwhole _ hlast
    · rw [hlength]
      exact hfull.imp_left (hwhole _)

/-- Native data fit the buffer and are handed over if their bytes are counted right and neither the
buffer nor its leftovers are sent with a part of a pixel at the end, and only then. -/
theorem native_exact_iff (hnative : 8 < n)
    (hserves : (pull input available.length s).1 = available.map some)
    (henough : pixelCount * n ≤ available.length * 8) :
    let d := ((recorder n size color).appender input n pixelCount s {}).2.2
    (d.written ≤ size * 8 ∧
        d.handed = (available.flatMap fun b => bitsOf b.toBitVec).take (pixelCount * n)) ↔
      pixelCount = 0 ∨ n ≤ size * 8 ∧ pixelCount * n < 2 ^ 32 ∧ 8 ∣ pixelCount * n ∧
        (8 ∣ size * 8 / n * n ∨ pixelCount < size * 8 / n) := by
  have hcount : Driver.byteCount n pixelCount ≤ available.length := by
    have := byteCount_mul_le n pixelCount
    omega
  constructor
  · obtain ⟨t, happended, hd⟩ :=
      @appender_native _ _ _ _ n size pixelCount color hnative hserves hcount
    obtain ⟨hwritten, hhanded, -⟩ :=
      happended.flush pixdata_recorder (by simp [Driver.nativePixels])
    have hlength : (available.take (Driver.byteCount n pixelCount)).length =
        Driver.byteCount n pixelCount := by rw [List.length_take, Nat.min_eq_left hcount]
    rw [hd, hwritten]
    rintro ⟨hfits, heq⟩
    have hbits : handedBits n (size * 8 / n * n / 8) (Driver.byteCount n pixelCount) =
        pixelCount * n := by
      rw [heq, List.length_take, length_bytes, Nat.min_eq_left henough, hlength] at hhanded
      exact hhanded.symm
    have hbytes : Driver.byteCount n pixelCount * 8 = pixelCount * n :=
      (byteCount_mul_le n pixelCount).antisymm (hbits.symm.trans_le (handedBits_le _ _ _))
    obtain ⟨hlt, hdvd⟩ := (byteCount_mul_eq_iff n pixelCount).mp hbytes
    refine or_iff_not_imp_left.mpr fun hsome => ⟨?_, hlt, hdvd, ?_⟩
    · by_contra hlarge
      have hzero : size * 8 / n * n / 8 = 0 := by
        rw [Nat.div_eq_of_lt (Nat.lt_of_not_le hlarge), Nat.zero_mul, Nat.zero_div]
      have hone : 1 * n ≤ pixelCount * n := Nat.mul_le_mul_right n (Nat.pos_of_ne_zero hsome)
      rw [happended.beyond hzero, hlength, hbytes] at hfits
      omega
    · by_contra hcase
      obtain ⟨hpart, hmany⟩ := not_or.mp hcase
      have hmany : size * 8 / n ≤ pixelCount := Nat.le_of_not_lt hmany
      have hsize : 0 < size * 8 / n := Nat.pos_of_ne_zero fun hzero => hpart (by simp [hzero])
      obtain ⟨hlimit, hcut⟩ := limit_part hnative hsize hpart
      have hreached : size * 8 / n * n ≤ pixelCount * n := Nat.mul_le_mul_right n hmany
      have hfull : size * 8 / n * n / 8 ≤ Driver.byteCount n pixelCount := by omega
      exact (handedBits_lt hlimit hfull hcut).ne (hbits.trans hbytes.symm)
  · rintro (rfl | ⟨hle, hlt, hdvd, hcase⟩)
    · have hnone : Driver.byteCount n 0 = 0 := by simp [Driver.byteCount]
      refine native_exact hnative hserves henough (by simp [hnone]) (Or.inl rfl) ?_
        (by simp [hnone])
      rw [hnone]
      rcases Nat.eq_zero_or_pos (size * 8 / n * n / 8) with hzero | hpos
      · exact Or.inl (by simp [hzero])
      · exact Or.inr hpos
    · have hbytes := (byteCount_mul_eq_iff n pixelCount).mpr ⟨hlt, hdvd⟩
      have hsize : 0 < size * 8 / n := Nat.div_pos hle (by omega)
      have hlimit : 0 < size * 8 / n * n / 8 :=
        Nat.div_pos (hnative.le.trans (Nat.le_mul_of_pos_left n hsize)) (by decide)
      obtain ⟨hfull, hlast⟩ := whole_pixels hnative hbytes hcase
      exact native_exact hnative hserves henough hbytes (Or.inr hlimit) hfull hlast

/-- The pixels that so many bytes hold. -/
def pixelsIn (bpp bytes : ℕ) : ℕ := if bpp ≤ 8 then bytes * (8 / bpp) else bytes * 8 / bpp

/-- The pixels of an image fit the buffer and are handed over in order, each once, if there are
none, or if a pixel fits the buffer and native data are counted without overflow and sent as whole
bytes and whole pixels, and only then. -/
theorem appender_exact_iff (hn : 0 < n) (hbpp : 0 < bpp) (hformat : bpp ≤ 8 ∨ bpp = n)
    (hserves : (pull input available.length s).1 = available.map some)
    (henough : pixelCount ≤ pixelsIn bpp available.length) :
    let d := ((recorder n size color).appender input bpp pixelCount s {}).2.2
    (d.written ≤ size * 8 ∧ d.handed = pixelBits n color bpp pixelCount available) ↔
      pixelCount = 0 ∨ n ≤ size * 8 ∧
        (bpp ≤ 8 ∨ pixelCount * n < 2 ^ 32 ∧ 8 ∣ pixelCount * n ∧
          (8 ∣ size * 8 / n * n ∨ pixelCount < size * 8 / n)) := by
  by_cases hpalette : bpp ≤ 8
  · rw [pixelsIn, if_pos hpalette] at henough
    simp only [pixelBits, hpalette, if_true, true_or, and_true]
    exact palette_exact_iff hn hbpp hpalette hserves henough
  · obtain rfl : bpp = n := hformat.resolve_left hpalette
    rw [pixelsIn, if_neg hpalette, Nat.le_div_iff_mul_le hn] at henough
    simp only [pixelBits, hpalette, if_false, false_or]
    exact native_exact_iff (Nat.lt_of_not_le hpalette) hserves henough

/-- Three native pixels, of which two fill the buffer. -/
theorem appender_exact_iff_three :
    let d := ((recorder 16 4 fun _ => 0).appender byteUncompressedDecoder 16 3
      (prepareRleInput (.ofFile [1, 2, 3, 4, 5, 6] 0)) {}).2.2
    d.written ≤ 4 * 8 ∧ d.handed = pixelBits 16 (fun _ => 0) 16 3 [1, 2, 3, 4, 5, 6] :=
  (@appender_exact_iff _ _ [1, 2, 3, 4, 5, 6] _ _ _ _ _ _ (by decide) (by decide) (.inr rfl) rfl
    (by decide)).mpr (.inr ⟨by decide, .inr ⟨by decide, by decide, .inl (by decide)⟩⟩)

theorem expand_zeros (k : ℕ) :
    expand .marker (List.replicate k [(127 : UInt8), 0]).flatten = List.replicate (k * 127) 0 := by
  induction k with
  | zero => rfl
  | succ k ih =>
    rw [List.replicate_succ, List.flatten_cons, Nat.succ_mul, Nat.add_comm, List.replicate_add,
      ← ih]
    rfl

theorem zeros_lost {k : ℕ} (hk : 2 ^ 29 ≤ k * 127) :
    let image := (List.replicate k [(127 : UInt8), 0]).flatten
    let d := ((recorder 16 1024 fun _ => 0).appender Compression.rle.decoder 16 (2 ^ 28)
      (prepareRleInput (.ofFile image 0)) {}).2.2
    2 ^ 28 ≤ pixelsIn 16 (Compression.rle.available image).length ∧
      ¬ (d.written ≤ 1024 * 8 ∧
        d.handed = pixelBits 16 (fun _ => 0) 16 (2 ^ 28) (Compression.rle.available image)) := by
  intro image d
  have hlength : (Compression.rle.available image).length = k * 127 := by
    rw [Compression.available, expand_zeros, List.length_replicate]
  have henough : 2 ^ 28 * 16 ≤ (Compression.rle.available image).length * 8 := by
    rw [hlength]
    omega
  have hserves := pull_available .rle (MemoryStream.holds_ofFile (b := image) (a := []) rfl rfl)
  refine ⟨(Nat.le_div_iff_mul_le (by decide)).mpr henough, fun hexact => ?_⟩
  have hcase := (native_exact_iff (by decide) hserves henough).mp hexact
  omega

/-- The bits of 16384 × 16384 pixels are too many for 32 bits, and no byte is asked for. -/
theorem manyPixels_lost :
    let image := (List.replicate 4227331 [(127 : UInt8), 0]).flatten
    let d := ((recorder 16 1024 fun _ => 0).appender Compression.rle.decoder 16 (2 ^ 28)
      (prepareRleInput (.ofFile image 0)) {}).2.2
    2 ^ 28 ≤ pixelsIn 16 (Compression.rle.available image).length ∧
      ¬ (d.written ≤ 1024 * 8 ∧
        d.handed = pixelBits 16 (fun _ => 0) 16 (2 ^ 28) (Compression.rle.available image)) :=
  zeros_lost (by decide)

end Handed

end Qmk.Painter
