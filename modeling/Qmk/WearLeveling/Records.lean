import Qmk.WearLeveling.Replay

/-! # The records of a write

A logical write is split into log records. Each record is a list of words that
playback reads back as one entry with the record's bytes, and applying the
records in order writes the whole value.
-/

namespace Qmk.WearLeveling

/-- An entry as the driver writes it: its words, and the logical bytes it stands for. -/
structure LogRecord where
  words : List (List UInt8)
  address : ℕ
  data : List UInt8

section Definitions

variable (cfg : Config)

def multibyteRecord (address : ℕ) (data : List UInt8) : LogRecord where
  words := (List.range (multibyteWords cfg.writeSize data.length)).map
    (rawWord cfg (multibyteEntry address data))
  address := address
  data := data

def optimized64Record (address : ℕ) (value : UInt8) : LogRecord where
  words := [rawWord cfg (logEntryMakeOptimized64 address value) 0]
  address := address
  data := [value]

def word01Record (address value : ℕ) : LogRecord where
  words := [rawWord cfg (logEntryMakeWord01 address value) 0]
  address := address
  data := [UInt8.ofNat value, 0]

def recordsLoop : ℕ → ℕ → List UInt8 → List LogRecord
  | 0, _, _ => []
  | _ + 1, _, [] => []
  | fuel + 1, address, b :: p =>
    let length := if logEntryMultibyteMaxBytes ≤ (b :: p).length
      then logEntryMultibyteMaxBytes else (b :: p).length
    let multibyte := multibyteRecord cfg address ((b :: p).take length) ::
      recordsLoop fuel (address + length) ((b :: p).drop length)
    if cfg.writeSize = .two then
      match word01Value? address (b :: p) with
      | some v => word01Record cfg address v :: recordsLoop fuel (address + 2) ((b :: p).drop 2)
      | none =>
        if address < 64 then optimized64Record cfg address b :: recordsLoop fuel (address + 1) p
        else multibyte
    else multibyte

/-- The records that `wear_leveling_write_raw` appends. -/
def writeRecords (address : ℕ) (value : List UInt8) : List LogRecord :=
  recordsLoop cfg value.length address value

/-- The address that playback finds in a record of which only the first `j` words are stored: the
low byte of the address is in the second of the 2-byte words. -/
def LogRecord.tornAddress (r : LogRecord) (j : ℕ) : ℕ :=
  if j * cfg.wordBytes = 2 then r.address - r.address % 256 else r.address

/-- The bytes that playback finds in a record of which only the first `j` words are stored. -/
def LogRecord.tornData (r : LogRecord) (j : ℕ) : List UInt8 :=
  r.data.mapIdx fun i b => if j * cfg.wordBytes ≤ 3 + i then 0 else b

/-- Playback reads the words of the record back as its bytes. Erased words in place of the last
ones are not noticed: the record is read back with zeros in place of the missing bytes. -/
structure LogRecord.Sound (r : LogRecord) : Prop where
  word_length : ∀ w ∈ r.words, w.length = cfg.wordBytes
  words_pos : 0 < r.words.length
  data_le : r.data.length ≤ 5
  slotAt_eq : ∀ (m : Mem UInt8) x, m.read x r.words.flatten.length = r.words.flatten →
    slotAt cfg m x = .entry r.words.length r.address r.data
  slotAt_torn : ∀ (m : Mem UInt8) x j, 0 < j → j < r.words.length →
    m.read x (j * cfg.wordBytes) = (r.words.take j).flatten →
    (∀ y, x + j * cfg.wordBytes ≤ y → y < x + r.words.length * cfg.wordBytes → m y = 0) →
    slotAt cfg m x = .entry r.words.length (r.tornAddress cfg j) (r.tornData cfg j)

/-- The record carries the bytes that a write of `value` at `address` puts at its place. -/
structure LogRecord.PartOf (address : ℕ) (value : List UInt8) (r : LogRecord) : Prop where
  le : address ≤ r.address
  end_le : r.address + r.data.length ≤ address + value.length
  data_eq : ∀ i < r.data.length, r.data[i]? = value[r.address - address + i]?

def applyRecords (c : Mem UInt8) (rs : List LogRecord) : Mem UInt8 :=
  rs.foldl (fun c r => c.write r.address r.data) c

end Definitions

variable {cfg : Config}

theorem length_of_mem_words {rs : List LogRecord} (hs : ∀ r ∈ rs, r.Sound cfg) :
    ∀ w ∈ rs.flatMap LogRecord.words, w.length = cfg.wordBytes := by
  intro w hw
  obtain ⟨r, hr, hw⟩ := List.mem_flatMap.mp hw
  exact (hs r hr).word_length w hw

theorem read_ne_zeros (cfg : Config) {m : Mem UInt8} {x : ℕ} (h : (m x).toNat ≠ 0) :
    m.read x cfg.wordBytes ≠ List.replicate cfg.wordBytes 0 := by
  intro he
  have h0 := Mem.getD_read m (a := x) 0 cfg.wordBytes_pos
  rw [he, List.getD_replicate 0 cfg.wordBytes_pos, Nat.add_zero] at h0
  exact h (by rw [← h0]; rfl)

theorem slotAt_multibyte {m : Mem UInt8} {x a l : ℕ} (h0 : (m x).toNat = l * 8 + a / 65536)
    (h1 : (m (x + 1)).toNat = a / 256 % 256) (h2 : (m (x + 2)).toNat = a % 256)
    (hl : 0 < l) (hl' : l < 8) (ha : a < 2 ^ 19) (hr : a + l ≤ cfg.logicalSize) :
    slotAt cfg m x = .entry (multibyteWords cfg.writeSize l) a (m.read (x + 3) l) := by
  have he := read_ne_zeros cfg (m := m) (x := x) (by omega)
  have htype : logEntryGetType (fun i => m (x + i)) = LogEntryType.multibyte.code := by
    rw [getType_eq, Nat.add_zero, h0, LogEntryType.code]; omega
  have hga : logEntryMultibyteGetAddress (fun i => m (x + i)) = a := by
    rw [multibyteGetAddress_eq, Nat.add_zero, h0, h1, h2]; omega
  have hgl : logEntryMultibyteGetLength (fun i => m (x + i)) = l := by
    rw [multibyteGetLength_eq, Nat.add_zero, h0]; omega
  simp only [slotAt, if_neg he, htype, if_true, hga, hgl, if_neg (Nat.not_lt.mpr hr)]

theorem slotAt_optimized64 (hw : cfg.writeSize = .two) {m : Mem UInt8} {x a : ℕ}
    (h0 : (m x).toNat = 64 + a) (ha : a < 64) (hr : a < cfg.logicalSize) :
    slotAt cfg m x = .entry 1 a [m (x + 1)] := by
  have he := read_ne_zeros cfg (m := m) (x := x) (by omega)
  have htype : logEntryGetType (fun i => m (x + i)) = LogEntryType.optimized64.code := by
    rw [getType_eq, Nat.add_zero, h0, LogEntryType.code]; omega
  have hga : logEntryOptimized64GetAddress (fun i => m (x + i)) = a := by
    rw [optimized64GetAddress_eq, Nat.add_zero, h0]; omega
  simp only [slotAt, if_neg he, htype, hw, hga, if_neg (Nat.not_le.mpr hr), LogEntryType.code,
    one_ne_zero, if_false, and_self, if_true, logEntryOptimized64GetValue]

theorem slotAt_word01 (hw : cfg.writeSize = .two) {m : Mem UInt8} {x a v : ℕ}
    (h0 : (m x).toNat = 128 + v * 32 + a / 512) (h1 : (m (x + 1)).toNat = a / 2 % 256)
    (hv : v = 0 ∨ v = 1) (ha : a < 16384) (ha2 : a % 2 = 0) (hr : a + 1 < cfg.logicalSize) :
    slotAt cfg m x = .entry 1 a [UInt8.ofNat v, 0] := by
  have he := read_ne_zeros cfg (m := m) (x := x) (by omega)
  have htype : logEntryGetType (fun i => m (x + i)) = LogEntryType.word01.code := by
    rw [getType_eq, Nat.add_zero, h0, LogEntryType.code]; omega
  have hga : logEntryWord01GetAddress (fun i => m (x + i)) = a := by
    rw [word01GetAddress_eq, Nat.add_zero, h0, h1]; omega
  have hgv : logEntryWord01GetValue (fun i => m (x + i)) = v := by
    rw [word01GetValue_eq, Nat.add_zero, h0]; omega
  simp only [slotAt, if_neg he, htype, hw, hga, hgv, if_neg (Nat.not_le.mpr hr),
    LogEntryType.code, OfNat.ofNat_ne_zero, OfNat.ofNat_ne_one, if_false, and_false, and_self,
    if_true]

theorem flatten_rawWords (log : List UInt8) (k : ℕ) :
    ((List.range k).map (rawWord cfg log)).flatten = log.take (k * cfg.wordBytes) := by
  induction k with
  | zero => simp
  | succ k ih =>
    rw [List.range_succ, List.map_append, List.flatten_append, ih, Nat.succ_mul, List.take_add]
    simp [rawWord]

theorem length_rawWord {log : List UInt8} {i : ℕ} (h : (i + 1) * cfg.wordBytes ≤ log.length) :
    (rawWord cfg log i).length = cfg.wordBytes := by
  rw [Nat.succ_mul] at h
  rw [rawWord, List.length_take, List.length_drop]
  omega

theorem multibyteWords_le (cfg : Config) (l : ℕ) :
    multibyteWords cfg.writeSize l * cfg.wordBytes ≤ 8 := by
  unfold Config.wordBytes
  cases cfg.writeSize <;> simp only [multibyteWords, WriteSize.bytes] <;> (try split_ifs) <;> omega

theorem multibyteEntry_eq {a : ℕ} {data : List UInt8} (hl : data.length ≤ 5) :
    multibyteEntry a data =
      [UInt8.ofNat (data.length * 8 + a / 65536 % 8), UInt8.ofNat (a / 256), UInt8.ofNat a] ++
        data ++ List.replicate (5 - data.length) 0 := by
  rw [multibyteEntry, makeMultibyte_eq (by omega)]
  rcases data with _ | ⟨b0, _ | ⟨b1, _ | ⟨b2, _ | ⟨b3, _ | ⟨b4, _ | ⟨b5, p⟩⟩⟩⟩⟩⟩ <;>
    first | rfl | (simp at hl; omega)

theorem length_multibyteEntry {a : ℕ} {data : List UInt8} (hl : data.length ≤ 5) :
    (multibyteEntry a data).length = 8 := by
  rw [multibyteEntry_eq hl]
  simp
  omega

section MultibyteBytes

variable {a : ℕ} {data : List UInt8}

theorem multibyteEntry_length_byte (hl : data.length ≤ 5) (ha : a < 2 ^ 19) :
    ((multibyteEntry a data).getD 0 0).toNat = data.length * 8 + a / 65536 := by
  rw [multibyteEntry_eq hl]
  simp only [List.cons_append, List.getD_cons_zero, UInt8.toNat_ofNat']
  omega

theorem multibyteEntry_middle_byte (hl : data.length ≤ 5) :
    ((multibyteEntry a data).getD 1 0).toNat = a / 256 % 256 := by
  rw [multibyteEntry_eq hl]
  simp only [List.cons_append, List.getD_cons_succ, List.getD_cons_zero, UInt8.toNat_ofNat']

theorem multibyteEntry_low_byte (hl : data.length ≤ 5) :
    ((multibyteEntry a data).getD 2 0).toNat = a % 256 := by
  rw [multibyteEntry_eq hl]
  simp only [List.cons_append, List.getD_cons_succ, List.getD_cons_zero, UInt8.toNat_ofNat']

theorem multibyteEntry_payload (hl : data.length ≤ 5) {i : ℕ} (hi : i < data.length) :
    (multibyteEntry a data).getD (3 + i) 0 = data[i] := by
  rw [multibyteEntry_eq hl, List.append_assoc, List.getD_append_right _ _ _ _ (by simp),
    List.getD_append _ _ _ _ (by simpa using hi), List.getD_eq_getElem _ _ (by simpa using hi)]
  simp

end MultibyteBytes

theorem read_eq_take_iff {m : Mem UInt8} {x n : ℕ} {l : List UInt8} (hn : n ≤ l.length) :
    m.read x n = l.take n ↔ ∀ i < n, m (x + i) = l.getD i 0 := by
  have hlen : (l.take n).length = n := by simp [hn]
  constructor
  · intro h i hi
    rw [← Mem.getD_read m 0 hi, h, List.getD_eq_getElem _ _ (by omega),
      List.getD_eq_getElem _ _ (by omega), List.getElem_take]
  · intro h
    refine List.ext_getElem (by simp [hn]) fun i hi hi' => ?_
    rw [Mem.getElem_read, h i (by simpa using hi), List.getElem_take,
      List.getD_eq_getElem _ _ (by simp at hi'; omega)]

/-- The tear after the first 2-byte word loses a part of the header; every other tear keeps it. -/
theorem tear_cases (cfg : Config) {j : ℕ} (hj : 0 < j) :
    j * cfg.wordBytes = 2 ∨ 4 ≤ j * cfg.wordBytes := by
  rcases cfg.wordBytes_cases with h | h | h <;> rw [h] <;> omega

theorem multibyteRecord_torn (hU : cfg.logicalSize ≤ 2 ^ 19) {a : ℕ} {data : List UInt8}
    (hd : 0 < data.length) (hl : data.length ≤ 5) (hr : a + data.length ≤ cfg.logicalSize)
    {m : Mem UInt8} {x j : ℕ} (hj : 0 < j) (hj' : j < (multibyteRecord cfg a data).words.length)
    (hm : m.read x (j * cfg.wordBytes) = ((multibyteRecord cfg a data).words.take j).flatten)
    (hz : ∀ y, x + j * cfg.wordBytes ≤ y →
      y < x + (multibyteRecord cfg a data).words.length * cfg.wordBytes → m y = 0) :
    slotAt cfg m x = .entry (multibyteRecord cfg a data).words.length
      ((multibyteRecord cfg a data).tornAddress cfg j)
      ((multibyteRecord cfg a data).tornData cfg j) := by
  have hN : (multibyteRecord cfg a data).words.length =
      multibyteWords cfg.writeSize data.length := by
    simp [multibyteRecord]
  rw [hN] at hj' hz ⊢
  have h8 := multibyteWords_le cfg data.length
  have hjN : (j + 1) * cfg.wordBytes ≤ multibyteWords cfg.writeSize data.length * cfg.wordBytes :=
    Nat.mul_le_mul_right _ hj'
  rw [Nat.succ_mul] at hjN
  have hlen := length_multibyteEntry (a := a) hl
  have htake : ((multibyteRecord cfg a data).words.take j).flatten =
      (multibyteEntry a data).take (j * cfg.wordBytes) := by
    rw [multibyteRecord, ← List.map_take, List.take_range, Nat.min_eq_left hj'.le,
      flatten_rawWords]
  rw [htake] at hm
  have hb := (read_eq_take_iff (by omega)).mp hm
  have hpos := tear_cases cfg hj
  have hdata : ∀ i, i < data.length → 3 + i < j * cfg.wordBytes →
      m (x + 3 + i) = data.getD i 0 := by
    intro i hi hij
    rw [Nat.add_assoc, hb _ hij, multibyteEntry_payload hl hi, List.getD_eq_getElem _ _ hi]
  have hzero : ∀ i, i < data.length → j * cfg.wordBytes ≤ 3 + i → m (x + 3 + i) = 0 := by
    intro i hi hij
    have := payload_lt_multibyteWords cfg hl hi
    exact hz _ (by omega) (by omega)
  have hread : m.read (x + 3) data.length = (multibyteRecord cfg a data).tornData cfg j := by
    refine List.ext_getElem (by simp [LogRecord.tornData, multibyteRecord]) fun i hi _ => ?_
    rw [Mem.length_read] at hi
    simp only [Mem.getElem_read, LogRecord.tornData, List.getElem_mapIdx]
    split_ifs with hij
    · exact hzero i hi hij
    · rw [hdata i hi (by omega), List.getD_eq_getElem _ _ hi]
      rfl
  have h0 := congrArg UInt8.toNat (hb 0 (by omega))
  have h1 := congrArg UInt8.toNat (hb 1 (by omega))
  rw [multibyteEntry_length_byte hl (by omega), Nat.add_zero] at h0
  rw [multibyteEntry_middle_byte hl] at h1
  rw [← hread]
  rcases hpos with h2 | h4
  · have hlow : m (x + 2) = 0 := hz _ (by omega) (by have := cfg.wordBytes_pos; omega)
    rw [LogRecord.tornAddress, if_pos h2]
    exact slotAt_multibyte (by simp only [multibyteRecord]; omega)
      (by simp only [multibyteRecord]; omega)
      (by rw [hlow, UInt8.toNat_zero]; simp only [multibyteRecord]; omega) hd (by omega)
      (by simp only [multibyteRecord]; omega) (by simp only [multibyteRecord]; omega)
  · have hlow := congrArg UInt8.toNat (hb 2 (by omega))
    rw [multibyteEntry_low_byte hl] at hlow
    rw [LogRecord.tornAddress, if_neg (by omega)]
    exact slotAt_multibyte h0 h1 hlow hd (by omega) (by simp only [multibyteRecord]; omega) hr

theorem multibyteRecord_sound (hU : cfg.logicalSize ≤ 2 ^ 19) {a : ℕ} {data : List UInt8}
    (hd : 0 < data.length) (hl : data.length ≤ 5) (hr : a + data.length ≤ cfg.logicalSize) :
    (multibyteRecord cfg a data).Sound cfg where
  word_length := by
    intro w hw
    obtain ⟨i, hi, rfl⟩ := List.mem_map.mp hw
    have h8 := multibyteWords_le cfg data.length
    have hi' := Nat.mul_le_mul_right cfg.wordBytes (List.mem_range.mp hi)
    exact length_rawWord (by rw [length_multibyteEntry hl]; exact hi'.trans h8)
  words_pos := by
    simpa [multibyteRecord] using multibyteWords_pos cfg.writeSize data.length
  data_le := hl
  slotAt_eq := by
    intro m x hm
    have h8 := multibyteWords_le cfg data.length
    have h3 := header_le_multibyteWords cfg data.length
    have hlen := length_multibyteEntry (a := a) hl
    simp only [multibyteRecord, flatten_rawWords, List.length_take, hlen, Nat.min_eq_left h8] at hm
    have hb := (read_eq_take_iff (by omega)).mp hm
    have h0 := congrArg UInt8.toNat (hb 0 (by omega))
    have h1 := congrArg UInt8.toNat (hb 1 (by omega))
    have h2 := congrArg UInt8.toNat (hb 2 (by omega))
    rw [multibyteEntry_length_byte hl (by omega), Nat.add_zero] at h0
    rw [multibyteEntry_middle_byte hl] at h1
    rw [multibyteEntry_low_byte hl] at h2
    rw [slotAt_multibyte h0 h1 h2 hd (by omega) (by omega) hr]
    have hp : m.read (x + 3) data.length = data := Mem.read_eq_list_iff.mpr fun i hi => by
      have hi' := payload_lt_multibyteWords cfg hl hi
      rw [Nat.add_assoc, hb _ hi', multibyteEntry_payload hl hi]
    simp [multibyteRecord, hp]
  slotAt_torn := fun _ _ _ hj hj' hm hz => multibyteRecord_torn hU hd hl hr hj hj' hm hz

theorem optimized64Record_sound (hw : cfg.writeSize = .two) {a : ℕ} (b : UInt8) (ha : a < 64)
    (hr : a < cfg.logicalSize) : (optimized64Record cfg a b).Sound cfg where
  word_length := by
    intro w h
    rw [List.mem_singleton.mp h]
    exact length_rawWord (by simp [logEntryMakeOptimized64, Config.wordBytes, hw, WriteSize.bytes])
  words_pos := Nat.one_pos
  data_le := by simp [optimized64Record]
  slotAt_eq := by
    intro m x hm
    have hb : [m x, m (x + 1)] = [UInt8.ofNat (64 + a), b] := by
      simpa [optimized64Record, rawWord, makeOptimized64_eq b ha, Config.wordBytes, hw,
        WriteSize.bytes, Mem.read, List.range_succ] using hm
    simp only [List.cons.injEq, and_true] at hb
    have h0 := congrArg UInt8.toNat hb.1
    rw [UInt8.toNat_ofNat'] at h0
    rw [slotAt_optimized64 hw (a := a) (by omega) ha hr, hb.2]
    rfl
  slotAt_torn := fun _ _ _ hj hj' => absurd hj' (Nat.not_lt.mpr hj)

theorem word01Record_sound (hw : cfg.writeSize = .two) {a v : ℕ} (hv : v = 0 ∨ v = 1)
    (ha : a < 16384) (ha2 : a % 2 = 0) (hr : a + 1 < cfg.logicalSize) :
    (word01Record cfg a v).Sound cfg where
  word_length := by
    intro w h
    rw [List.mem_singleton.mp h]
    exact length_rawWord (by simp [logEntryMakeWord01, Config.wordBytes, hw, WriteSize.bytes])
  words_pos := Nat.one_pos
  data_le := by simp [word01Record]
  slotAt_eq := by
    intro m x hm
    have hb : [m x, m (x + 1)] =
        [UInt8.ofNat (128 + v * 32 + a / 512), UInt8.ofNat (a / 2)] := by
      simpa [word01Record, rawWord, makeWord01_eq ha hv, Config.wordBytes, hw, WriteSize.bytes,
        Mem.read, List.range_succ] using hm
    simp only [List.cons.injEq, and_true] at hb
    have h0 := congrArg UInt8.toNat hb.1
    have h1 := congrArg UInt8.toNat hb.2
    rw [UInt8.toNat_ofNat'] at h0 h1
    rw [slotAt_word01 hw (a := a) (v := v) (by omega) (by omega) hv ha ha2 hr]
    rfl
  slotAt_torn := fun _ _ _ hj hj' => absurd hj' (Nat.not_lt.mpr hj)

theorem word01Value?_eq_some {a v : ℕ} {b : UInt8} {p : List UInt8}
    (h : word01Value? a (b :: p) = some v) :
    a % 2 = 0 ∧ a < 16384 ∧ (v = 0 ∨ v = 1) ∧ ∃ p', b :: p = UInt8.ofNat v :: 0 :: p' := by
  rcases p with _ | ⟨b1, p⟩
  · simp [word01Value?] at h
  simp only [word01Value?] at h
  split_ifs at h with hc
  obtain ⟨h2, h14, hv⟩ := hc
  obtain rfl := Option.some.inj h
  have hb := b.toNat_lt
  rw [shiftLeft_or hb] at hv
  have hb1 : b1 = 0 := UInt8.toNat_inj.mp (by rw [UInt8.toNat_zero]; omega)
  have hb0 : b = UInt8.ofNat (b1.toNat <<< 8 ||| b.toNat) := UInt8.toNat_inj.mp (by
    rw [shiftLeft_or hb, UInt8.toNat_ofNat']; omega)
  refine ⟨h2, h14, by rwa [shiftLeft_or hb], p, ?_⟩
  rw [← hb0, hb1]

/-- The multi-byte chunk of a non-empty value is one to five bytes long. -/
theorem chunk_length {b : UInt8} {p : List UInt8} {n : ℕ}
    (hn : n = if logEntryMultibyteMaxBytes ≤ (b :: p).length then logEntryMultibyteMaxBytes
      else (b :: p).length) : 0 < n ∧ n ≤ 5 ∧ n ≤ (b :: p).length := by
  unfold logEntryMultibyteMaxBytes at hn
  rw [List.length_cons] at *
  split_ifs at hn <;> omega

/-- One pass of the write loop takes a non-empty block off the value and records it. -/
theorem recordsLoop_cons (cfg : Config) (fuel a : ℕ) (b : UInt8) (p : List UInt8) :
    ∃ r n, recordsLoop cfg (fuel + 1) a (b :: p) =
        r :: recordsLoop cfg fuel (a + n) ((b :: p).drop n) ∧
      0 < n ∧ n ≤ (b :: p).length ∧ r.address = a ∧ r.data = (b :: p).take n ∧
      (cfg.logicalSize ≤ 2 ^ 19 → a + (b :: p).length ≤ cfg.logicalSize → r.Sound cfg) := by
  simp only [recordsLoop]
  generalize hn : (if logEntryMultibyteMaxBytes ≤ (b :: p).length then logEntryMultibyteMaxBytes
      else (b :: p).length) = n
  obtain ⟨hpos, h5, hle⟩ := chunk_length hn.symm
  have hm : ∃ r k, multibyteRecord cfg a ((b :: p).take n) ::
      recordsLoop cfg fuel (a + n) ((b :: p).drop n) =
        r :: recordsLoop cfg fuel (a + k) ((b :: p).drop k) ∧
      0 < k ∧ k ≤ (b :: p).length ∧ r.address = a ∧ r.data = (b :: p).take k ∧
      (cfg.logicalSize ≤ 2 ^ 19 → a + (b :: p).length ≤ cfg.logicalSize → r.Sound cfg) := by
    have hlen : ((b :: p).take n).length = n := by rw [List.length_take]; omega
    refine ⟨_, n, rfl, hpos, hle, rfl, rfl, fun hU hr => ?_⟩
    exact multibyteRecord_sound hU (by omega) (by omega) (by omega)
  by_cases hw : cfg.writeSize = .two
  · rw [if_pos hw]
    cases hv : word01Value? a (b :: p) with
    | some v =>
      obtain ⟨h2, h14, hv01, p', hp⟩ := word01Value?_eq_some hv
      rw [hp]
      refine ⟨_, 2, rfl, by simp, by simp, rfl, rfl, fun _ hr => ?_⟩
      exact word01Record_sound hw hv01 h14 h2 (by simp at hr; omega)
    | none =>
      simp only
      split_ifs with h64
      · exact ⟨_, 1, rfl, by simp, by simp, rfl, rfl, fun _ hr =>
          optimized64Record_sound hw b h64 (by simp at hr; omega)⟩
      · exact hm
  · rw [if_neg hw]
    exact hm

theorem recordsLoop_sound (hU : cfg.logicalSize ≤ 2 ^ 19) {fuel a : ℕ} {p : List UInt8}
    (hr : a + p.length ≤ cfg.logicalSize) : ∀ r ∈ recordsLoop cfg fuel a p, r.Sound cfg := by
  induction fuel generalizing a p with
  | zero => simp [recordsLoop]
  | succ fuel ih =>
    cases p with
    | nil => simp [recordsLoop]
    | cons b p =>
      obtain ⟨r, n, he, hn, hle, _, _, hs⟩ := recordsLoop_cons cfg fuel a b p
      rw [he]
      intro r' hr'
      rcases List.mem_cons.mp hr' with rfl | hr'
      · exact hs hU hr
      · exact ih (by rw [List.length_drop]; omega) r' hr'

theorem applyRecords_recordsLoop {fuel a : ℕ} {p : List UInt8} (hf : p.length ≤ fuel)
    (c : Mem UInt8) : applyRecords c (recordsLoop cfg fuel a p) = c.write a p := by
  induction fuel generalizing a p c with
  | zero => simp [List.length_eq_zero_iff.mp (Nat.le_zero.mp hf), recordsLoop, applyRecords]
  | succ fuel ih =>
    cases p with
    | nil => simp [recordsLoop, applyRecords]
    | cons b p =>
      obtain ⟨r, n, he, hn, hle, ha, hd, _⟩ := recordsLoop_cons cfg fuel a b p
      have hlen : ((b :: p).take n).length = n := by rw [List.length_take]; omega
      rw [he]
      change applyRecords (c.write r.address r.data) _ = _
      rw [ih (by rw [List.length_drop]; omega), ha, hd]
      have hw := Mem.write_append c a ((b :: p).take n) ((b :: p).drop n)
      rw [List.take_append_drop, hlen] at hw
      exact hw.symm

theorem recordsLoop_partOf {fuel a : ℕ} {p : List UInt8} :
    ∀ r ∈ recordsLoop cfg fuel a p, r.PartOf a p := by
  induction fuel generalizing a p with
  | zero => simp [recordsLoop]
  | succ fuel ih =>
    cases p with
    | nil => simp [recordsLoop]
    | cons b p =>
      obtain ⟨r, n, he, hn, hle, ha, hd, _⟩ := recordsLoop_cons cfg fuel a b p
      rw [he]
      intro r' hr'
      rcases List.mem_cons.mp hr' with rfl | hr'
      · refine ⟨ha.ge, by rw [ha, hd, List.length_take]; omega, fun i hi => ?_⟩
        rw [hd, List.length_take] at hi
        rw [ha, hd, Nat.sub_self, Nat.zero_add, List.getElem?_take_of_lt (by omega)]
      · obtain ⟨h₁, h₂, h₃⟩ := ih r' hr'
        rw [List.length_drop] at h₂
        refine ⟨by omega, by omega, fun i hi => ?_⟩
        rw [h₃ i hi, List.getElem?_drop]
        congr 1
        omega

theorem writeRecords_partOf {a : ℕ} {p : List UInt8} :
    ∀ r ∈ writeRecords cfg a p, r.PartOf a p :=
  recordsLoop_partOf

theorem LogRecord.PartOf.write_eq {r : LogRecord} {a : ℕ} {v : List UInt8} (h : r.PartOf a v)
    (c : Mem UInt8) {i : ℕ} (hi : i < r.data.length) : c.write a v (r.address + i) = r.data[i] := by
  have hle := h.le
  have hend := h.end_le
  have hd := h.data_eq i hi
  have hlt : r.address + i - a < v.length := by omega
  rw [Mem.write_of_mem _ (by omega) hlt]
  rw [List.getElem?_eq_getElem hi, show r.address - a + i = r.address + i - a by omega,
    List.getElem?_eq_getElem hlt] at hd
  exact (Option.some.inj hd).symm

theorem writeRecords_sound (hU : cfg.logicalSize ≤ 2 ^ 19) {a : ℕ} {p : List UInt8}
    (hr : a + p.length ≤ cfg.logicalSize) : ∀ r ∈ writeRecords cfg a p, r.Sound cfg :=
  recordsLoop_sound hU hr

theorem applyRecords_writeRecords (c : Mem UInt8) (a : ℕ) (p : List UInt8) :
    applyRecords c (writeRecords cfg a p) = c.write a p :=
  applyRecords_recordsLoop le_rfl c

end Qmk.WearLeveling
