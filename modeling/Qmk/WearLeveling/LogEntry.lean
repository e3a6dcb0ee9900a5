import Mathlib.Tactic
import Qmk.Memory

/-! # Configuration and write log entries

The compile-time configuration of the wear-leveling layer, and the three log
entry encodings: multi-byte entries, single bytes below address 64 and 16-bit
words of value 0 or 1. Every maker is inverted by its getters.
-/

namespace Qmk.WearLeveling

/-- `BACKING_STORE_WRITE_SIZE`, the size of `backing_store_int_t`. -/
inductive WriteSize | two | four | eight
  deriving DecidableEq, Repr

def WriteSize.bytes : WriteSize → ℕ
  | two => 2
  | four => 4
  | eight => 8

/-- A configuration accepted by the compile-time validation. Addresses are `uint32_t` in the source.
Those of the log stay within the backing size, so natural numbers compute the same values; an
address or a length that a caller supplies is any `uint32_t`, see `Op.NoWrap`. -/
structure Config where
  writeSize : WriteSize
  backingSize : ℕ
  logicalSize : ℕ
  backing_ge : logicalSize * 2 ≤ backingSize
  logical_mod : logicalSize % writeSize.bytes = 0
  backing_mod : backingSize % logicalSize = 0

namespace Config

variable (cfg : Config)

/-- The number of bytes of one backing store word. -/
def wordBytes : ℕ := cfg.writeSize.bytes

/-- The log starts after the consolidated data and its 8-byte hash. -/
def logStart : ℕ := cfg.logicalSize + 8

theorem wordBytes_cases : cfg.wordBytes = 2 ∨ cfg.wordBytes = 4 ∨ cfg.wordBytes = 8 := by
  unfold wordBytes; cases cfg.writeSize <;> simp [WriteSize.bytes]

theorem wordBytes_pos : 0 < cfg.wordBytes := by
  rcases cfg.wordBytes_cases with h | h | h <;> omega

theorem wordBytes_dvd_logical : cfg.wordBytes ∣ cfg.logicalSize :=
  Nat.dvd_of_mod_eq_zero cfg.logical_mod

theorem wordBytes_dvd_backing : cfg.wordBytes ∣ cfg.backingSize :=
  cfg.wordBytes_dvd_logical.trans (Nat.dvd_of_mod_eq_zero cfg.backing_mod)

theorem wordBytes_dvd_eight : cfg.wordBytes ∣ 8 := by
  rcases cfg.wordBytes_cases with h | h | h <;> rw [h] <;> decide

theorem wordBytes_dvd_logStart : cfg.wordBytes ∣ cfg.logStart :=
  (Nat.dvd_add_right cfg.wordBytes_dvd_logical).mpr cfg.wordBytes_dvd_eight

theorem logStart_lt (h : 8 < cfg.logicalSize) : cfg.logStart < cfg.backingSize := by
  have := cfg.backing_ge
  unfold logStart; omega

end Config

/-- The `raw8` view of `write_log_entry_t`. -/
abbrev Raw8 := ℕ → UInt8

def bitmaskForBitcount (n : ℕ) : ℕ := (1 <<< n) - 1

/-- Log entry type discriminator; the fourth two-bit pattern is not a type. -/
inductive LogEntryType | multibyte | optimized64 | word01
  deriving DecidableEq, Repr

def LogEntryType.code : LogEntryType → ℕ
  | multibyte => 0
  | optimized64 => 1
  | word01 => 2

def logEntryGetType (log : Raw8) : ℕ := ((log 0).toNat >>> 6) &&& bitmaskForBitcount 2

def logEntryMultibyteMaxBytes : ℕ := 5

def logEntryMultibyteGetAddress (log : Raw8) : ℕ :=
  ((log 0).toNat &&& bitmaskForBitcount 3) <<< 16 ||| (log 1).toNat <<< 8 ||| (log 2).toNat

def logEntryMultibyteGetLength (log : Raw8) : ℕ :=
  ((log 0).toNat >>> 3) &&& bitmaskForBitcount 3

def logEntryMakeMultibyte (address length : ℕ) : List UInt8 :=
  [UInt8.ofNat ((LogEntryType.multibyte.code &&& bitmaskForBitcount 2) <<< 6 |||
      (length &&& bitmaskForBitcount 3) <<< 3 ||| ((address >>> 16) &&& bitmaskForBitcount 3)),
    UInt8.ofNat (address >>> 8), UInt8.ofNat address, 0, 0, 0, 0, 0]

def logEntryOptimized64GetAddress (log : Raw8) : ℕ := (log 0).toNat &&& bitmaskForBitcount 6

def logEntryOptimized64GetValue (log : Raw8) : UInt8 := log 1

def logEntryMakeOptimized64 (address : ℕ) (value : UInt8) : List UInt8 :=
  [UInt8.ofNat ((LogEntryType.optimized64.code &&& bitmaskForBitcount 2) <<< 6 |||
      (address &&& bitmaskForBitcount 6)), value, 0, 0, 0, 0, 0, 0]

def logEntryWord01GetAddress (log : Raw8) : ℕ :=
  ((log 0).toNat &&& bitmaskForBitcount 5) <<< 9 ||| (log 1).toNat <<< 1

def logEntryWord01GetValue (log : Raw8) : ℕ := ((log 0).toNat >>> 5) &&& bitmaskForBitcount 1

def logEntryMakeWord01 (address value : ℕ) : List UInt8 :=
  [UInt8.ofNat ((LogEntryType.word01.code &&& bitmaskForBitcount 2) <<< 6 |||
      ((if value ≠ 0 then 1 else 0) &&& bitmaskForBitcount 1) <<< 5 |||
      ((address >>> 9) &&& bitmaskForBitcount 5)),
    UInt8.ofNat (address >>> 1), 0, 0, 0, 0, 0, 0]

theorem and_bitmask (x n : ℕ) : x &&& bitmaskForBitcount n = x % 2 ^ n := by
  rw [bitmaskForBitcount, Nat.one_shiftLeft, Nat.and_two_pow_sub_one_eq_mod]

theorem shiftLeft_or {x y n : ℕ} (h : y < 2 ^ n) : x <<< n ||| y = x * 2 ^ n + y := by
  rw [← Nat.shiftLeft_add_eq_or_of_lt h, Nat.shiftLeft_eq]

theorem getType_eq (log : Raw8) : logEntryGetType log = (log 0).toNat / 64 := by
  have := (log 0).toNat_lt
  rw [logEntryGetType, and_bitmask, Nat.shiftRight_eq_div_pow]
  omega

theorem multibyteGetAddress_eq (log : Raw8) : logEntryMultibyteGetAddress log =
    (log 0).toNat % 8 * 65536 + (log 1).toNat * 256 + (log 2).toNat := by
  have h1 := (log 1).toNat_lt
  have h2 := (log 2).toNat_lt
  rw [logEntryMultibyteGetAddress, and_bitmask, Nat.or_assoc, shiftLeft_or h2,
    shiftLeft_or (by omega)]
  omega

theorem multibyteGetLength_eq (log : Raw8) :
    logEntryMultibyteGetLength log = (log 0).toNat / 8 % 8 := by
  simp only [logEntryMultibyteGetLength, and_bitmask, Nat.shiftRight_eq_div_pow, Nat.reducePow]

theorem optimized64GetAddress_eq (log : Raw8) :
    logEntryOptimized64GetAddress log = (log 0).toNat % 64 := by
  simp only [logEntryOptimized64GetAddress, and_bitmask, Nat.reducePow]

theorem word01GetAddress_eq (log : Raw8) : logEntryWord01GetAddress log =
    (log 0).toNat % 32 * 512 + (log 1).toNat * 2 := by
  have h1 := (log 1).toNat_lt
  rw [logEntryWord01GetAddress, and_bitmask, Nat.shiftLeft_eq (log 1).toNat,
    shiftLeft_or (by omega)]
  simp only [Nat.reducePow, Nat.pow_one]

theorem word01GetValue_eq (log : Raw8) :
    logEntryWord01GetValue log = (log 0).toNat / 32 % 2 := by
  simp only [logEntryWord01GetValue, and_bitmask, Nat.shiftRight_eq_div_pow, Nat.reducePow,
    Nat.pow_one]

/-- The header of a multi-byte entry spelled out in arithmetic. -/
theorem makeMultibyte_eq {address length : ℕ} (hl : length < 8) :
    logEntryMakeMultibyte address length =
      [UInt8.ofNat (length * 8 + address / 65536 % 8), UInt8.ofNat (address / 256),
        UInt8.ofNat address, 0, 0, 0, 0, 0] := by
  have h : length <<< 3 ||| address / 65536 % 8 = length * 8 + address / 65536 % 8 :=
    shiftLeft_or (by omega)
  simp only [logEntryMakeMultibyte, and_bitmask, LogEntryType.code, Nat.shiftRight_eq_div_pow,
    Nat.reducePow, Nat.mod_eq_of_lt hl, Nat.zero_mod, Nat.zero_shiftLeft, Nat.zero_or, h]

theorem makeOptimized64_eq {address : ℕ} (value : UInt8) (ha : address < 64) :
    logEntryMakeOptimized64 address value =
      [UInt8.ofNat (64 + address), value, 0, 0, 0, 0, 0, 0] := by
  have h : 1 <<< 6 ||| address = 1 * 64 + address := shiftLeft_or (by omega)
  simp only [logEntryMakeOptimized64, and_bitmask, LogEntryType.code]
  simp only [Nat.reducePow, Nat.reduceMod, Nat.mod_eq_of_lt ha, h, Nat.one_mul]

theorem makeWord01_eq {address value : ℕ} (ha : address < 16384) (hv : value = 0 ∨ value = 1) :
    logEntryMakeWord01 address value =
      [UInt8.ofNat (128 + value * 32 + address / 512), UInt8.ofNat (address / 2),
        0, 0, 0, 0, 0, 0] := by
  have h5 : value <<< 5 ||| address / 512 = value * 32 + address / 512 := shiftLeft_or (by omega)
  have h6 : 2 <<< 6 ||| (value * 32 + address / 512) = 2 * 64 + (value * 32 + address / 512) :=
    shiftLeft_or (by omega)
  have hb : (if value ≠ 0 then 1 else 0) = value := by rcases hv with rfl | rfl <;> rfl
  simp only [logEntryMakeWord01, and_bitmask, LogEntryType.code, Nat.shiftRight_eq_div_pow, hb,
    Nat.or_assoc]
  rw [Nat.mod_eq_of_lt (show value < 2 ^ 1 by omega),
    Nat.mod_eq_of_lt (show address / 2 ^ 9 < 2 ^ 5 by omega),
    Nat.mod_eq_of_lt (show 2 < 2 ^ 2 by omega)]
  simp only [Nat.reducePow, h5, h6, Nat.pow_one]
  rw [Nat.add_assoc]

end Qmk.WearLeveling
