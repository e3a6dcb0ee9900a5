import Qmk.Memory
import Mathlib.Data.BitVec

/-! # The legacy emulated EEPROM

The flash area holds a compacted image of the EEPROM, one complemented half-word
for every two bytes, and after it a write log of half-words. `dataBuf` is the
copy in RAM that all reads are served from. The flash is programmed half-word by
half-word, which can only clear bits, and erased as a whole.
-/

namespace Qmk.LegacyEeprom

/-- The sizes that `eeprom_legacy_emulated_flash_defs.h` admits. Every entry of the write log
that names a byte names one of the first 128. -/
structure Config where
  densityBytes : ℕ
  writeLogBytes : ℕ
  density_even : densityBytes % 2 = 0
  writeLog_even : writeLogBytes % 2 = 0
  byteRange_le : 128 ≤ densityBytes
  density_le : densityBytes ≤ 16384

/-- The number of half-words of the compacted area. -/
def Config.words (cfg : Config) : ℕ := cfg.densityBytes / 2

/-- The number of half-words of the write log. -/
def Config.slots (cfg : Config) : ℕ := cfg.writeLogBytes / 2

def feeWordEncoding : BitVec 16 := 0x8000
def feeValueNext : BitVec 16 := 0x6000
def feeValueReserved : BitVec 16 := 0x4000
def feeValueEncoded : BitVec 16 := 0x2000
def feeByteRange : ℕ := 0x80
def feeEmptyWord : BitVec 16 := 0xFFFF

/-- `notWritten` is the status 0, which is not one of the flash statuses. -/
inductive Status
  | notWritten
  | complete
  | badAddress
  deriving DecidableEq, Repr

inductive FlashOp
  | erase
  | program (compacting : Bool) (i : ℕ) (value : BitVec 16)
  deriving DecidableEq, Repr

/-- Half-word `i` of the flash area is word `i` of the compacted area for `i < cfg.words`; slot
`k` of the write log is half-word `cfg.words + k`. -/
abbrev Flash := Mem (BitVec 16)

def FlashOp.apply (f : Flash) : FlashOp → Flash
  | .erase => fun _ => feeEmptyWord
  | .program _ i value => f.write i [f i &&& value]

@[ext] structure State where
  flash : Flash
  dataBuf : Mem (BitVec 8)
  emptySlot : ℕ
  trace : List FlashOp

def State.emit (s : State) (op : FlashOp) : State :=
  { s with flash := op.apply s.flash, trace := s.trace ++ [op] }

/-- The half-word at the even address `a` of a little-endian buffer. -/
def halfWord (buf : Mem (BitVec 8)) (a : ℕ) : BitVec 16 := buf (a + 1) ++ buf a

def storeHalfWord (buf : Mem (BitVec 8)) (a : ℕ) (w : BitVec 16) : Mem (BitVec 8) :=
  buf.write a [w.setWidth 8, (w >>> 8).setWidth 8]

variable (cfg : Config)

/-- The loop of `eepromInit` over the compacted area. -/
def loadCompacted (f : Flash) (buf : Mem (BitVec 8)) : Mem (BitVec 8) :=
  (List.range cfg.words).foldl (fun b i => storeHalfWord b (2 * i) (~~~f i)) buf

/-- A word entry of the log takes effect only inside the EEPROM. -/
def replayWord (buf : Mem (BitVec 8)) (address : BitVec 16) (w : BitVec 16) : Mem (BitVec 8) :=
  if address.toNat < cfg.densityBytes then storeHalfWord buf address.toNat w else buf

/-- The loop of `eepromInit` over the write log, which stands at slot `k`; the result is the slot
at which the loop ends. -/
def replayLog : List (BitVec 16) → ℕ → Mem (BitVec 8) → ℕ × Mem (BitVec 8)
  | [], k, buf => (k, buf)
  | x :: log, k, buf =>
    if x = feeEmptyWord then (k, buf)
    else if x &&& feeWordEncoding = 0 then
      replayLog log (k + 1) (buf.write (x >>> 8).toNat [x.setWidth 8])
    else if x &&& feeValueNext = feeValueNext then
      match log with
      | [] => (k + 1, buf)
      | y :: log =>
        -- an entry whose second half is still erased is skipped with both its slots
        if ~~~y = 0 then replayLog log (k + 2) buf
        else replayLog log (k + 2)
          (replayWord cfg buf (((x &&& 0x1FFF) <<< 1) + BitVec.ofNat 16 feeByteRange) (~~~y))
    else if x &&& feeValueReserved ≠ 0 then replayLog log (k + 1) buf
    else replayLog log (k + 1)
      (replayWord cfg buf ((x &&& 0x1FFF) <<< 1) ((x &&& feeValueEncoded) >>> 13))

def eepromInit (s : State) : State :=
  let r := replayLog cfg (s.flash.read cfg.words cfg.slots) 0 (loadCompacted cfg s.flash s.dataBuf)
  { s with dataBuf := r.2, emptySlot := r.1 }

def eepromClear (s : State) : State := { s.emit .erase with emptySlot := 0 }

def eepromErase (s : State) : State := eepromInit cfg (eepromClear s)

/-- The loop of `eepromCompact`: words that are zero stay erased. -/
def compactWord (s : State) (i : ℕ) : State :=
  let value := halfWord s.dataBuf (2 * i)
  if value ≠ 0 then s.emit (.program true i (~~~value)) else s

def eepromCompact (s : State) : Status × State :=
  (.complete, (List.range cfg.words).foldl compactWord (eepromClear s))

def eepromWriteDirectEntry (address : ℕ) (s : State) : Status × State :=
  let i := address / 2
  if s.flash i = feeEmptyWord then
    let value := ~~~halfWord s.dataBuf (2 * i)
    if value = feeEmptyWord then (.complete, s)
    else (.complete, s.emit (.program false i value))
  else (.notWritten, s)

def State.append (s : State) (value : BitVec 16) : State :=
  { s.emit (.program false (cfg.words + s.emptySlot) value) with emptySlot := s.emptySlot + 1 }

def eepromWriteLogWordEntry (address : ℕ) (s : State) : Status × State :=
  let value := halfWord s.dataBuf address
  if value ≤ 1 then
    let encoding := feeWordEncoding ||| (value <<< 13)
    if cfg.slots < s.emptySlot + 1 then eepromCompact cfg s
    else (.complete, s.append cfg ((BitVec.ofNat 16 address >>> 1) ||| encoding))
  else
    let encoding := feeWordEncoding ||| feeValueNext
    if cfg.slots < s.emptySlot + 2 then eepromCompact cfg s
    else (.complete, (s.append cfg
      ((BitVec.ofNat 16 (address - feeByteRange) >>> 1) ||| encoding)).append cfg (~~~value))

def eepromWriteLogByteEntry (address : ℕ) (s : State) : Status × State :=
  if cfg.slots ≤ s.emptySlot then eepromCompact cfg s
  else (.complete,
    s.append cfg ((BitVec.ofNat 16 address <<< 8) ||| (s.dataBuf address).setWidth 16))

/-- The part of `eepromWriteDataByte` that follows the update of `dataBuf`. -/
def persistByte (address : ℕ) (s : State) : Status × State :=
  match eepromWriteDirectEntry address s with
  | (.notWritten, s) =>
    if address < feeByteRange then eepromWriteLogByteEntry cfg address s
    else eepromWriteLogWordEntry cfg (2 * (address / 2)) s
  | r => r

def eepromWriteDataByte (address : ℕ) (dataByte : BitVec 8) (s : State) : Status × State :=
  if cfg.densityBytes ≤ address then (.badAddress, s)
  else if s.dataBuf address = dataByte then (.notWritten, s)
  else persistByte cfg address { s with dataBuf := s.dataBuf.write address [dataByte] }

/-- The status of a pair of writes: the second one's, unless that is `complete`. -/
def Status.join (first second : Status) : Status :=
  if second = .complete then first else second

/-- The log entries for the bytes of a half-word below `feeByteRange` that have changed. -/
def writeLogChangedBytes (address : ℕ) (oldValue dataWord : BitVec 16) (s : State) :
    Status × State :=
  let (final, s) := if oldValue.setWidth 8 ≠ dataWord.setWidth 8 then
    eepromWriteLogByteEntry cfg address s else (.complete, s)
  let (status, s) := if oldValue >>> 8 ≠ dataWord >>> 8 then
    eepromWriteLogByteEntry cfg (address + 1) s else (.complete, s)
  (final.join status, s)

/-- The part of `eepromWriteDataWord` that follows the update of `dataBuf`. -/
def persistWord (address : ℕ) (oldValue dataWord : BitVec 16) (s : State) : Status × State :=
  match eepromWriteDirectEntry address s with
  | (.notWritten, s) =>
    if address < feeByteRange then writeLogChangedBytes cfg address oldValue dataWord s
    else eepromWriteLogWordEntry cfg address s
  | r => r

def eepromWriteDataWord (address : ℕ) (dataWord : BitVec 16) (s : State) : Status × State :=
  if cfg.densityBytes ≤ address then (.badAddress, s)
  else if address % 2 = 1 then
    let (final, s) := eepromWriteDataByte cfg address (dataWord.setWidth 8) s
    let (status, s) := eepromWriteDataByte cfg (address + 1) ((dataWord >>> 8).setWidth 8) s
    (final.join status, s)
  else
    let oldValue := halfWord s.dataBuf address
    if oldValue = dataWord then (.notWritten, s)
    else persistWord cfg address oldValue dataWord
      { s with dataBuf := storeHalfWord s.dataBuf address dataWord }

def eepromReadDataByte (address : ℕ) (s : State) : BitVec 8 :=
  if address < cfg.densityBytes then s.dataBuf address else 0xFF

def eepromReadDataWord (address : ℕ) (s : State) : BitVec 16 :=
  if address < cfg.densityBytes - 1 then
    if address % 2 = 1 then
      (s.dataBuf address).setWidth 16 ||| ((s.dataBuf (address + 1)).setWidth 16 <<< 8)
    else halfWord s.dataBuf address
  else 0xFFFF

/-- The block functions take pointers, which the byte and word functions take as 16-bit
addresses. -/
def toAddress (p : ℕ) : ℕ := p % 65536

/-- The loop of `eepromReadBlock` over the words, with the byte that may be left over. -/
def readWords (s : State) : ℕ → ℕ → List (BitVec 8)
  | _, 0 => []
  | src, 1 => [eepromReadDataByte cfg (toAddress src) s]
  | src, len + 2 =>
    let value := eepromReadDataWord cfg (toAddress src) s
    value.setWidth 8 :: (value >>> 8).setWidth 8 :: readWords s (src + 2) len

def eepromReadBlock (src len : ℕ) (s : State) : List (BitVec 8) :=
  if len ≠ 0 ∧ src % 2 = 1 then
    eepromReadDataByte cfg (toAddress src) s :: readWords cfg s (src + 1) (len - 1)
  else readWords cfg s src len

/-- The loop of `eepromWriteBlock` over the words, with the byte that may be left over. -/
def writeWords : List (BitVec 8) → ℕ → State → State
  | [], _, s => s
  | [b], dest, s => (eepromWriteDataByte cfg (toAddress dest) b s).2
  | b₀ :: b₁ :: buf, dest, s =>
    writeWords buf (dest + 2) (eepromWriteDataWord cfg (toAddress dest) (b₁ ++ b₀) s).2

def eepromWriteBlock (buf : List (BitVec 8)) (dest : ℕ) (s : State) : State :=
  match buf with
  | [] => s
  | b :: bs =>
    if dest % 2 = 1 then
      writeWords cfg bs (dest + 1) (eepromWriteDataByte cfg (toAddress dest) b s).2
    else writeWords cfg (b :: bs) dest s

end Qmk.LegacyEeprom
