import Qmk.LegacyEeprom.FlatArray

/-! # Rejected writes

The write functions again, over a flash that may fail: programming a half-word
gives one of five statuses and may leave anything behind, and so may an erase.
Writes that fail in this way are told apart from those that are rejected because
of their address. A word write to the last, odd address is rejected for its second
byte only, when the first one has been stored.
-/

namespace Qmk.LegacyEeprom

/-- The statuses with which `FLASH_ProgramHalfWord` can return for an address inside the flash. -/
inductive FlashStatus
  | errorPg | errorWrp | errorOpt | complete | timeout
  deriving DecidableEq, Repr

/-- What programming a half-word and erasing the area do, which may depend on all that has
happened before. -/
structure FlashDriver where
  program : State → ℕ → BitVec 16 → FlashStatus × BitVec 16
  erase : State → Flash

def FlashDriver.reliable : FlashDriver where
  program s i value := (.complete, s.flash i &&& value)
  erase _ _ := feeEmptyWord

/-- The results of the write functions: 0, a status of the flash or `FLASH_BAD_ADDRESS`. -/
inductive WriteStatus
  | notWritten
  | flash (status : FlashStatus)
  | badAddress
  deriving DecidableEq, Repr

namespace FlashDriver

variable (drv : FlashDriver) (cfg : Config)

def programHalfWord (compacting : Bool) (i : ℕ) (value : BitVec 16) (s : State) :
    FlashStatus × State :=
  let r := drv.program s i value
  (r.1, { s with
    flash := s.flash.write i [r.2]
    trace := s.trace ++ [.program compacting i value] })

/-- `if (status != FLASH_COMPLETE) final_status = status;`. -/
def joinStatus (final status : FlashStatus) : FlashStatus :=
  if status = .complete then final else status

def eepromClear (s : State) : State :=
  { s with flash := drv.erase s, trace := s.trace ++ [.erase], emptySlot := 0 }

def compactWord (r : FlashStatus × State) (i : ℕ) : FlashStatus × State :=
  let value := halfWord r.2.dataBuf (2 * i)
  if value ≠ 0 then
    let p := drv.programHalfWord true i (~~~value) r.2
    (joinStatus r.1 p.1, p.2)
  else r

def eepromCompact (s : State) : FlashStatus × State :=
  (List.range cfg.words).foldl drv.compactWord (.complete, drv.eepromClear s)

def eepromWriteDirectEntry (address : ℕ) (s : State) : Option FlashStatus × State :=
  let i := address / 2
  if s.flash i = feeEmptyWord then
    let value := ~~~halfWord s.dataBuf (2 * i)
    if value = feeEmptyWord then (some .complete, s)
    else
      let p := drv.programHalfWord false i value s
      (some p.1, p.2)
  else (none, s)

/-- The slot is used up whatever the status is. -/
def append (value : BitVec 16) (s : State) : FlashStatus × State :=
  let p := drv.programHalfWord false (cfg.words + s.emptySlot) value s
  (p.1, { p.2 with emptySlot := p.2.emptySlot + 1 })

def eepromWriteLogWordEntry (address : ℕ) (s : State) : FlashStatus × State :=
  let value := halfWord s.dataBuf address
  if value ≤ 1 then
    let encoding := feeWordEncoding ||| (value <<< 13)
    if cfg.slots < s.emptySlot + 1 then drv.eepromCompact cfg s
    else drv.append cfg ((BitVec.ofNat 16 address >>> 1) ||| encoding) s
  else
    let encoding := feeWordEncoding ||| feeValueNext
    if cfg.slots < s.emptySlot + 2 then drv.eepromCompact cfg s
    else
      let p := drv.append cfg ((BitVec.ofNat 16 (address - feeByteRange) >>> 1) ||| encoding) s
      let q := drv.append cfg (~~~value) p.2
      (joinStatus p.1 q.1, q.2)

def eepromWriteLogByteEntry (address : ℕ) (s : State) : FlashStatus × State :=
  if cfg.slots ≤ s.emptySlot then drv.eepromCompact cfg s
  else drv.append cfg ((BitVec.ofNat 16 address <<< 8) ||| (s.dataBuf address).setWidth 16) s

/-- The part of `eepromWriteDataByte` that follows the update of `dataBuf`. -/
def persistByte (address : ℕ) (s : State) : FlashStatus × State :=
  match drv.eepromWriteDirectEntry address s with
  | (some status, s) => (status, s)
  | (none, s) =>
    if address < feeByteRange then drv.eepromWriteLogByteEntry cfg address s
    else drv.eepromWriteLogWordEntry cfg (2 * (address / 2)) s

def eepromWriteDataByte (address : ℕ) (dataByte : BitVec 8) (s : State) : WriteStatus × State :=
  if cfg.densityBytes ≤ address then (.badAddress, s)
  else if s.dataBuf address = dataByte then (.notWritten, s)
  else
    let p := drv.persistByte cfg address { s with dataBuf := s.dataBuf.write address [dataByte] }
    (.flash p.1, p.2)

/-- The log entries for the bytes of a half-word below `feeByteRange` that have changed. -/
def writeLogChangedBytes (address : ℕ) (oldValue dataWord : BitVec 16) (s : State) :
    FlashStatus × State :=
  let (final, s) := if oldValue.setWidth 8 ≠ dataWord.setWidth 8 then
    drv.eepromWriteLogByteEntry cfg address s else (.complete, s)
  let (status, s) := if oldValue >>> 8 ≠ dataWord >>> 8 then
    drv.eepromWriteLogByteEntry cfg (address + 1) s else (.complete, s)
  (joinStatus final status, s)

/-- The part of `eepromWriteDataWord` that follows the update of `dataBuf`. -/
def persistWord (address : ℕ) (oldValue dataWord : BitVec 16) (s : State) : FlashStatus × State :=
  match drv.eepromWriteDirectEntry address s with
  | (some status, s) => (status, s)
  | (none, s) =>
    if address < feeByteRange then drv.writeLogChangedBytes cfg address oldValue dataWord s
    else drv.eepromWriteLogWordEntry cfg address s

def eepromWriteDataWord (address : ℕ) (dataWord : BitVec 16) (s : State) : WriteStatus × State :=
  if cfg.densityBytes ≤ address then (.badAddress, s)
  else if address % 2 = 1 then
    let p := drv.eepromWriteDataByte cfg address (dataWord.setWidth 8) s
    let q := drv.eepromWriteDataByte cfg (address + 1) ((dataWord >>> 8).setWidth 8) p.2
    (if q.1 = .flash .complete then p.1 else q.1, q.2)
  else
    let oldValue := halfWord s.dataBuf address
    if oldValue = dataWord then (.notWritten, s)
    else
      let p := drv.persistWord cfg address oldValue dataWord
        { s with dataBuf := storeHalfWord s.dataBuf address dataWord }
      (.flash p.1, p.2)

def write (s : State) : Write → WriteStatus × State
  | .byte address value => drv.eepromWriteDataByte cfg address value s
  | .word address value => drv.eepromWriteDataWord cfg address value s

end FlashDriver

section Reliable

variable {cfg : Config} {s : State}

/-- The status of a write over a flash that never fails. -/
def Status.toWriteStatus : Status → WriteStatus
  | .notWritten => .notWritten
  | .complete => .flash .complete
  | .badAddress => .badAddress

open FlashDriver

theorem reliable_programHalfWord (compacting : Bool) (i : ℕ) (value : BitVec 16) :
    FlashDriver.reliable.programHalfWord compacting i value s =
      (.complete, s.emit (.program compacting i value)) := rfl

theorem reliable_compact :
    FlashDriver.reliable.eepromCompact cfg s = (.complete, (eepromCompact cfg s).2) := by
  have hclear : FlashDriver.reliable.eepromClear s = LegacyEeprom.eepromClear s := rfl
  simp only [FlashDriver.eepromCompact, LegacyEeprom.eepromCompact, hclear]
  generalize LegacyEeprom.eepromClear s = t
  induction List.range cfg.words generalizing t with
  | nil => rfl
  | cons i is ih =>
    rw [List.foldl_cons, List.foldl_cons, ← ih]
    simp only [FlashDriver.compactWord, LegacyEeprom.compactWord]
    split_ifs <;> rfl

theorem reliable_directEntry (address : ℕ) :
    FlashDriver.reliable.eepromWriteDirectEntry address s =
      (if (eepromWriteDirectEntry address s).1 = .notWritten then none else some .complete,
        (eepromWriteDirectEntry address s).2) := by
  simp only [FlashDriver.eepromWriteDirectEntry, LegacyEeprom.eepromWriteDirectEntry]
  split_ifs <;> simp_all [reliable_programHalfWord]

theorem directEntry_ne_badAddress (address : ℕ) :
    (eepromWriteDirectEntry address s).1 ≠ .badAddress := by
  simp only [LegacyEeprom.eepromWriteDirectEntry]
  split_ifs <;> simp

theorem reliable_logWordEntry (address : ℕ) :
    FlashDriver.reliable.eepromWriteLogWordEntry cfg address s =
      (.complete, (eepromWriteLogWordEntry cfg address s).2) ∧
      (eepromWriteLogWordEntry cfg address s).1 = .complete := by
  simp only [FlashDriver.eepromWriteLogWordEntry, LegacyEeprom.eepromWriteLogWordEntry]
  split_ifs
  · exact ⟨reliable_compact, rfl⟩
  · exact ⟨rfl, rfl⟩
  · exact ⟨reliable_compact, rfl⟩
  · exact ⟨rfl, rfl⟩

theorem reliable_logByteEntry (address : ℕ) :
    FlashDriver.reliable.eepromWriteLogByteEntry cfg address s =
      (.complete, (eepromWriteLogByteEntry cfg address s).2) ∧
      (eepromWriteLogByteEntry cfg address s).1 = .complete := by
  simp only [FlashDriver.eepromWriteLogByteEntry, LegacyEeprom.eepromWriteLogByteEntry]
  split_ifs
  · exact ⟨reliable_compact, rfl⟩
  · exact ⟨rfl, rfl⟩

theorem reliable_persistByte (address : ℕ) :
    FlashDriver.reliable.persistByte cfg address s =
      (.complete, (persistByte cfg address s).2) ∧ (persistByte cfg address s).1 = .complete := by
  simp only [FlashDriver.persistByte, LegacyEeprom.persistByte, reliable_directEntry]
  rcases hdirect : LegacyEeprom.eepromWriteDirectEntry address s with ⟨status, t⟩
  cases status with
  | notWritten =>
    simp only [if_true]
    split_ifs
    · exact reliable_logByteEntry address
    · exact reliable_logWordEntry _
  | complete => exact ⟨rfl, rfl⟩
  | badAddress => exact absurd (by rw [hdirect]) (directEntry_ne_badAddress (s := s) address)

theorem reliable_writeLogChangedBytes (address : ℕ) (oldValue dataWord : BitVec 16) :
    FlashDriver.reliable.writeLogChangedBytes cfg address oldValue dataWord s =
      (.complete, (writeLogChangedBytes cfg address oldValue dataWord s).2) ∧
      (writeLogChangedBytes cfg address oldValue dataWord s).1 = .complete := by
  have hlog (a : ℕ) (t : State) := @reliable_logByteEntry cfg t a
  simp only [FlashDriver.writeLogChangedBytes, LegacyEeprom.writeLogChangedBytes]
  split_ifs <;> simp [hlog, joinStatus, Status.join]

theorem reliable_persistWord (address : ℕ) (oldValue dataWord : BitVec 16) :
    FlashDriver.reliable.persistWord cfg address oldValue dataWord s =
      (.complete, (persistWord cfg address oldValue dataWord s).2) ∧
      (persistWord cfg address oldValue dataWord s).1 = .complete := by
  simp only [FlashDriver.persistWord, LegacyEeprom.persistWord, reliable_directEntry]
  rcases hdirect : LegacyEeprom.eepromWriteDirectEntry address s with ⟨status, t⟩
  cases status with
  | notWritten =>
    simp only [if_true]
    split_ifs
    · exact reliable_writeLogChangedBytes address oldValue dataWord
    · exact reliable_logWordEntry _
  | complete => exact ⟨rfl, rfl⟩
  | badAddress => exact absurd (by rw [hdirect]) (directEntry_ne_badAddress (s := s) address)

theorem reliable_writeDataByte (address : ℕ) (dataByte : BitVec 8) :
    FlashDriver.reliable.eepromWriteDataByte cfg address dataByte s =
      ((eepromWriteDataByte cfg address dataByte s).1.toWriteStatus,
        (eepromWriteDataByte cfg address dataByte s).2) := by
  simp only [FlashDriver.eepromWriteDataByte, LegacyEeprom.eepromWriteDataByte]
  split_ifs
  · rfl
  · rfl
  · obtain ⟨hpersist, hstatus⟩ := @reliable_persistByte cfg
      { s with dataBuf := s.dataBuf.write address [dataByte] } address
    rw [hpersist, hstatus]
    rfl

theorem reliable_write (w : Write) :
    (FlashDriver.reliable.write cfg s w).2 = w.run cfg s := by
  cases w with
  | byte address value => rw [FlashDriver.write, reliable_writeDataByte, Write.run]
  | word address value =>
    simp only [FlashDriver.write, Write.run, FlashDriver.eepromWriteDataWord,
      LegacyEeprom.eepromWriteDataWord, reliable_writeDataByte]
    split_ifs
    · rfl
    · rfl
    · rfl
    · rfl
    · exact congrArg Prod.snd (reliable_persistWord address _ value).1

end Reliable

section Rejected

variable {drv : FlashDriver} {cfg : Config} {s : State}

/-- A write that is rejected changes nothing, and a write is rejected exactly if it covers an
address behind the EEPROM. -/
def RejectsCleanly (drv : FlashDriver) (cfg : Config) (s : State) (w : Write) : Prop :=
  ((drv.write cfg s w).1 = .badAddress → (drv.write cfg s w).2.dataBuf = s.dataBuf ∧
    (drv.write cfg s w).2.flash = s.flash ∧ (drv.write cfg s w).2.emptySlot = s.emptySlot) ∧
  ((drv.write cfg s w).1 = .badAddress ↔ ∃ x, w.Covers x ∧ cfg.densityBytes ≤ x)

/-- A word for the last address, whose first byte differs from the byte that is there. -/
def SplitsAtEnd (cfg : Config) (s : State) : Write → Prop
  | .byte _ _ => False
  | .word address value => address + 1 = cfg.densityBytes ∧ s.dataBuf address ≠ value.setWidth 8

inductive WroteByte (cfg : Config) (address : ℕ) (value : BitVec 8) (s : State) :
    WriteStatus × State → Prop
  | rejected (h : cfg.densityBytes ≤ address) : WroteByte cfg address value s (.badAddress, s)
  | same (h : address < cfg.densityBytes) (hsame : s.dataBuf address = value) :
      WroteByte cfg address value s (.notWritten, s)
  | stored (h : address < cfg.densityBytes) (hne : s.dataBuf address ≠ value) (status : FlashStatus)
      (t : State) (ht : t.dataBuf = s.dataBuf.write address [value]) :
      WroteByte cfg address value s (.flash status, t)

section DataBuf

@[simp] theorem programHalfWord_dataBuf (compacting : Bool) (i : ℕ) (value : BitVec 16)
    (s : State) : (drv.programHalfWord compacting i value s).2.dataBuf = s.dataBuf := rfl

@[simp] theorem append_dataBuf (value : BitVec 16) (s : State) :
    (drv.append cfg value s).2.dataBuf = s.dataBuf := rfl

@[simp] theorem compact_dataBuf (drv : FlashDriver) (cfg : Config) (s : State) :
    (drv.eepromCompact cfg s).2.dataBuf = s.dataBuf := by
  have hclear : (drv.eepromClear s).dataBuf = s.dataBuf := rfl
  rw [FlashDriver.eepromCompact, ← hclear]
  generalize hr : (FlashStatus.complete, drv.eepromClear s) = r
  have ht : drv.eepromClear s = r.2 := by rw [← hr]
  rw [ht]
  clear hr ht hclear
  induction List.range cfg.words generalizing r with
  | nil => rfl
  | cons i is ih =>
    rw [List.foldl_cons, ih, FlashDriver.compactWord]
    split_ifs <;> rfl

@[simp] theorem logByteEntry_dataBuf (address : ℕ) (s : State) :
    (drv.eepromWriteLogByteEntry cfg address s).2.dataBuf = s.dataBuf := by
  unfold FlashDriver.eepromWriteLogByteEntry
  split_ifs <;> simp

@[simp] theorem logWordEntry_dataBuf (address : ℕ) (s : State) :
    (drv.eepromWriteLogWordEntry cfg address s).2.dataBuf = s.dataBuf := by
  unfold FlashDriver.eepromWriteLogWordEntry
  simp only
  split_ifs <;> simp

@[simp] theorem persistByte_dataBuf (address : ℕ) (s : State) :
    (drv.persistByte cfg address s).2.dataBuf = s.dataBuf := by
  simp only [FlashDriver.persistByte, FlashDriver.eepromWriteDirectEntry]
  split_ifs <;> simp

end DataBuf

theorem wroteByte (drv : FlashDriver) (cfg : Config) (address : ℕ) (value : BitVec 8) (s : State) :
    WroteByte cfg address value s (drv.eepromWriteDataByte cfg address value s) := by
  unfold FlashDriver.eepromWriteDataByte
  split_ifs with hrange hsame
  · exact .rejected hrange
  · exact .same (Nat.lt_of_not_le hrange) hsame
  · exact .stored (Nat.lt_of_not_le hrange) hsame _ _ (by simp)

theorem write_singleton_ne {b : Mem (BitVec 8)} {a : ℕ} {v : BitVec 8} (h : b a ≠ v) :
    b.write a [v] ≠ b := by
  intro heq
  have hat := congrFun heq a
  rw [Mem.write_of_mem b le_rfl (by simp)] at hat
  exact h (by simpa using hat.symm)

theorem byte_rejectsCleanly (address : ℕ) (value : BitVec 8) :
    RejectsCleanly drv cfg s (.byte address value) := by
  have hwrote := wroteByte drv cfg address value s
  simp only [RejectsCleanly, FlashDriver.write, Write.Covers, exists_eq_left]
  generalize drv.eepromWriteDataByte cfg address value s = r at hwrote ⊢
  cases hwrote with
  | rejected h => exact ⟨fun _ => ⟨rfl, rfl, rfl⟩, by simp [h]⟩
  | same h hsame => exact ⟨fun _ => ⟨rfl, rfl, rfl⟩, by simp [h]⟩
  | stored h hne status t ht => exact ⟨by rintro ⟨⟩, by simp [h]⟩

theorem covers_word (cfg : Config) (address : ℕ) (value : BitVec 16) :
    (∃ x, (Write.word address value).Covers x ∧ cfg.densityBytes ≤ x) ↔
      cfg.densityBytes ≤ address + 1 := by
  simp only [Write.Covers]
  constructor
  · rintro ⟨x, rfl | rfl, h⟩
    · exact h.trans (Nat.le_succ _)
    · exact h
  · exact fun h => ⟨address + 1, .inr rfl, h⟩

theorem odd_word_rejectsCleanly_iff {address : ℕ} (value : BitVec 16)
    (hrange : address < cfg.densityBytes) (hodd : address % 2 = 1) :
    RejectsCleanly drv cfg s (.word address value) ↔ ¬ SplitsAtEnd cfg s (.word address value) := by
  have hfirst := wroteByte drv cfg address (value.setWidth 8) s
  have hsecond := wroteByte drv cfg (address + 1) ((value >>> 8).setWidth 8)
    (drv.eepromWriteDataByte cfg address (value.setWidth 8) s).2
  simp only [RejectsCleanly, covers_word, FlashDriver.write, FlashDriver.eepromWriteDataWord,
    Nat.not_le.mpr hrange, hodd, if_false, if_true, SplitsAtEnd]
  generalize drv.eepromWriteDataByte cfg address (value.setWidth 8) s = p at hfirst hsecond ⊢
  generalize drv.eepromWriteDataByte cfg (address + 1) ((value >>> 8).setWidth 8) p.2 = q
    at hsecond ⊢
  have hp : p.1 ≠ .badAddress := by
    cases hfirst with
    | rejected h => omega
    | same | stored => simp
  cases hsecond with
  | rejected h =>
    have hlast : address + 1 = cfg.densityBytes := by omega
    simp only [hlast, reduceCtorEq, if_false, le_refl, true_and, forall_true_left, iff_self,
      and_true, not_not]
    cases hfirst with
    | rejected h => omega
    | same _ hsame => simp [hsame]
    | stored _ hne status t ht =>
      constructor
      · rintro ⟨hbuf, -⟩
        exact absurd (ht.symm.trans hbuf) (write_singleton_ne hne)
      · exact fun h => absurd h hne
  | same h _ =>
    have hlast : ¬ cfg.densityBytes ≤ address + 1 := by omega
    simp [hlast, show address + 1 ≠ cfg.densityBytes by omega]
  | stored h _ status t ht =>
    have hlast : ¬ cfg.densityBytes ≤ address + 1 := by omega
    have hstatus : (if WriteStatus.flash status = .flash .complete then p.1
        else .flash status) ≠ .badAddress := by
      split_ifs
      · exact hp
      · simp
    simp only [hlast, hstatus, show address + 1 ≠ cfg.densityBytes by omega, false_imp_iff,
      false_and, not_false_eq_true, iff_self, and_self]

theorem word_rejectsCleanly_iff (address : ℕ) (value : BitVec 16) :
    RejectsCleanly drv cfg s (.word address value) ↔ ¬ SplitsAtEnd cfg s (.word address value) := by
  rcases Nat.lt_or_ge address cfg.densityBytes with hrange | hrange
  · rcases Nat.mod_two_eq_zero_or_one address with heven | hodd
    · have hdensity := cfg.density_even
      have hlast : ¬ cfg.densityBytes ≤ address + 1 := by omega
      simp only [RejectsCleanly, covers_word, FlashDriver.write, FlashDriver.eepromWriteDataWord,
        Nat.not_le.mpr hrange, heven, zero_ne_one, if_false, SplitsAtEnd]
      split_ifs <;> simp [hlast, show address + 1 ≠ cfg.densityBytes by omega]
    · exact odd_word_rejectsCleanly_iff value hrange hodd
  · have hend : address + 1 ≠ cfg.densityBytes := by omega
    simp only [RejectsCleanly, covers_word, FlashDriver.write, FlashDriver.eepromWriteDataWord,
      hrange, if_true, SplitsAtEnd, hend, false_and, not_false_eq_true, iff_true]
    simp only [and_self, implies_true, iff_true_intro (show cfg.densityBytes ≤ address + 1
      by omega)]

/-- In every state and whatever the flash does, a rejected write changes nothing unless it is a word
write that has stored its first byte at the last address. -/
theorem rejectsCleanly_iff (drv : FlashDriver) (cfg : Config) (s : State) (w : Write) :
    RejectsCleanly drv cfg s w ↔ ¬ SplitsAtEnd cfg s w := by
  cases w with
  | byte address value => exact iff_of_true (byte_rejectsCleanly address value) not_false
  | word address value => exact word_rejectsCleanly_iff address value

/-- A word write to the last address of a blank EEPROM is rejected and stores its first byte. -/
theorem rejected_word_stores_byte :
    let s := run (.smallest 2 rfl) .blank [.init]
    (FlashDriver.reliable.write (.smallest 2 rfl) s (.word 127 0x0201)).1 = .badAddress ∧
      (FlashDriver.reliable.write (.smallest 2 rfl) s (.word 127 0x0201)).2.dataBuf 127 = 1 ∧
      s.dataBuf 127 = 0 ∧
      ¬ RejectsCleanly .reliable (.smallest 2 rfl) s (.word 127 0x0201) := by
  refine ⟨by decide +kernel, by decide +kernel, by decide +kernel, ?_⟩
  rw [word_rejectsCleanly_iff, not_not]
  exact ⟨rfl, by decide +kernel⟩

end Rejected

end Qmk.LegacyEeprom
