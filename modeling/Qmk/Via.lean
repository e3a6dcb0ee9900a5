import Qmk.DynamicKeymap
import Qmk.Footprint

/-! # VIA packets

`raw_hid_receive` of `via.c` in a build without lighting and audio, with the weak handlers for
custom commands. The packet is a pointer to the bytes from `data` on; what lies behind its 32 bytes
is memory of others. Every byte of it and of the EEPROM that is read or written is logged.
-/

namespace Qmk.Via

open DynamicKeymap Prog

/-- The build; `VIA_EEPROM_ALLOW_RESET` is not defined. -/
structure Config extends DynamicKeymap.Config where
  encoderMap : Bool
  macroCount : ℕ
  layoutOptionsAddr : ℕ
  layoutOptionsSize : ℕ
  firmwareVersion : BitVec 32
  layoutRoom : layoutOptionsAddr + layoutOptionsSize ≤ 65536

/-- What the rest of the firmware gives: `timer_read32`, `matrix_get_row`, and the keymaps in the
flash. -/
structure Firmware where
  uptime : BitVec 32
  matrixRow : ℕ → BitVec 32
  keycodeAt : ℕ → ℕ → ℕ → BitVec 16
  encoderKeycodeAt : ℕ → ℕ → Bool → BitVec 16

inductive Access
  | bufferRead (index : ℕ)
  | bufferWrite (index : ℕ)
  | eepromRead (address : ℕ)
  | eepromWrite (address : ℕ)
  deriving DecidableEq, Repr

structure State where
  data : ℕ → BitVec 8
  eeprom : Mem (BitVec 8)

abbrev ViaM := Prog State Access

section Memory

variable (cfg : Config)

def readData (i : ℕ) : ViaM (BitVec 8) := observe (.bufferRead i) (·.data i)

def writeData (i : ℕ) (b : BitVec 8) : ViaM Unit :=
  emit (.bufferWrite i) fun s => { s with data := Function.update s.data i b }

def readByte (address : ℕ) : ViaM (BitVec 8) :=
  observe (.eepromRead (cfg.wrap address)) fun s =>
    eepromReadByte cfg.toConfig address s.eeprom

def updateByte (address : ℕ) (b : BitVec 8) : ViaM Unit :=
  emit (.eepromWrite (cfg.wrap address)) fun s =>
    { s with eeprom := eepromUpdateByte cfg.toConfig address b s.eeprom }

/-- Two bytes of the packet, the high one first. -/
def readWord (i : ℕ) : ViaM (BitVec 16) := do
  let high ← readData i
  let low ← readData (i + 1)
  pure (high.setWidth 16 <<< 8 ||| low.setWidth 16)

def writeWord (i : ℕ) (w : BitVec 16) : ViaM Unit := do
  writeData i ((w >>> 8).setWidth 8)
  writeData (i + 1) ((w &&& 0xFF).setWidth 8)

/-- A 32-bit value from byte 2 of the packet on. -/
def writeValue (value : BitVec 32) : ViaM Unit := do
  writeData 2 ((value >>> 24).setWidth 8)
  writeData 3 ((value >>> 16).setWidth 8)
  writeData 4 ((value >>> 8).setWidth 8)
  writeData 5 (value.setWidth 8)

end Memory

section Keymap

variable (cfg : Config) (fw : Firmware)

def readKeycode (address : ℕ) : ViaM (BitVec 16) := do
  let high ← readByte cfg address
  let low ← readByte cfg (address + 1)
  pure (high.setWidth 16 <<< 8 ||| low.setWidth 16)

def updateKeycode (address : ℕ) (keycode : BitVec 16) : ViaM Unit := do
  updateByte cfg address ((keycode >>> 8).setWidth 8)
  updateByte cfg (address + 1) ((keycode &&& 0xFF).setWidth 8)

def getKeycode (layer row column : BitVec 8) : ViaM (BitVec 16) :=
  if cfg.HasKey layer row column then readKeycode cfg (cfg.keyAddress layer row column) else pure 0

def setKeycode (layer row column : BitVec 8) (keycode : BitVec 16) : ViaM Unit :=
  if cfg.HasKey layer row column then
    updateKeycode cfg (cfg.keyAddress layer row column) keycode
  else pure ()

def getEncoder (layer encoderId : BitVec 8) (clockwise : Bool) : ViaM (BitVec 16) :=
  if cfg.HasEncoder layer encoderId then
    readKeycode cfg (cfg.encoderAddress layer encoderId + if clockwise then 0 else 2)
  else pure 0

def setEncoder (layer encoderId : BitVec 8) (clockwise : Bool) (keycode : BitVec 16) :
    ViaM Unit :=
  if cfg.HasEncoder layer encoderId then
    updateKeycode cfg (cfg.encoderAddress layer encoderId + if clockwise then 0 else 2) keycode
  else pure ()

def keymapReset : ViaM Unit :=
  (List.range cfg.layerCount).forM fun layer => do
    (List.range cfg.matrixRows).forM fun row =>
      (List.range cfg.matrixCols).forM fun column =>
        setKeycode cfg (.ofNat 8 layer) (.ofNat 8 row) (.ofNat 8 column)
          (fw.keycodeAt layer row column)
    if cfg.encoderMap then
      (List.range cfg.numEncoders).forM fun encoder => do
        setEncoder cfg (.ofNat 8 layer) (.ofNat 8 encoder) true
          (fw.encoderKeycodeAt layer encoder true)
        setEncoder cfg (.ofNat 8 layer) (.ofNat 8 encoder) false
          (fw.encoderKeycodeAt layer encoder false)

/-- The loop that reads a block to byte 4 of the packet and those behind it. -/
def getBytes (base limit : ℕ) (offset size : BitVec 16) : ViaM Unit :=
  (List.range size.toNat).forM fun i =>
    if cfg.wrap (offset.toNat + i) < limit then do
      let b ← readByte cfg (base + offset.toNat + i)
      writeData (4 + i) b
    else writeData (4 + i) 0

/-- The loop that writes a block from byte 4 of the packet on. -/
def setBytes (base limit : ℕ) (offset size : BitVec 16) : ViaM Unit :=
  (List.range size.toNat).forM fun i =>
    if cfg.wrap (offset.toNat + i) < limit then do
      let b ← readData (4 + i)
      updateByte cfg (base + offset.toNat + i) b
    else pure ()

def macroReset : ViaM Unit :=
  (List.range cfg.macroSize).forM fun i => updateByte cfg (cfg.macroAddr + i) 0

end Keymap

section Commands

variable (cfg : Config) (fw : Firmware)

def unhandled : ViaM Unit := writeData 0 0xFF

def getLayoutOptions : ViaM (BitVec 32) :=
  (List.range cfg.layoutOptionsSize).foldlM (fun value i => do
    let b ← readByte cfg (cfg.layoutOptionsAddr + i)
    pure (value <<< 8 ||| b.setWidth 32)) 0

def setLayoutOptions (value : BitVec 32) : ViaM Unit :=
  (List.range cfg.layoutOptionsSize).forM fun i =>
    updateByte cfg (cfg.layoutOptionsAddr + (cfg.layoutOptionsSize - 1 - i))
      ((value >>> (8 * i)).setWidth 8)

def rowBytes (value : BitVec 32) : List (BitVec 8) :=
  (if 24 < cfg.matrixCols then [(value >>> 24).setWidth 8] else []) ++
  (if 16 < cfg.matrixCols then [(value >>> 16).setWidth 8] else []) ++
  (if 8 < cfg.matrixCols then [(value >>> 8).setWidth 8] else []) ++ [value.setWidth 8]

/-- `id_switch_matrix_state`: byte `i` of the parameters is next. -/
def writeRows (offset : ℕ) : List ℕ → ℕ → ViaM Unit
  | [], _ => pure ()
  | row :: rows, i =>
    if row + offset < cfg.matrixRows then do
      let bytes := rowBytes cfg (fw.matrixRow (row + offset))
      (List.range bytes.length).forM fun k => writeData (1 + i + k) (bytes.getD k 0)
      writeRows offset rows (i + bytes.length)
    else pure ()

def switchMatrixState : ViaM Unit := do
  let offset ← readData 2
  writeRows cfg fw offset.toNat (List.range (28 / ((cfg.matrixCols + 7) / 8))) 2

def getKeyboardValue : ViaM Unit := do
  match (← readData 1).toNat with
  | 0x01 => writeValue fw.uptime
  | 0x02 => writeValue (← getLayoutOptions cfg)
  | 0x03 => switchMatrixState cfg fw
  | 0x04 => writeValue cfg.firmwareVersion
  | _ => unhandled

def setKeyboardValue : ViaM Unit := do
  match (← readData 1).toNat with
  | 0x02 =>
    let high ← readWord 2
    let low ← readWord 4
    setLayoutOptions cfg (high.setWidth 32 <<< 16 ||| low.setWidth 32)
  | 0x05 => let _value ← readData 2
  | _ => unhandled

/-- A block command: what follows is the offset, the size, and the bytes. -/
def withBlock (f : BitVec 16 → BitVec 16 → ViaM Unit) : ViaM Unit := do
  let offset ← readWord 1
  let size ← readData 3
  f offset (size.setWidth 16)

def handle (command : ℕ) : ViaM Unit :=
  match command with
  | 0x01 => writeWord 1 0x000C
  | 0x02 => getKeyboardValue cfg fw
  | 0x03 => setKeyboardValue cfg
  | 0x04 => do
    let keycode ← getKeycode cfg (← readData 1) (← readData 2) (← readData 3)
    writeWord 4 keycode
  | 0x05 => do
    setKeycode cfg (← readData 1) (← readData 2) (← readData 3) (← readWord 4)
  | 0x06 => keymapReset cfg fw
  | 0x07 => unhandled
  | 0x08 => unhandled
  | 0x09 => unhandled
  | 0x0C => writeData 1 (.ofNat 8 cfg.macroCount)
  | 0x0D => writeWord 1 (.ofNat 16 cfg.macroSize)
  | 0x0E => withBlock (getBytes cfg cfg.macroAddr cfg.macroSize)
  | 0x0F => withBlock (setBytes cfg cfg.macroAddr cfg.macroSize)
  | 0x10 => macroReset cfg
  | 0x11 => writeData 1 (.ofNat 8 cfg.layerCount)
  | 0x12 => withBlock (getBytes cfg cfg.eepromAddr cfg.keymapSize)
  | 0x13 => withBlock (setBytes cfg cfg.eepromAddr cfg.keymapSize)
  | 0x14 =>
    if cfg.encoderMap then do
      let keycode ← getEncoder cfg (← readData 1) (← readData 2) ((← readData 3) ≠ 0)
      writeWord 4 keycode
    else unhandled
  | 0x15 =>
    if cfg.encoderMap then do
      setEncoder cfg (← readData 1) (← readData 2) ((← readData 3) ≠ 0) (← readWord 4)
    else unhandled
  | _ => unhandled

def rawHidSend : ViaM Unit :=
  (List.range 32).forM fun i => do
    let _byte ← readData i

def rawHidReceive : ViaM Unit := do
  let command ← readData 0
  handle cfg fw command.toNat
  rawHidSend

end Commands

section Specification

variable (cfg : Config)

inductive Region | keymap | encoders | macros | layoutOptions
  deriving DecidableEq, Repr

def Region.Contains : Region → ℕ → Prop
  | .keymap, a => cfg.eepromAddr ≤ a ∧ a < cfg.eepromAddr + cfg.keymapSize
  | .encoders, a => cfg.encoderAddr ≤ a ∧
      a < cfg.encoderAddr + cfg.layerCount * cfg.numEncoders * 2 * 2
  | .macros, a => cfg.macroAddr ≤ a ∧ a < cfg.macroAddr + cfg.macroSize
  | .layoutOptions, a => cfg.layoutOptionsAddr ≤ a ∧
      a < cfg.layoutOptionsAddr + cfg.layoutOptionsSize

def addressed (command : ℕ) : List Region :=
  match command with
  | 0x02 | 0x03 => [.layoutOptions]
  | 0x04 | 0x05 | 0x12 | 0x13 => [.keymap]
  | 0x06 => [.keymap, .encoders]
  | 0x0E | 0x0F | 0x10 => [.macros]
  | 0x14 | 0x15 => [.encoders]
  | _ => []

def Access.InBounds (regions : List Region) : Access → Prop
  | .bufferRead i => i < 32
  | .bufferWrite i => i < 32
  | .eepromRead a => ∃ r ∈ regions, r.Contains cfg a
  | .eepromWrite a => ∃ r ∈ regions, r.Contains cfg a

/-- Only bytes of the packet and of the tables that its command addresses are accessed. -/
def StaysInside (fw : Firmware) (s : State) : Prop :=
  ∀ e ∈ (rawHidReceive cfg fw { state := s }).2.log,
    e.InBounds cfg (addressed (s.data 0).toNat)

def blockOffset (s : State) : BitVec 16 :=
  (s.data 1).setWidth 16 <<< 8 ||| (s.data 2).setWidth 16

def blockSize (s : State) : ℕ := (s.data 3).toNat

/-- A block that is read to more than the 28 bytes behind the header. -/
def OverrunsGet (s : State) : Prop :=
  ((s.data 0).toNat = 0x0E ∨ (s.data 0).toNat = 0x12) ∧ 28 < blockSize s

/-- A block that is written from a byte behind the 28 bytes, at a position that exists. -/
def OverrunsSet (s : State) : Prop :=
  ∃ limit, ((s.data 0).toNat = 0x0F ∧ limit = cfg.macroSize ∨
      (s.data 0).toNat = 0x13 ∧ limit = cfg.keymapSize) ∧
    ∃ i, 28 ≤ i ∧ i < blockSize s ∧ cfg.wrap ((blockOffset s).toNat + i) < limit

end Specification

section Operations

variable {cfg : Config} {P : Access → Prop} {s : Traced State Access}

theorem adds_readData {i : ℕ} (h : P (.bufferRead i)) : Adds P (readData i) s := adds_observe h _

theorem adds_writeData {i : ℕ} (h : P (.bufferWrite i)) (b : BitVec 8) :
    Adds P (writeData i b) s := adds_emit h _

theorem adds_readByte {address : ℕ} (h : P (.eepromRead (cfg.wrap address))) :
    Adds P (readByte cfg address) s := adds_observe h _

theorem adds_updateByte {address : ℕ} (h : P (.eepromWrite (cfg.wrap address))) (b : BitVec 8) :
    Adds P (updateByte cfg address b) s := adds_emit h _

theorem adds_readWord {i : ℕ} (hhigh : P (.bufferRead i)) (hlow : P (.bufferRead (i + 1))) :
    Adds P (readWord i) s :=
  (adds_readData hhigh).bind ((adds_readData hlow).bind (adds_pure _))

theorem adds_writeWord {i : ℕ} (hhigh : P (.bufferWrite i)) (hlow : P (.bufferWrite (i + 1)))
    (w : BitVec 16) : Adds P (writeWord i w) s :=
  (adds_writeData hhigh _).bind (adds_writeData hlow _)

theorem adds_writeValue (h : ∀ i < 32, P (.bufferWrite i)) (value : BitVec 32) :
    Adds P (writeValue value) s :=
  (adds_writeData (h 2 (by decide)) _).bind <| (adds_writeData (h 3 (by decide)) _).bind <|
    (adds_writeData (h 4 (by decide)) _).bind (adds_writeData (h 5 (by decide)) _)

theorem adds_readKeycode {address : ℕ} (hhigh : P (.eepromRead (cfg.wrap address)))
    (hlow : P (.eepromRead (cfg.wrap (address + 1)))) : Adds P (readKeycode cfg address) s :=
  (adds_readByte hhigh).bind ((adds_readByte hlow).bind (adds_pure _))

theorem adds_updateKeycode {address : ℕ} (hhigh : P (.eepromWrite (cfg.wrap address)))
    (hlow : P (.eepromWrite (cfg.wrap (address + 1)))) (keycode : BitVec 16) :
    Adds P (updateKeycode cfg address keycode) s :=
  (adds_updateByte hhigh _).bind (adds_updateByte hlow _)

end Operations

section Addresses

variable {cfg : Config}

/-- An address past the end of the address space comes round to the position it is meant for. -/
theorem wrap_add {base limit n : ℕ} (hbase : base + limit ≤ 65536) (hn : cfg.wrap n < limit) :
    cfg.wrap (base + n) = base + cfg.wrap n := by
  unfold Config.wrap at hn ⊢
  split_ifs at hn ⊢
  · rfl
  · omega

theorem contains_keymap {n : ℕ} (h : cfg.wrap n < cfg.keymapSize) :
    Region.Contains cfg .keymap (cfg.wrap (cfg.eepromAddr + n)) := by
  have hroom := cfg.room
  have hmax := cfg.maxAddr_lt
  have hbase : cfg.eepromAddr + cfg.keymapSize ≤ 65536 := by
    rw [Config.keymapSize]
    omega
  rw [wrap_add hbase h]
  exact ⟨Nat.le_add_right _ _, Nat.add_lt_add_left h _⟩

theorem contains_macros {n : ℕ} (h : cfg.wrap n < cfg.macroSize) :
    Region.Contains cfg .macros (cfg.wrap (cfg.macroAddr + n)) := by
  have hmax := cfg.maxAddr_lt
  have hend := macroAddr_add cfg.toConfig
  rw [wrap_add (by omega) h]
  exact ⟨Nat.le_add_right _ _, Nat.add_lt_add_left h _⟩

theorem contains_keyAddress {layer row column : BitVec 8} (h : cfg.HasKey layer row column)
    {k : ℕ} (hk : k < 2) :
    Region.Contains cfg .keymap (cfg.wrap (cfg.keyAddress layer row column + k)) := by
  have hroom := cfg.room
  have hmax := cfg.maxAddr_lt
  have hlt := (keyOrder cfg.toConfig ((⟨_, h.1⟩, ⟨_, h.2.1⟩), ⟨_, h.2.2⟩)).isLt
  rw [keyAddress_eq h, wrap_of_lt (by omega), Region.Contains, Config.keymapSize]
  omega

theorem contains_encoderAddress {layer encoderId : BitVec 8} (h : cfg.HasEncoder layer encoderId)
    (clockwise : Bool) {k : ℕ} (hk : k < 2) :
    Region.Contains cfg .encoders
      (cfg.wrap ((cfg.encoderAddress layer encoderId + if clockwise then 0 else 2) + k)) := by
  have hroom := cfg.room
  have hmax := cfg.maxAddr_lt
  have hencoder := encoderAddr_eq cfg.toConfig
  have hlt := (turnOrder cfg.toConfig ((⟨_, h.1⟩, ⟨_, h.2⟩), clockwise)).isLt
  rw [encoderAddress_eq h, wrap_of_lt (by omega), Region.Contains]
  omega

theorem contains_layoutOptions {i : ℕ} (h : i < cfg.layoutOptionsSize) :
    Region.Contains cfg .layoutOptions (cfg.wrap (cfg.layoutOptionsAddr + i)) := by
  have hroom := cfg.layoutRoom
  rw [wrap_of_lt (by omega)]
  exact ⟨Nat.le_add_right _ _, Nat.add_lt_add_left h _⟩

end Addresses

section Handlers

variable {cfg : Config} {fw : Firmware} {regions : List Region} {s : Traced State Access}

theorem adds_getKeycode (h : .keymap ∈ regions) (layer row column : BitVec 8) :
    Adds (Access.InBounds cfg regions) (getKeycode cfg layer row column) s := by
  unfold getKeycode
  split_ifs with hkey
  · exact adds_readKeycode ⟨_, h, contains_keyAddress hkey (k := 0) (by decide)⟩
      ⟨_, h, contains_keyAddress hkey (by decide)⟩
  · exact adds_pure _

theorem adds_setKeycode (h : .keymap ∈ regions) (layer row column : BitVec 8)
    (keycode : BitVec 16) :
    Adds (Access.InBounds cfg regions) (setKeycode cfg layer row column keycode) s := by
  unfold setKeycode
  split_ifs with hkey
  · exact adds_updateKeycode ⟨_, h, contains_keyAddress hkey (k := 0) (by decide)⟩
      ⟨_, h, contains_keyAddress hkey (by decide)⟩ _
  · exact adds_pure _

theorem adds_getEncoder (h : .encoders ∈ regions) (layer encoderId : BitVec 8)
    (clockwise : Bool) :
    Adds (Access.InBounds cfg regions) (getEncoder cfg layer encoderId clockwise) s := by
  by_cases hencoder : cfg.HasEncoder layer encoderId
  · rw [getEncoder, if_pos hencoder]
    exact adds_readKeycode
      ⟨_, h, contains_encoderAddress hencoder clockwise (k := 0) (by decide)⟩
      ⟨_, h, contains_encoderAddress hencoder clockwise (by decide)⟩
  · rw [getEncoder, if_neg hencoder]
    exact adds_pure _

theorem adds_setEncoder (h : .encoders ∈ regions) (layer encoderId : BitVec 8)
    (clockwise : Bool) (keycode : BitVec 16) :
    Adds (Access.InBounds cfg regions) (setEncoder cfg layer encoderId clockwise keycode) s := by
  by_cases hencoder : cfg.HasEncoder layer encoderId
  · rw [setEncoder, if_pos hencoder]
    exact adds_updateKeycode
      ⟨_, h, contains_encoderAddress hencoder clockwise (k := 0) (by decide)⟩
      ⟨_, h, contains_encoderAddress hencoder clockwise (by decide)⟩ _
  · rw [setEncoder, if_neg hencoder]
    exact adds_pure _

theorem adds_keymapReset (hkeymap : .keymap ∈ regions) (hencoders : .encoders ∈ regions) :
    Adds (Access.InBounds cfg regions) (keymapReset cfg fw) s := by
  refine adds_forM (fun layer _ s => ?_) s
  have hkeys (s : Traced State Access) : Adds (Access.InBounds cfg regions)
      ((List.range cfg.matrixRows).forM fun row => (List.range cfg.matrixCols).forM fun column =>
        setKeycode cfg (.ofNat 8 layer) (.ofNat 8 row) (.ofNat 8 column)
          (fw.keycodeAt layer row column)) s :=
    adds_forM (fun row _ => adds_forM fun column _ _ => adds_setKeycode hkeymap _ _ _ _) s
  apply (hkeys s).bind
  split_ifs
  · exact adds_forM (fun encoder _ s =>
      (adds_setEncoder hencoders _ _ _ _).bind (adds_setEncoder hencoders _ _ _ _)) _
  · exact adds_pure _

/-- A block stays inside if its bytes beyond the 28 of the packet are not touched. -/
theorem adds_getBytes {base limit : ℕ} {offset size : BitVec 16} (hsize : size.toNat ≤ 28)
    (hregion : ∀ n, cfg.wrap n < limit →
      ∃ r ∈ regions, r.Contains cfg (cfg.wrap (base + n))) :
    Adds (Access.InBounds cfg regions) (getBytes cfg base limit offset size) s := by
  refine adds_forM (fun i hi s => ?_) s
  have hi := List.mem_range.mp hi
  have hbyte : 4 + i < 32 := by omega
  split_ifs with hlt
  · refine (adds_readByte ?_).bind (adds_writeData hbyte _)
    rw [Nat.add_assoc]
    exact hregion _ hlt
  · exact adds_writeData hbyte _

theorem adds_setBytes {base limit : ℕ} {offset size : BitVec 16}
    (hsize : ∀ i < size.toNat, cfg.wrap (offset.toNat + i) < limit → i < 28)
    (hregion : ∀ n, cfg.wrap n < limit →
      ∃ r ∈ regions, r.Contains cfg (cfg.wrap (base + n))) :
    Adds (Access.InBounds cfg regions) (setBytes cfg base limit offset size) s := by
  refine adds_forM (fun i hi s => ?_) s
  have hi := List.mem_range.mp hi
  split_ifs with hlt
  · have hsmall := hsize i hi hlt
    have hbyte : 4 + i < 32 := by omega
    refine (adds_readData hbyte).bind (adds_updateByte ?_ _)
    rw [Nat.add_assoc]
    exact hregion _ hlt
  · exact adds_pure _

theorem adds_macroReset (h : .macros ∈ regions) :
    Adds (Access.InBounds cfg regions) (macroReset cfg) s := by
  refine adds_forM (fun i hi s => ?_) s
  have hi := List.mem_range.mp hi
  have hwrap : cfg.wrap i ≤ i := by
    unfold Config.wrap
    split_ifs
    · exact le_rfl
    · exact Nat.mod_le _ _
  exact adds_updateByte ⟨_, h, contains_macros (lt_of_le_of_lt hwrap hi)⟩ _

theorem adds_getLayoutOptions (h : .layoutOptions ∈ regions) :
    Adds (Access.InBounds cfg regions) (getLayoutOptions cfg) s := by
  refine adds_foldlM (fun i hi _ s => ?_) _ s
  exact (adds_readByte ⟨_, h, contains_layoutOptions (List.mem_range.mp hi)⟩).bind (adds_pure _)

theorem adds_setLayoutOptions (h : .layoutOptions ∈ regions) (value : BitVec 32) :
    Adds (Access.InBounds cfg regions) (setLayoutOptions cfg value) s := by
  refine adds_forM (fun i hi s => ?_) s
  have hi := List.mem_range.mp hi
  exact adds_updateByte ⟨_, h, contains_layoutOptions (by omega)⟩ _

theorem adds_unhandled : Adds (Access.InBounds cfg regions) unhandled s :=
  adds_writeData (by decide : 0 < 32) _

theorem length_rowBytes (value : BitVec 32) : (rowBytes cfg value).length =
    (if 24 < cfg.matrixCols then 1 else 0) + (if 16 < cfg.matrixCols then 1 else 0) +
      (if 8 < cfg.matrixCols then 1 else 0) + 1 := by
  unfold rowBytes
  split_ifs <;> rfl

theorem length_rowBytes_le (value : BitVec 32) (h : 0 < cfg.matrixCols) :
    (rowBytes cfg value).length ≤ (cfg.matrixCols + 7) / 8 := by
  rw [length_rowBytes]
  split_ifs <;> omega

theorem adds_writeRows (offset : ℕ) {rows : List ℕ} {i width : ℕ}
    (hwidth : ∀ value, (rowBytes cfg value).length ≤ width) (hi : i + width * rows.length ≤ 31) :
    Adds (Access.InBounds cfg regions) (writeRows cfg fw offset rows i) s := by
  induction rows generalizing i s with
  | nil => exact adds_pure _
  | cons row rows ih =>
    rw [List.length_cons, Nat.mul_succ] at hi
    unfold writeRows
    dsimp only
    split_ifs
    · have hlength := hwidth (fw.matrixRow (row + offset))
      refine (adds_forM (fun k hk s => ?_) s).bind (ih (by omega))
      have hk := List.mem_range.mp hk
      exact adds_writeData (by change 1 + i + k < 32; omega) _
    · exact adds_pure _

theorem adds_switchMatrixState :
    Adds (Access.InBounds cfg regions) (switchMatrixState cfg fw) s := by
  refine (adds_readData (by decide : 2 < 32)).bind ?_
  rcases Nat.eq_zero_or_pos cfg.matrixCols with hzero | hpos
  · have hnone : 28 / ((cfg.matrixCols + 7) / 8) = 0 := by rw [hzero]
    rw [hnone]
    exact adds_pure _
  · apply adds_writeRows _ (fun value => length_rowBytes_le value hpos)
    have hfits := Nat.mul_div_le 28 ((cfg.matrixCols + 7) / 8)
    rw [List.length_range]
    omega

theorem adds_getKeyboardValue (h : .layoutOptions ∈ regions) :
    Adds (Access.InBounds cfg regions) (getKeyboardValue cfg fw) s := by
  refine (adds_readData (by decide : 1 < 32)).bind ?_
  split
  · exact adds_writeValue (fun _ hi => hi) _
  · exact (adds_getLayoutOptions h).bind (adds_writeValue (fun _ hi => hi) _)
  · exact adds_switchMatrixState
  · exact adds_writeValue (fun _ hi => hi) _
  · exact adds_unhandled

theorem adds_setKeyboardValue (h : .layoutOptions ∈ regions) :
    Adds (Access.InBounds cfg regions) (setKeyboardValue cfg) s := by
  refine (adds_readData (by decide : 1 < 32)).bind ?_
  split
  · refine (adds_readWord (by decide : 2 < 32) (by decide : 3 < 32)).bind ?_
    exact (adds_readWord (by decide : 4 < 32) (by decide : 5 < 32)).bind
      (adds_setLayoutOptions h _)
  · exact (adds_readData (by decide : 2 < 32)).bind (adds_pure _)
  · exact adds_unhandled

theorem toNat_size (s : State) : ((s.data 3).setWidth 16).toNat = blockSize s := by
  have := (s.data 3).isLt
  rw [BitVec.toNat_setWidth, Nat.mod_eq_of_lt (by omega), blockSize]

theorem adds_withBlock {f : BitVec 16 → BitVec 16 → ViaM Unit}
    (h : ∀ t, Adds (Access.InBounds cfg regions)
      (f (blockOffset s.state) ((s.state.data 3).setWidth 16)) t) :
    Adds (Access.InBounds cfg regions) (withBlock f) s := by
  refine (adds_readWord (by decide : 1 < 32) (by decide : 2 < 32)).bind ?_
  exact (adds_readData (by decide : 3 < 32)).bind (h _)

theorem adds_withBlock_getBytes {base limit : ℕ} (hsize : blockSize s.state ≤ 28)
    (hregion : ∀ n, cfg.wrap n < limit →
      ∃ r ∈ regions, r.Contains cfg (cfg.wrap (base + n))) :
    Adds (Access.InBounds cfg regions) (withBlock (getBytes cfg base limit)) s := by
  apply adds_withBlock
  rintro t
  exact adds_getBytes (by rwa [toNat_size]) hregion

theorem adds_withBlock_setBytes {base limit : ℕ}
    (hsize : ∀ i < blockSize s.state,
      cfg.wrap ((blockOffset s.state).toNat + i) < limit → i < 28)
    (hregion : ∀ n, cfg.wrap n < limit →
      ∃ r ∈ regions, r.Contains cfg (cfg.wrap (base + n))) :
    Adds (Access.InBounds cfg regions) (withBlock (setBytes cfg base limit)) s := by
  apply adds_withBlock
  rintro t
  exact adds_setBytes (by rwa [toNat_size]) hregion

theorem adds_handle {command : ℕ} (hcommand : (s.state.data 0).toNat = command)
    (hget : ¬ OverrunsGet s.state) (hset : ¬ OverrunsSet cfg s.state) :
    Adds (Access.InBounds cfg (addressed command)) (handle cfg fw command) s := by
  have hparam {t : Traced State Access} {i : ℕ} (hi : i < 32) :
      Adds (Access.InBounds cfg (addressed command)) (readData i) t := adds_readData hi
  have hgetBlock (h : command = 0x0E ∨ command = 0x12) : blockSize s.state ≤ 28 := by
    by_contra hlt
    exact hget ⟨hcommand ▸ h, not_le.mp hlt⟩
  have hsetBlock {limit : ℕ} (h : command = 0x0F ∧ limit = cfg.macroSize ∨
      command = 0x13 ∧ limit = cfg.keymapSize) (i : ℕ) (hi : i < blockSize s.state)
      (hlt : cfg.wrap ((blockOffset s.state).toNat + i) < limit) : i < 28 := by
    by_contra hge
    exact hset ⟨limit, hcommand ▸ h, i, not_lt.mp hge, hi, hlt⟩
  unfold handle
  split
  · exact adds_writeWord (by decide : 1 < 32) (by decide : 2 < 32) _
  · exact adds_getKeyboardValue (by decide)
  · exact adds_setKeyboardValue (by decide)
  · refine (hparam (by decide)).bind ((hparam (by decide)).bind ((hparam (by decide)).bind ?_))
    exact (adds_getKeycode (by decide) _ _ _).bind
      (adds_writeWord (by decide : 4 < 32) (by decide : 5 < 32) _)
  · refine (hparam (by decide)).bind ((hparam (by decide)).bind ((hparam (by decide)).bind ?_))
    exact (adds_readWord (by decide : 4 < 32) (by decide : 5 < 32)).bind
      (adds_setKeycode (by decide) _ _ _ _)
  · exact adds_keymapReset (by decide) (by decide)
  · exact adds_unhandled
  · exact adds_unhandled
  · exact adds_unhandled
  · exact adds_writeData (by decide : 1 < 32) _
  · exact adds_writeWord (by decide : 1 < 32) (by decide : 2 < 32) _
  · exact adds_withBlock_getBytes (hgetBlock (by decide))
      fun _ hn => ⟨_, by decide, contains_macros hn⟩
  · exact adds_withBlock_setBytes (hsetBlock (Or.inl ⟨rfl, rfl⟩))
      fun _ hn => ⟨_, by decide, contains_macros hn⟩
  · exact adds_macroReset (by decide)
  · exact adds_writeData (by decide : 1 < 32) _
  · exact adds_withBlock_getBytes (hgetBlock (by decide))
      fun _ hn => ⟨_, by decide, contains_keymap hn⟩
  · exact adds_withBlock_setBytes (hsetBlock (Or.inr ⟨rfl, rfl⟩))
      fun _ hn => ⟨_, by decide, contains_keymap hn⟩
  · split_ifs
    · refine (hparam (by decide)).bind ((hparam (by decide)).bind ((hparam (by decide)).bind ?_))
      exact (adds_getEncoder (by decide) _ _ _).bind
        (adds_writeWord (by decide : 4 < 32) (by decide : 5 < 32) _)
    · exact adds_unhandled
  · split_ifs
    · refine (hparam (by decide)).bind ((hparam (by decide)).bind ((hparam (by decide)).bind ?_))
      exact (adds_readWord (by decide : 4 < 32) (by decide : 5 < 32)).bind
        (adds_setEncoder (by decide) _ _ _ _)
    · exact adds_unhandled
  · exact adds_unhandled

end Handlers

section Overruns

variable {cfg : Config} {fw : Firmware} {base limit : ℕ} {offset size : BitVec 16}
  {s : Traced State Access}

theorem bufferWrite_mem_getBytes {i : ℕ} (hi : i < size.toNat) (s : Traced State Access) :
    .bufferWrite (4 + i) ∈ (getBytes cfg base limit offset size s).2.log := by
  apply mem_log_forM (P := fun _ => True) (List.mem_range.mpr hi)
  · rintro s
    split_ifs
    · exact List.mem_append_right _ (List.mem_singleton_self _)
    · exact List.mem_append_right _ (List.mem_singleton_self _)
  · rintro j s
    split_ifs
    · exact (adds_readByte trivial).bind (adds_writeData trivial _)
    · exact adds_writeData trivial _

theorem bufferRead_mem_setBytes {i : ℕ} (hi : i < size.toNat)
    (hlt : cfg.wrap (offset.toNat + i) < limit) (s : Traced State Access) :
    .bufferRead (4 + i) ∈ (setBytes cfg base limit offset size s).2.log := by
  apply mem_log_forM (P := fun _ => True) (List.mem_range.mpr hi)
  · rintro s
    rw [if_pos hlt]
    exact List.mem_append_left _ (List.mem_append_right _ (List.mem_singleton_self _))
  · rintro j s
    split_ifs
    · exact (adds_readData trivial).bind (adds_updateByte trivial _)
    · exact adds_pure _

theorem mem_withBlock {f : BitVec 16 → BitVec 16 → ViaM Unit} {e : Access}
    (h : ∀ t, e ∈ (f (blockOffset s.state) ((s.state.data 3).setWidth 16) t).2.log) :
    e ∈ (withBlock f s).2.log := h _

theorem adds_rawHidSend {P : Access → Prop} (h : ∀ i < 32, P (.bufferRead i)) :
    Adds P rawHidSend s := by
  refine adds_forM (fun i hi s => ?_) s
  exact (adds_readData (h i (List.mem_range.mp hi))).bind (adds_pure _)

theorem rawHidReceive_apply (t : State) : rawHidReceive cfg fw { state := t } =
    rawHidSend (handle cfg fw (t.data 0).toNat ⟨t, [.bufferRead 0]⟩).2 := by
  rw [rawHidReceive, bind_apply, bind_apply]
  rfl

theorem mem_rawHidSend {e : Access} (h : e ∈ s.log) : e ∈ (rawHidSend s).2.log := by
  have hsend : Adds (fun _ => True) rawHidSend s := adds_rawHidSend fun _ _ => trivial
  exact hsend.mem_log h

/-- What a handler logs is in the log when the packet has been sent back. -/
theorem mem_rawHidReceive {t : State} {e : Access} (h : ∀ s : Traced State Access, s.state = t →
      e ∈ (handle cfg fw (t.data 0).toNat s).2.log) :
    e ∈ (rawHidReceive cfg fw { state := t }).2.log := by
  rw [rawHidReceive_apply]
  apply mem_rawHidSend
  exact h ⟨t, [.bufferRead 0]⟩ rfl

theorem overrun_get {t : State} (h : OverrunsGet t) :
    .bufferWrite 32 ∈ (rawHidReceive cfg fw { state := t }).2.log := by
  obtain ⟨hcommand, hsize⟩ := h
  apply mem_rawHidReceive
  rintro s rfl
  rw [← toNat_size] at hsize
  rcases hcommand with hcommand | hcommand
  · rw [hcommand, handle]
    exact mem_withBlock (bufferWrite_mem_getBytes hsize)
  · rw [hcommand, handle]
    exact mem_withBlock (bufferWrite_mem_getBytes hsize)

theorem overrun_set (fw : Firmware) {t : State} (h : OverrunsSet cfg t) :
    ∃ i, 28 ≤ i ∧ .bufferRead (4 + i) ∈ (rawHidReceive cfg fw { state := t }).2.log := by
  obtain ⟨limit, hcommand, i, hge, hi, hlt⟩ := h
  refine ⟨i, hge, ?_⟩
  apply mem_rawHidReceive
  rintro s rfl
  rw [← toNat_size] at hi
  rcases hcommand with ⟨hcommand, rfl⟩ | ⟨hcommand, rfl⟩
  · rw [hcommand, handle]
    exact mem_withBlock (bufferRead_mem_setBytes hi hlt)
  · rw [hcommand, handle]
    exact mem_withBlock (bufferRead_mem_setBytes hi hlt)

/-- Exactly the blocks of more than 28 bytes leave the packet: those that are read, and those that
are written if a byte behind the packet has a place in the table. -/
theorem staysInside_iff (cfg : Config) (fw : Firmware) (s : State) :
    StaysInside cfg fw s ↔ ¬ OverrunsGet s ∧ ¬ OverrunsSet cfg s := by
  constructor
  · intro h
    refine ⟨fun hget => ?_, fun hset => ?_⟩
    · exact absurd (h _ (overrun_get hget)) (lt_irrefl 32)
    · obtain ⟨i, hge, hmem⟩ := overrun_set fw hset
      have hlt : 4 + i < 32 := h _ hmem
      omega
  · rintro ⟨hget, hset⟩
    have hadds : Adds (Access.InBounds cfg (addressed (s.data 0).toNat)) (rawHidReceive cfg fw)
        { state := s } := by
      have hhandle : Adds (Access.InBounds cfg (addressed (s.data 0).toNat))
          (handle cfg fw (s.data 0).toNat) ⟨s, [.bufferRead 0]⟩ := adds_handle rfl hget hset
      unfold rawHidReceive
      apply (adds_readData (by decide : 0 < 32)).bind
      exact hhandle.bind (adds_rawHidSend fun _ hi => hi)
    intro e he
    exact hadds.of_log rfl e he

/-- A packet for the macros with 29 bytes. -/
def longPacket : State where
  data i := [0x0E, 0, 0, 29].getD i 0
  eeprom _ := 0

def oneKey : Config where
  toConfig := DynamicKeymap.oneKey
  encoderMap := false
  macroCount := 16
  layoutOptionsAddr := 34
  layoutOptionsSize := 1
  firmwareVersion := 0
  layoutRoom := by decide

def plainFirmware : Firmware := ⟨0, fun _ => 0, fun _ _ _ => 0, fun _ _ _ => 0⟩

theorem longPacket_not_staysInside : ¬ StaysInside oneKey plainFirmware longPacket := by
  intro h
  have hlong : OverrunsGet longPacket := ⟨Or.inl rfl, by decide⟩
  exact absurd (h _ (overrun_get hlong)) (lt_irrefl 32)

end Overruns

section Keymaps

/-! The programs do what the functions of the dynamic keymap do to the EEPROM. -/

variable {cfg : Config} {s : Traced State Access}

theorem getKeycode_fst (layer row column : BitVec 8) : (getKeycode cfg layer row column s).1 =
    DynamicKeymap.getKeycode cfg.toConfig layer row column s.state.eeprom := by
  unfold getKeycode DynamicKeymap.getKeycode
  split_ifs <;> rfl

theorem setKeycode_eeprom (layer row column : BitVec 8) (keycode : BitVec 16) :
    (setKeycode cfg layer row column keycode s).2.state.eeprom =
      DynamicKeymap.setKeycode cfg.toConfig layer row column keycode s.state.eeprom := by
  unfold setKeycode DynamicKeymap.setKeycode
  split_ifs <;> rfl

theorem getEncoder_fst (layer encoderId : BitVec 8) (clockwise : Bool) :
    (getEncoder cfg layer encoderId clockwise s).1 =
      DynamicKeymap.getEncoder cfg.toConfig layer encoderId clockwise s.state.eeprom := by
  unfold getEncoder DynamicKeymap.getEncoder
  split_ifs <;> rfl

theorem setEncoder_eeprom (layer encoderId : BitVec 8) (clockwise : Bool) (keycode : BitVec 16) :
    (setEncoder cfg layer encoderId clockwise keycode s).2.state.eeprom =
      DynamicKeymap.setEncoder cfg.toConfig layer encoderId clockwise keycode s.state.eeprom := by
  unfold setEncoder DynamicKeymap.setEncoder
  split_ifs <;> rfl

theorem setBytes_eeprom (base limit : ℕ) (offset size : BitVec 16) :
    (setBytes cfg base limit offset size s).2.state.eeprom =
      DynamicKeymap.setBytes cfg.toConfig base limit offset size (fun i => s.state.data (4 + i))
        s.state.eeprom := by
  unfold setBytes DynamicKeymap.setBytes
  generalize List.range size.toNat = rounds
  induction rounds generalizing s with
  | nil => rfl
  | cons i rounds ih =>
    rw [forM_cons_apply, ih, List.foldl_cons, setByte]
    split_ifs <;> rfl

end Keymaps

end Qmk.Via
