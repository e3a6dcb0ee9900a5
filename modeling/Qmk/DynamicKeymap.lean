import Mathlib.Logic.Equiv.Bool
import Mathlib.Tactic.Ring
import Qmk.WordTable

/-! # The dynamic keymap

The keycodes of the keys and of the encoders and the macros lie one behind the other in the EEPROM.
Each is reached by calls of its own, and the keymap and the macros by blocks of bytes, too. The
EEPROM is a store of three tables, unless the positions of a block wrap around.
-/

namespace Qmk.DynamicKeymap

/-- The sizes of a build, `numEncoders` is zero without `ENCODER_MAP_ENABLE`. An `int` has either
more than 16 bits or exactly 16, and then the addresses and the sums of a `uint16_t` have 16, too.
The static assertion and the check of the maximal address are fields. -/
structure Config where
  layerCount : ℕ
  matrixRows : ℕ
  matrixCols : ℕ
  numEncoders : ℕ
  eepromAddr : ℕ
  maxAddr : ℕ
  wideInt : Bool
  room : eepromAddr + layerCount * matrixRows * matrixCols * 2 +
    layerCount * numEncoders * 2 * 2 + 100 ≤ maxAddr
  maxAddr_lt : maxAddr < 65536

namespace Config

variable (cfg : Config)

def keymapSize : ℕ := cfg.layerCount * cfg.matrixRows * cfg.matrixCols * 2

def encoderAddr : ℕ := cfg.eepromAddr + cfg.keymapSize

def macroAddr : ℕ := cfg.encoderAddr + cfg.layerCount * cfg.numEncoders * 2 * 2

def macroSize : ℕ := cfg.maxAddr - cfg.macroAddr + 1

/-- A sum of a `uint16_t` and an `int`, or an address. -/
def wrap (n : ℕ) : ℕ := if cfg.wideInt then n else n % 65536

def keyAddress (layer row column : BitVec 8) : ℕ :=
  cfg.eepromAddr + layer.toNat * cfg.matrixRows * cfg.matrixCols * 2 +
    row.toNat * cfg.matrixCols * 2 + column.toNat * 2

def encoderAddress (layer encoderId : BitVec 8) : ℕ :=
  cfg.encoderAddr + layer.toNat * cfg.numEncoders * 2 * 2 + encoderId.toNat * 2 * 2

def HasKey (layer row column : BitVec 8) : Prop :=
  layer.toNat < cfg.layerCount ∧ row.toNat < cfg.matrixRows ∧ column.toNat < cfg.matrixCols

instance (layer row column : BitVec 8) : Decidable (cfg.HasKey layer row column) :=
  inferInstanceAs (Decidable (_ ∧ _))

def HasEncoder (layer encoderId : BitVec 8) : Prop :=
  layer.toNat < cfg.layerCount ∧ encoderId.toNat < cfg.numEncoders

instance (layer encoderId : BitVec 8) : Decidable (cfg.HasEncoder layer encoderId) :=
  inferInstanceAs (Decidable (_ ∧ _))

end Config

section Model

variable (cfg : Config)

def eepromReadByte (address : ℕ) (mem : Mem (BitVec 8)) : BitVec 8 := mem (cfg.wrap address)

def eepromUpdateByte (address : ℕ) (b : BitVec 8) (mem : Mem (BitVec 8)) : Mem (BitVec 8) :=
  Function.update mem (cfg.wrap address) b

def readKeycode (address : ℕ) (mem : Mem (BitVec 8)) : BitVec 16 :=
  (eepromReadByte cfg address mem).setWidth 16 <<< 8 |||
    (eepromReadByte cfg (address + 1) mem).setWidth 16

def updateKeycode (address : ℕ) (keycode : BitVec 16) (mem : Mem (BitVec 8)) : Mem (BitVec 8) :=
  eepromUpdateByte cfg (address + 1) ((keycode &&& 0xFF).setWidth 8)
    (eepromUpdateByte cfg address ((keycode >>> 8).setWidth 8) mem)

def getKeycode (layer row column : BitVec 8) (mem : Mem (BitVec 8)) : BitVec 16 :=
  if cfg.HasKey layer row column then readKeycode cfg (cfg.keyAddress layer row column) mem else 0

def setKeycode (layer row column : BitVec 8) (keycode : BitVec 16) (mem : Mem (BitVec 8)) :
    Mem (BitVec 8) :=
  if cfg.HasKey layer row column then
    updateKeycode cfg (cfg.keyAddress layer row column) keycode mem
  else mem

def getEncoder (layer encoderId : BitVec 8) (clockwise : Bool) (mem : Mem (BitVec 8)) :
    BitVec 16 :=
  if cfg.HasEncoder layer encoderId then
    readKeycode cfg (cfg.encoderAddress layer encoderId + if clockwise then 0 else 2) mem
  else 0

def setEncoder (layer encoderId : BitVec 8) (clockwise : Bool) (keycode : BitVec 16)
    (mem : Mem (BitVec 8)) : Mem (BitVec 8) :=
  if cfg.HasEncoder layer encoderId then
    updateKeycode cfg (cfg.encoderAddress layer encoderId + if clockwise then 0 else 2) keycode mem
  else mem

/-- One round of the loop that writes a block to the `limit` bytes at `base`. -/
def setByte (base limit : ℕ) (offset : BitVec 16) (data : ℕ → BitVec 8) (mem : Mem (BitVec 8))
    (i : ℕ) : Mem (BitVec 8) :=
  if cfg.wrap (offset.toNat + i) < limit then
    eepromUpdateByte cfg (base + offset.toNat + i) (data i) mem
  else mem

def setBytes (base limit : ℕ) (offset size : BitVec 16) (data : ℕ → BitVec 8)
    (mem : Mem (BitVec 8)) : Mem (BitVec 8) :=
  (List.range size.toNat).foldl (setByte cfg base limit offset data) mem

def getBytes (base limit : ℕ) (offset size : BitVec 16) (mem : Mem (BitVec 8)) :
    List (BitVec 8) :=
  (List.range size.toNat).map fun i =>
    if cfg.wrap (offset.toNat + i) < limit then eepromReadByte cfg (base + offset.toNat + i) mem
    else 0

def getBuffer : BitVec 16 → BitVec 16 → Mem (BitVec 8) → List (BitVec 8) :=
  getBytes cfg cfg.eepromAddr cfg.keymapSize

def setBuffer : BitVec 16 → BitVec 16 → (ℕ → BitVec 8) → Mem (BitVec 8) → Mem (BitVec 8) :=
  setBytes cfg cfg.eepromAddr cfg.keymapSize

def macroGetBuffer : BitVec 16 → BitVec 16 → Mem (BitVec 8) → List (BitVec 8) :=
  getBytes cfg cfg.macroAddr cfg.macroSize

def macroSetBuffer : BitVec 16 → BitVec 16 → (ℕ → BitVec 8) → Mem (BitVec 8) → Mem (BitVec 8) :=
  setBytes cfg cfg.macroAddr cfg.macroSize

end Model

/-- The calls that write. The bytes of a block are those at a pointer, of which `size` are read. -/
inductive Call
  | setKeycode (layer row column : BitVec 8) (keycode : BitVec 16)
  | setEncoder (layer encoderId : BitVec 8) (clockwise : Bool) (keycode : BitVec 16)
  | setBuffer (offset size : BitVec 16) (data : ℕ → BitVec 8)
  | macroSetBuffer (offset size : BitVec 16) (data : ℕ → BitVec 8)

/-- The calls that read. -/
inductive Query
  | getKeycode (layer row column : BitVec 8)
  | getEncoder (layer encoderId : BitVec 8) (clockwise : Bool)
  | getBuffer (offset size : BitVec 16)
  | macroGetBuffer (offset size : BitVec 16)

inductive Answer
  | keycode (keycode : BitVec 16)
  | bytes (data : List (BitVec 8))
  deriving DecidableEq

def step (cfg : Config) (mem : Mem (BitVec 8)) : Call → Mem (BitVec 8)
  | .setKeycode layer row column keycode =>
    DynamicKeymap.setKeycode cfg layer row column keycode mem
  | .setEncoder layer encoderId clockwise keycode =>
    DynamicKeymap.setEncoder cfg layer encoderId clockwise keycode mem
  | .setBuffer offset size data => DynamicKeymap.setBuffer cfg offset size data mem
  | .macroSetBuffer offset size data => DynamicKeymap.macroSetBuffer cfg offset size data mem

def run (cfg : Config) (mem : Mem (BitVec 8)) (calls : List Call) : Mem (BitVec 8) :=
  calls.foldl (step cfg) mem

def ask (cfg : Config) (mem : Mem (BitVec 8)) : Query → Answer
  | .getKeycode layer row column =>
    .keycode (DynamicKeymap.getKeycode cfg layer row column mem)
  | .getEncoder layer encoderId clockwise =>
    .keycode (DynamicKeymap.getEncoder cfg layer encoderId clockwise mem)
  | .getBuffer offset size => .bytes (DynamicKeymap.getBuffer cfg offset size mem)
  | .macroGetBuffer offset size => .bytes (DynamicKeymap.macroGetBuffer cfg offset size mem)

abbrev Key (cfg : Config) := (Fin cfg.layerCount × Fin cfg.matrixRows) × Fin cfg.matrixCols

def keyOrder (cfg : Config) :
    Key cfg ≃ Fin (cfg.layerCount * cfg.matrixRows * cfg.matrixCols) :=
  (finProdFinEquiv.prodCongr (Equiv.refl _)).trans finProdFinEquiv

/-- An encoder with a direction, of which clockwise comes first. -/
abbrev Turn (cfg : Config) := (Fin cfg.layerCount × Fin cfg.numEncoders) × Bool

def turnOrder (cfg : Config) : Turn cfg ≃ Fin (cfg.layerCount * cfg.numEncoders * 2) :=
  (finProdFinEquiv.prodCongr (Equiv.boolNot.trans finTwoEquiv.symm)).trans finProdFinEquiv

/-- What the EEPROM is for: a keycode for each key and each turn of an encoder, and the bytes of
the macros. -/
@[ext]
structure Store (cfg : Config) where
  keymap : Key cfg → BitVec 16
  encoders : Turn cfg → BitVec 16
  macros : Fin cfg.macroSize → BitVec 8

namespace Store

variable {cfg : Config} (s : Store cfg)

/-- A block of the keymap are the bytes of the keycodes, big endian. -/
def step : Call → Store cfg
  | .setKeycode layer row column keycode =>
    if h : cfg.HasKey layer row column then
      { s with keymap := Function.update s.keymap ((⟨_, h.1⟩, ⟨_, h.2.1⟩), ⟨_, h.2.2⟩) keycode }
    else s
  | .setEncoder layer encoderId clockwise keycode =>
    if h : cfg.HasEncoder layer encoderId then
      { s with
        encoders := Function.update s.encoders ((⟨_, h.1⟩, ⟨_, h.2⟩), clockwise) keycode }
    else s
  | .setBuffer offset size data =>
    { s with
      keymap := words (keyOrder cfg)
        (patch (bytes (keyOrder cfg) s.keymap) offset.toNat size.toNat data) }
  | .macroSetBuffer offset size data =>
    { s with macros := patch s.macros offset.toNat size.toNat data }

def run (calls : List Call) : Store cfg := calls.foldl step s

def ask : Query → Answer
  | .getKeycode layer row column =>
    .keycode <| if h : cfg.HasKey layer row column then
      s.keymap ((⟨_, h.1⟩, ⟨_, h.2.1⟩), ⟨_, h.2.2⟩) else 0
  | .getEncoder layer encoderId clockwise =>
    .keycode <| if h : cfg.HasEncoder layer encoderId then
      s.encoders ((⟨_, h.1⟩, ⟨_, h.2⟩), clockwise) else 0
  | .getBuffer offset size =>
    .bytes (slice (bytes (keyOrder cfg) s.keymap) 0 offset.toNat size.toNat)
  | .macroGetBuffer offset size => .bytes (slice s.macros 0 offset.toNat size.toNat)

end Store

def view (cfg : Config) (mem : Mem (BitVec 8)) : Store cfg where
  keymap := table (keyOrder cfg) mem cfg.eepromAddr
  encoders := table (turnOrder cfg) mem cfg.encoderAddr
  macros := mem.region cfg.macroAddr cfg.macroSize

/-- A call for a key, an encoder or a block that does not exist. -/
def Call.OutOfRange (cfg : Config) : Call → Prop
  | .setKeycode layer row column _ => ¬ cfg.HasKey layer row column
  | .setEncoder layer encoderId _ _ => ¬ cfg.HasEncoder layer encoderId
  | .setBuffer offset _ _ => cfg.keymapSize ≤ offset.toNat
  | .macroSetBuffer offset _ _ => cfg.macroSize ≤ offset.toNat

/-- The EEPROM is the store, and what is not the store's is left alone. -/
structure Faithful (cfg : Config) (mem : Mem (BitVec 8)) (calls : List Call) (query : Query) :
    Prop where
  stored : view cfg (run cfg mem calls) = (view cfg mem).run calls
  answer : ask cfg (run cfg mem calls) query = ((view cfg mem).run calls).ask query
  outside : ∀ x, x < cfg.eepromAddr ∨ cfg.maxAddr < x → run cfg mem calls x = mem x
  ignored : ∀ pre call post, calls = pre ++ call :: post → call.OutOfRange cfg →
    run cfg mem (pre ++ [call]) = run cfg mem pre

/-- The positions of a block have 16 bits. -/
def Call.Within : Call → Prop
  | .setBuffer offset size _ => offset.toNat + size.toNat ≤ 65536
  | .macroSetBuffer offset size _ => offset.toNat + size.toNat ≤ 65536
  | _ => True

def Query.Within : Query → Prop
  | .getBuffer offset size => offset.toNat + size.toNat ≤ 65536
  | .macroGetBuffer offset size => offset.toNat + size.toNat ≤ 65536
  | _ => True

section Layout

variable {cfg : Config} {mem : Mem (BitVec 8)}

theorem wrap_of_lt {n : ℕ} (h : n < 65536) : cfg.wrap n = n := by
  rw [Config.wrap]
  split_ifs
  · rfl
  · exact Nat.mod_eq_of_lt h

theorem keyAddress_eq {layer row column : BitVec 8} (h : cfg.HasKey layer row column) :
    cfg.keyAddress layer row column =
      cfg.eepromAddr + 2 * keyOrder cfg ((⟨_, h.1⟩, ⟨_, h.2.1⟩), ⟨_, h.2.2⟩) := by
  change _ = cfg.eepromAddr + 2 * (column.toNat +
    cfg.matrixCols * (row.toNat + cfg.matrixRows * layer.toNat))
  rw [Config.keyAddress]
  ring

theorem encoderAddress_eq {layer encoderId : BitVec 8} (h : cfg.HasEncoder layer encoderId)
    (clockwise : Bool) :
    (cfg.encoderAddress layer encoderId + if clockwise then 0 else 2) =
      cfg.encoderAddr + 2 * turnOrder cfg ((⟨_, h.1⟩, ⟨_, h.2⟩), clockwise) := by
  cases clockwise
  · change cfg.encoderAddress layer encoderId + 2 = cfg.encoderAddr + 2 * (1 +
      2 * (encoderId.toNat + cfg.numEncoders * layer.toNat))
    rw [Config.encoderAddress]
    ring
  · change cfg.encoderAddress layer encoderId + 0 = cfg.encoderAddr + 2 * (0 +
      2 * (encoderId.toNat + cfg.numEncoders * layer.toNat))
    rw [Config.encoderAddress]
    ring

/-- The three tables lie one behind the other and end at the maximal address. -/
theorem macroAddr_add (cfg : Config) : cfg.macroAddr + cfg.macroSize = cfg.maxAddr + 1 := by
  have hroom := cfg.room
  simp only [Config.macroSize, Config.macroAddr, Config.encoderAddr, Config.keymapSize]
  omega

theorem macroAddr_eq (cfg : Config) : cfg.macroAddr =
    cfg.encoderAddr + cfg.layerCount * cfg.numEncoders * 2 * 2 := rfl

theorem encoderAddr_eq (cfg : Config) : cfg.encoderAddr =
    cfg.eepromAddr + cfg.layerCount * cfg.matrixRows * cfg.matrixCols * 2 := rfl

end Layout

section Words

variable {cfg : Config} {address : ℕ}

theorem readKeycode_eq (h : address + 1 < 65536) (mem : Mem (BitVec 8)) :
    readKeycode cfg address mem = mem.word address := by
  rw [readKeycode, eepromReadByte, eepromReadByte, wrap_of_lt (by omega), wrap_of_lt h, Mem.word,
    ← BitVec.setWidth_append_eq_shiftLeft_setWidth_or, BitVec.setWidth_eq]

theorem updateKeycode_eq (h : address + 1 < 65536) (keycode : BitVec 16) (mem : Mem (BitVec 8)) :
    updateKeycode cfg address keycode mem = mem.setWord address keycode := by
  have hhigh : (keycode >>> 8).setWidth 8 = keycode.extractLsb' 8 8 := by
    ext i hi
    simp
  have hlow : (keycode &&& 0xFF).setWidth 8 = keycode.setWidth 8 := by
    rw [BitVec.setWidth_and]
    exact BitVec.and_allOnes
  rw [updateKeycode, eepromUpdateByte, eepromUpdateByte, wrap_of_lt (by omega), wrap_of_lt h,
    hhigh, hlow, Mem.setWord]

end Words

section Blocks

variable {cfg : Config} {base limit : ℕ} {offset size : BitVec 16}

theorem foldl_setByte (hbase : base + limit ≤ 65536) (data : ℕ → BitVec 8) (mem : Mem (BitVec 8))
    {n : ℕ} (hn : cfg.wideInt = true ∨ offset.toNat + n ≤ 65536) (x : ℕ) :
    (List.range n).foldl (setByte cfg base limit offset data) mem x =
      if base + offset.toNat ≤ x ∧ x < base + (offset.toNat + n) ∧ x < base + limit then
        data (x - (base + offset.toNat))
      else mem x := by
  induction n with
  | zero =>
    rw [if_neg (by omega)]
    rfl
  | succ n ih =>
    have hwrap : cfg.wrap (offset.toNat + n) = offset.toNat + n := by
      rcases hn with hwide | hn
      · rw [Config.wrap, if_pos hwide]
      · exact wrap_of_lt (by omega)
    have hprev := ih (hn.imp_right (by omega))
    rw [List.range_succ, List.foldl_append, List.foldl_cons, List.foldl_nil, setByte, hwrap]
    by_cases hlt : offset.toNat + n < limit
    · rw [if_pos hlt, eepromUpdateByte, wrap_of_lt (by omega)]
      by_cases hx : x = base + offset.toNat + n
      · subst hx
        rw [Function.update_self, if_pos (by omega), Nat.add_sub_cancel_left]
      · rw [Function.update_of_ne hx, hprev]
        congr 1
        exact propext (by omega)
    · rw [if_neg hlt, hprev]
      congr 1
      exact propext (by omega)

variable (hbase : base + limit ≤ 65536)
  (hwithin : cfg.wideInt = true ∨ offset.toNat + size.toNat ≤ 65536)
include hbase hwithin

theorem region_setBytes (data : ℕ → BitVec 8) (mem : Mem (BitVec 8)) :
    (setBytes cfg base limit offset size data mem).region base limit =
      patch (mem.region base limit) offset.toNat size.toNat data := by
  funext p
  have hp := p.isLt
  rw [Mem.region, setBytes, foldl_setByte hbase data mem hwithin, patch, Mem.region]
  by_cases h : offset.toNat ≤ p ∧ p < offset.toNat + size.toNat
  · rw [if_pos h, if_pos (by omega), Nat.add_sub_add_left]
  · rw [if_neg h, if_neg (by omega)]

theorem setBytes_outside (data : ℕ → BitVec 8) (mem : Mem (BitVec 8)) {x : ℕ}
    (hx : x < base ∨ base + limit ≤ x) :
    setBytes cfg base limit offset size data mem x = mem x := by
  rw [setBytes, foldl_setByte hbase data mem hwithin, if_neg (by omega)]

theorem setBytes_of_le (data : ℕ → BitVec 8) (mem : Mem (BitVec 8)) (h : limit ≤ offset.toNat) :
    setBytes cfg base limit offset size data mem = mem := by
  funext x
  rw [setBytes, foldl_setByte hbase data mem hwithin, if_neg (by omega)]

theorem getBytes_eq (mem : Mem (BitVec 8)) :
    getBytes cfg base limit offset size mem =
      slice (mem.region base limit) 0 offset.toNat size.toNat := by
  rw [getBytes, slice]
  refine List.map_congr_left fun i hi => ?_
  have hi := List.mem_range.mp hi
  have hwrap : cfg.wrap (offset.toNat + i) = offset.toNat + i := by
    rcases hwithin with hwide | hn
    · rw [Config.wrap, if_pos hwide]
    · exact wrap_of_lt (by omega)
  rw [hwrap]
  split_ifs with hlt
  · rw [eepromReadByte, wrap_of_lt (by omega), Nat.add_assoc]
    rfl
  · rfl

end Blocks

section Steps

variable {cfg : Config} (mem : Mem (BitVec 8))

/-- A call acts on the store as it should, leaves the rest alone, and does nothing when it is out of
range. -/
structure Acts (cfg : Config) (mem : Mem (BitVec 8)) (call : Call) : Prop where
  stored : view cfg (step cfg mem call) = (view cfg mem).step call
  outside : ∀ x, x < cfg.eepromAddr ∨ cfg.maxAddr < x → step cfg mem call x = mem x
  ignored : call.OutOfRange cfg → step cfg mem call = mem

theorem view_keymap (k : Key cfg) :
    (view cfg mem).keymap k = mem.word (cfg.eepromAddr + 2 * keyOrder cfg k) := table_apply ..

theorem view_encoders (t : Turn cfg) :
    (view cfg mem).encoders t = mem.word (cfg.encoderAddr + 2 * turnOrder cfg t) := table_apply ..

theorem view_of_keymap {mem mem' : Mem (BitVec 8)}
    (h : ∀ x, cfg.encoderAddr ≤ x → mem' x = mem x) :
    view cfg mem' =
      { view cfg mem with keymap := table (keyOrder cfg) mem' cfg.eepromAddr } := by
  have haddr : cfg.encoderAddr ≤ cfg.macroAddr := Nat.le_add_right _ _
  have hencoders : table (turnOrder cfg) mem' cfg.encoderAddr =
      table (turnOrder cfg) mem cfg.encoderAddr :=
    table_congr _ fun x hx _ => h x hx
  have hmacros : mem'.region cfg.macroAddr cfg.macroSize =
      mem.region cfg.macroAddr cfg.macroSize :=
    region_congr fun x hx _ => h x (haddr.trans hx)
  exact Store.ext rfl hencoders hmacros

theorem view_of_encoders {mem mem' : Mem (BitVec 8)}
    (h : ∀ x, x < cfg.encoderAddr ∨ cfg.macroAddr ≤ x → mem' x = mem x) :
    view cfg mem' =
      { view cfg mem with encoders := table (turnOrder cfg) mem' cfg.encoderAddr } := by
  have hkeymap : table (keyOrder cfg) mem' cfg.eepromAddr =
      table (keyOrder cfg) mem cfg.eepromAddr :=
    table_congr _ fun x _ hx => h x (.inl hx)
  have hmacros : mem'.region cfg.macroAddr cfg.macroSize =
      mem.region cfg.macroAddr cfg.macroSize :=
    region_congr fun x hx _ => h x (.inr hx)
  exact Store.ext hkeymap rfl hmacros

theorem view_of_macros {mem mem' : Mem (BitVec 8)}
    (h : ∀ x, x < cfg.macroAddr → mem' x = mem x) :
    view cfg mem' = { view cfg mem with macros := mem'.region cfg.macroAddr cfg.macroSize } := by
  have haddr := macroAddr_eq cfg
  have hencoder := encoderAddr_eq cfg
  have hkeymap : table (keyOrder cfg) mem' cfg.eepromAddr =
      table (keyOrder cfg) mem cfg.eepromAddr :=
    table_congr _ fun x _ hx => h x (by omega)
  have hencoders : table (turnOrder cfg) mem' cfg.encoderAddr =
      table (turnOrder cfg) mem cfg.encoderAddr :=
    table_congr _ fun x _ hx => h x (by omega)
  exact Store.ext hkeymap hencoders rfl

theorem acts_setKeycode (layer row column : BitVec 8) (keycode : BitVec 16) :
    Acts cfg mem (.setKeycode layer row column keycode) := by
  have hroom := cfg.room
  have hmax := cfg.maxAddr_lt
  have hstep : step cfg mem (.setKeycode layer row column keycode) =
      setKeycode cfg layer row column keycode mem := rfl
  by_cases h : cfg.HasKey layer row column
  · have hlt := (keyOrder cfg ((⟨_, h.1⟩, ⟨_, h.2.1⟩), ⟨_, h.2.2⟩)).isLt
    rw [setKeycode, if_pos h, keyAddress_eq h, updateKeycode_eq (by omega)] at hstep
    constructor
    · rw [hstep, Store.step, dif_pos h, view_of_keymap, table_setWord]
      · rfl
      · intro x hx
        rw [encoderAddr_eq] at hx
        exact Mem.setWord_of_outside _ _ (by omega)
    · intro x hx
      rw [hstep]
      exact Mem.setWord_of_outside _ _ (by omega)
    · exact fun hout => absurd h hout
  · rw [setKeycode, if_neg h] at hstep
    constructor
    · rw [hstep, Store.step, dif_neg h]
    · exact fun x _ => congrFun hstep x
    · exact fun _ => hstep

theorem acts_setEncoder (layer encoderId : BitVec 8) (clockwise : Bool) (keycode : BitVec 16) :
    Acts cfg mem (.setEncoder layer encoderId clockwise keycode) := by
  have hroom := cfg.room
  have hmax := cfg.maxAddr_lt
  have haddr := macroAddr_eq cfg
  have hencoder := encoderAddr_eq cfg
  have hstep : step cfg mem (.setEncoder layer encoderId clockwise keycode) =
      setEncoder cfg layer encoderId clockwise keycode mem := rfl
  by_cases h : cfg.HasEncoder layer encoderId
  · have hlt := (turnOrder cfg ((⟨_, h.1⟩, ⟨_, h.2⟩), clockwise)).isLt
    rw [setEncoder, if_pos h, encoderAddress_eq h, updateKeycode_eq (by omega)] at hstep
    constructor
    · rw [hstep, Store.step, dif_pos h, view_of_encoders, table_setWord]
      · rfl
      · exact fun x hx => Mem.setWord_of_outside _ _ (by omega)
    · intro x hx
      rw [hstep]
      exact Mem.setWord_of_outside _ _ (by omega)
    · exact fun hout => absurd h hout
  · rw [setEncoder, if_neg h] at hstep
    constructor
    · rw [hstep, Store.step, dif_neg h]
    · exact fun x _ => congrFun hstep x
    · exact fun _ => hstep

theorem acts_setBuffer {offset size : BitVec 16} (data : ℕ → BitVec 8)
    (h : cfg.wideInt = true ∨ offset.toNat + size.toNat ≤ 65536) :
    Acts cfg mem (.setBuffer offset size data) := by
  have hroom := cfg.room
  have hmax := cfg.maxAddr_lt
  have hbase : cfg.eepromAddr + cfg.keymapSize ≤ 65536 := by
    rw [Config.keymapSize]
    omega
  have hstep : step cfg mem (.setBuffer offset size data) =
      setBytes cfg cfg.eepromAddr cfg.keymapSize offset size data mem := rfl
  constructor
  · rw [hstep, view_of_keymap fun x hx => setBytes_outside hbase h data mem (.inr hx)]
    have hbytes : bytes (keyOrder cfg) (view cfg mem).keymap =
        mem.region cfg.eepromAddr cfg.keymapSize := bytes_table _ _ _
    rw [Store.step, hbytes]
    apply Store.ext
    · exact congrArg (words (keyOrder cfg)) (region_setBytes hbase h data mem)
    · rfl
    · rfl
  · intro x hx
    rw [hstep]
    refine setBytes_outside hbase h data mem (hx.imp_right fun hx => ?_)
    rw [Config.keymapSize]
    omega
  · exact fun hout => setBytes_of_le hbase h data mem hout

theorem acts_macroSetBuffer {offset size : BitVec 16} (data : ℕ → BitVec 8)
    (h : cfg.wideInt = true ∨ offset.toNat + size.toNat ≤ 65536) :
    Acts cfg mem (.macroSetBuffer offset size data) := by
  have hmax := cfg.maxAddr_lt
  have hend := macroAddr_add cfg
  have haddr := macroAddr_eq cfg
  have hencoder := encoderAddr_eq cfg
  have hbase : cfg.macroAddr + cfg.macroSize ≤ 65536 := by omega
  have hstep : step cfg mem (.macroSetBuffer offset size data) =
      setBytes cfg cfg.macroAddr cfg.macroSize offset size data mem := rfl
  constructor
  · rw [hstep, view_of_macros fun x hx => setBytes_outside hbase h data mem (.inl hx),
      region_setBytes hbase h]
    rfl
  · intro x hx
    rw [hstep]
    exact setBytes_outside hbase h data mem (by omega)
  · exact fun hout => setBytes_of_le hbase h data mem hout

/-- What one call does, if no position of a block wraps around. -/
theorem acts {call : Call} (h : cfg.wideInt = true ∨ call.Within) : Acts cfg mem call := by
  cases call with
  | setKeycode layer row column keycode => exact acts_setKeycode mem layer row column keycode
  | setEncoder layer encoderId clockwise keycode =>
    exact acts_setEncoder mem layer encoderId clockwise keycode
  | setBuffer offset size data => exact acts_setBuffer mem data h
  | macroSetBuffer offset size data => exact acts_macroSetBuffer mem data h

theorem ask_view {query : Query} (h : cfg.wideInt = true ∨ query.Within) :
    ask cfg mem query = (view cfg mem).ask query := by
  have hmax := cfg.maxAddr_lt
  have hend := macroAddr_add cfg
  have haddr := macroAddr_eq cfg
  have hencoder := encoderAddr_eq cfg
  cases query with
  | getKeycode layer row column =>
    rw [ask, getKeycode, Store.ask]
    by_cases hkey : cfg.HasKey layer row column
    · have hlt := (keyOrder cfg ((⟨_, hkey.1⟩, ⟨_, hkey.2.1⟩), ⟨_, hkey.2.2⟩)).isLt
      rw [if_pos hkey, dif_pos hkey, keyAddress_eq hkey, readKeycode_eq (by omega), view_keymap]
    · rw [if_neg hkey, dif_neg hkey]
  | getEncoder layer encoderId clockwise =>
    rw [ask, getEncoder, Store.ask]
    by_cases hturn : cfg.HasEncoder layer encoderId
    · have hlt := (turnOrder cfg ((⟨_, hturn.1⟩, ⟨_, hturn.2⟩), clockwise)).isLt
      rw [if_pos hturn, dif_pos hturn, encoderAddress_eq hturn, readKeycode_eq (by omega),
        view_encoders]
    · rw [if_neg hturn, dif_neg hturn]
  | getBuffer offset size =>
    have hbytes : bytes (keyOrder cfg) (view cfg mem).keymap =
        mem.region cfg.eepromAddr cfg.keymapSize := bytes_table _ _ _
    have hbase : cfg.eepromAddr + cfg.keymapSize ≤ 65536 := by
      rw [Config.keymapSize]
      omega
    rw [ask, getBuffer, getBytes_eq hbase h, Store.ask, hbytes]
    rfl
  | macroGetBuffer offset size =>
    rw [ask, macroGetBuffer, getBytes_eq (by omega) h, Store.ask, view]

end Steps

section Runs

variable {cfg : Config}

theorem run_append (mem : Mem (BitVec 8)) (calls later : List Call) :
    run cfg mem (calls ++ later) = run cfg (run cfg mem calls) later := List.foldl_append

/-- The EEPROM is a store of keycodes and macros, where an `int` has more than 16 bits, and in
every run in which the positions of a block do not exceed 16 bits. -/
theorem faithful (mem : Mem (BitVec 8)) (calls : List Call) (query : Query)
    (h : cfg.wideInt = true ∨ (∀ call ∈ calls, call.Within) ∧ query.Within) :
    Faithful cfg mem calls query := by
  have hcalls : ∀ call ∈ calls, cfg.wideInt = true ∨ call.Within :=
    fun call hcall => h.imp_right fun h => h.1 call hcall
  have hstored : view cfg (run cfg mem calls) = (view cfg mem).run calls ∧
      ∀ x, x < cfg.eepromAddr ∨ cfg.maxAddr < x → run cfg mem calls x = mem x := by
    clear h
    induction calls generalizing mem with
    | nil => exact ⟨rfl, fun _ _ => rfl⟩
    | cons call calls ih =>
      obtain ⟨hcall, hcalls⟩ := List.forall_mem_cons.mp hcalls
      have hacts := acts mem hcall
      obtain ⟨hview, houtside⟩ := ih (step cfg mem call) hcalls
      constructor
      · exact hview.trans (congrArg (Store.run · calls) hacts.stored)
      · exact fun x hx => (houtside x hx).trans (hacts.outside x hx)
  constructor
  · exact hstored.1
  · rw [← hstored.1]
    exact ask_view _ (h.imp_right And.right)
  · exact hstored.2
  · rintro pre call post rfl hout
    rw [run_append]
    exact (acts _ (hcalls call (by simp))).ignored hout

/-- A keymap of one key on a processor whose `int` has 16 bits. -/
def oneKey : Config where
  layerCount := 1
  matrixRows := 1
  matrixCols := 1
  numEncoders := 0
  eepromAddr := 35
  maxAddr := 1023
  wideInt := false
  room := by decide
  maxAddr_lt := by decide

theorem faithful_oneKey : Faithful oneKey (fun _ => 0)
    [.setKeycode 0 0 0 0x0429, .setBuffer 1 1 fun _ => 0x2A, .setKeycode 1 0 0 7,
      .macroSetBuffer 0xFFFF 1 fun _ => 1]
    (.getKeycode 0 0 0) :=
  faithful _ _ _ (.inr ⟨by simp [Call.Within], trivial⟩)

/-- The second byte of a block at the last position is written to the first key. -/
theorem oneKey_wraps : ¬ Faithful oneKey (fun _ => 0) [.setBuffer 0xFFFF 2 fun _ => 0x29]
    (.getKeycode 0 0 0) := by
  intro h
  have hignored := h.ignored [] _ [] rfl (by change 2 ≤ 65535; decide)
  exact absurd (congrFun hignored 35) (by decide)

end Runs

end Qmk.DynamicKeymap
