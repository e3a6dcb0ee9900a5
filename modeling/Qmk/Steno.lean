import Mathlib.Data.Nat.Notation
import Mathlib.Logic.Function.Basic
import Mathlib.Tactic.SplitIfs

/-! # Steno

`process_steno.c`. The steno keys that are pressed are collected in the chord, which is sent when no
steno key is held any more.
-/

namespace Qmk.Steno

section Keycodes

def QK_STENO : UInt16 := 0x74C0

def QK_STENO_MAX : UInt16 := 0x74FF

def QK_STENO_BOLT : UInt16 := 0x74F0

def QK_STENO_GEMINI : UInt16 := 0x74F1

def QK_STENO_COMB : UInt16 := 0x74F2

def QK_STENO_COMB_MAX : UInt16 := 0x74FC

def STN_MIN : UInt16 := QK_STENO

def STN_MAX : UInt16 := 0x74E9

/-- `combinedmap_first`: `STN_S1`, `STN_TL`, `STN_PL`, `STN_HL`, `STN_FR`, `STN_PR`, `STN_LR`,
`STN_TR`, `STN_DR`, `STN_A` and `STN_E`. -/
def combinedmapFirst : List UInt16 :=
  [0x74C7, 0x74C9, 0x74CB, 0x74CD, 0x74DA, 0x74DC, 0x74DE, 0x74E0, 0x74E2, 0x74CF, 0x74D8]

/-- `combinedmap_second`: `STN_S2`, `STN_KL`, `STN_WL`, `STN_RL`, `STN_RR`, `STN_BR`, `STN_GR`,
`STN_SR`, `STN_ZR`, `STN_O` and `STN_U`. -/
def combinedmapSecond : List UInt16 :=
  [0x74C8, 0x74CA, 0x74CC, 0x74CE, 0x74DB, 0x74DD, 0x74DF, 0x74E1, 0x74E9, 0x74D0, 0x74D9]

end Keycodes

section Bolt

def TXB_NUL : BitVec 8 := 0b00000000
def TXB_S_L : BitVec 8 := 0b00000001
def TXB_T_L : BitVec 8 := 0b00000010
def TXB_K_L : BitVec 8 := 0b00000100
def TXB_P_L : BitVec 8 := 0b00001000
def TXB_W_L : BitVec 8 := 0b00010000
def TXB_H_L : BitVec 8 := 0b00100000
def TXB_R_L : BitVec 8 := 0b01000001
def TXB_A_L : BitVec 8 := 0b01000010
def TXB_O_L : BitVec 8 := 0b01000100
def TXB_STR : BitVec 8 := 0b01001000
def TXB_E_R : BitVec 8 := 0b01010000
def TXB_U_R : BitVec 8 := 0b01100000
def TXB_F_R : BitVec 8 := 0b10000001
def TXB_R_R : BitVec 8 := 0b10000010
def TXB_P_R : BitVec 8 := 0b10000100
def TXB_B_R : BitVec 8 := 0b10001000
def TXB_L_R : BitVec 8 := 0b10010000
def TXB_G_R : BitVec 8 := 0b10100000
def TXB_T_R : BitVec 8 := 0b11000001
def TXB_S_R : BitVec 8 := 0b11000010
def TXB_D_R : BitVec 8 := 0b11000100
def TXB_Z_R : BitVec 8 := 0b11001000
def TXB_NUM : BitVec 8 := 0b11010000

def TXB_GRPMASK : BitVec 8 := 0b11000000

def txbGetGroup (code : BitVec 8) : ℕ := ((code &&& TXB_GRPMASK) >>> 6).toNat

/-- `boltmap`. The places behind the last key are zero. -/
def boltmap : List (BitVec 8) :=
  [TXB_NUL, TXB_NUM, TXB_NUM, TXB_NUM, TXB_NUM, TXB_NUM, TXB_NUM, TXB_S_L, TXB_S_L, TXB_T_L,
    TXB_K_L, TXB_P_L, TXB_W_L, TXB_H_L, TXB_R_L, TXB_A_L, TXB_O_L, TXB_STR, TXB_STR, TXB_NUL,
    TXB_NUL, TXB_NUL, TXB_STR, TXB_STR, TXB_E_R, TXB_U_R, TXB_F_R, TXB_R_R, TXB_P_R, TXB_B_R,
    TXB_L_R, TXB_G_R, TXB_T_R, TXB_S_R, TXB_D_R, TXB_NUM, TXB_NUM, TXB_NUM, TXB_NUM, TXB_NUM,
    TXB_NUM, TXB_Z_R]

def boltcode (key : ℕ) : BitVec 8 := boltmap.getD key TXB_NUL

end Bolt

section Model

/-- `STENO_ENABLE_GEMINI`, `STENO_ENABLE_BOLT`, `VIRTSER_ENABLE` and `STENO_COMBINEDMAP`. With both
protocols `STENO_ENABLE_ALL` is defined too. -/
structure Config where
  enableGemini : Bool
  enableBolt : Bool
  virtser : Bool
  combinedmap : Bool

def Config.enableAll (c : Config) : Bool := c.enableGemini && c.enableBolt

inductive StenoMode
  | gemini
  | bolt
  deriving DecidableEq

def GEMINI_STROKE_SIZE : ℕ := 6

def BOLT_STROKE_SIZE : ℕ := 4

/-- The static variables, the byte at `EECONFIG_STENOMODE`, and what has been given to
`virtser_send`. -/
structure State where
  chord : ℕ → BitVec 8 := fun _ => 0
  nPressedKeys : Int8 := 0
  mode : StenoMode
  stenomode : StenoMode
  serial : List (BitVec 8) := []

structure Keyrecord where
  pressed : Bool
  isNoevent : Bool := false

def sendStenoChordUser (_mode : StenoMode) (_chord : ℕ → BitVec 8) : Bool := true

def postProcessStenoUser (_keycode : UInt16) (_mode : StenoMode) (_chord : ℕ → BitVec 8)
    (_nPressedKeys : Int8) : Bool := true

def processStenoUser (_keycode : UInt16) (_record : Keyrecord) : Bool := true

def stenoClearChord (s : State) : State := { s with chord := fun _ => 0 }

def sendStenoChordGemini (s : State) : State :=
  let chord := Function.update s.chord 0 (s.chord 0 ||| 0x80)
  { s with chord := chord, serial := s.serial ++ (List.range GEMINI_STROKE_SIZE).map chord }

def addGeminiKeyToChord (s : State) (key : ℕ) : State :=
  let groupIdx := key / 7
  let intraGroupIdx := key - groupIdx * 7
  let bit : BitVec 8 := 1 <<< (6 - intraGroupIdx)
  { s with chord := Function.update s.chord groupIdx (s.chord groupIdx ||| bit) }

def sendStenoChordBolt (s : State) : State :=
  { s with serial :=
      s.serial ++ ((List.range BOLT_STROKE_SIZE).map s.chord).filter (fun b => b ≠ 0) ++ [0] }

def addBoltKeyToChord (s : State) (key : ℕ) : State :=
  let groupIdx := txbGetGroup (boltcode key)
  { s with chord := Function.update s.chord groupIdx (s.chord groupIdx ||| boltcode key) }

def stenoSetMode (newMode : StenoMode) (s : State) : State :=
  { stenoClearChord s with mode := newMode, stenomode := newMode }

variable (c : Config)

/-- The argument of the two functions that add a key. -/
def keyIndex (keycode : UInt16) : ℕ := (keycode - QK_STENO).toUInt8.toNat

/-- The branch of a pressed key, without the hook that ends it. -/
def addKeyToChord (s : State) (keycode : UInt16) : State :=
  match s.mode with
  | .bolt => if c.enableBolt then addBoltKeyToChord s (keyIndex keycode) else s
  | .gemini => if c.enableGemini then addGeminiKeyToChord s (keyIndex keycode) else s

def sendStenoChord (s : State) : State :=
  match s.mode with
  | .bolt => if c.enableBolt && c.virtser then sendStenoChordBolt s else s
  | .gemini => if c.enableGemini && c.virtser then sendStenoChordGemini s else s

def releaseKey (s : State) (keycode : UInt16) : State :=
  let s := { s with nPressedKeys := s.nPressedKeys - 1 }
  if !postProcessStenoUser keycode s.mode s.chord s.nPressedKeys then s
  else if 0 < s.nPressedKeys then s
  else
    let s := { s with nPressedKeys := 0 }
    if !sendStenoChordUser s.mode s.chord then stenoClearChord s
    else stenoClearChord (sendStenoChord c s)

/-- `process_steno` for a keycode from `STN__MIN` to `STN__MAX`. -/
def processStn (s : State) (keycode : UInt16) (record : Keyrecord) : State :=
  if record.pressed then
    addKeyToChord c { s with nPressedKeys := s.nPressedKeys + 1 } keycode
  else releaseKey c s keycode

/-- Whether the event is passed on, and the state. The keycodes of the combined maps are those of
single keys, so `processStn` stands for the calls of `process_steno` with them. -/
def processSteno (s : State) (keycode : UInt16) (record : Keyrecord) : Bool × State :=
  if keycode < QK_STENO ∨ QK_STENO_MAX < keycode then (true, s)
  else if record.isNoevent then (true, s)
  else if !processStenoUser keycode record then (false, s)
  else if c.enableAll ∧ keycode = QK_STENO_BOLT then
    (false, if record.pressed then stenoSetMode .bolt s else s)
  else if c.enableAll ∧ keycode = QK_STENO_GEMINI then
    (false, if record.pressed then stenoSetMode .gemini s else s)
  else if c.combinedmap ∧ QK_STENO_COMB ≤ keycode ∧ keycode ≤ QK_STENO_COMB_MAX then
    let i := (keycode - QK_STENO_COMB).toNat
    let s := processStn c s (combinedmapFirst.getD i 0) record
    (false, processStn c s (combinedmapSecond.getD i 0) record)
  else if STN_MIN ≤ keycode ∧ keycode ≤ STN_MAX then (false, processStn c s keycode record)
  else (false, s)

end Model

section Combined

variable {c : Config} {s : State} {keycode : UInt16} {record : Keyrecord}

theorem processSteno_single (hkeycode : STN_MIN ≤ keycode ∧ keycode ≤ STN_MAX) :
    processSteno c s keycode record =
      if record.isNoevent then (true, s) else (false, processStn c s keycode record) := by
  unfold processSteno
  simp only [STN_MIN, STN_MAX, QK_STENO, QK_STENO_MAX, QK_STENO_BOLT, QK_STENO_GEMINI,
    QK_STENO_COMB, QK_STENO_COMB_MAX, processStenoUser, UInt16.lt_iff_toNat_lt,
    UInt16.le_iff_toNat_le, ← UInt16.toNat_inj, UInt16.toNat_ofNat] at hkeycode ⊢
  split_ifs <;> first | rfl | omega | simp_all

theorem combinedmap_single (i : ℕ) (hi : i ≤ 10) :
    (STN_MIN ≤ combinedmapFirst.getD i 0 ∧ combinedmapFirst.getD i 0 ≤ STN_MAX) ∧
      STN_MIN ≤ combinedmapSecond.getD i 0 ∧ combinedmapSecond.getD i 0 ≤ STN_MAX := by
  revert i
  decide

theorem processSteno_combined (hc : c.combinedmap)
    (hkeycode : QK_STENO_COMB ≤ keycode ∧ keycode ≤ QK_STENO_COMB_MAX) :
    let i := (keycode - QK_STENO_COMB).toNat
    let first := processSteno c s (combinedmapFirst.getD i 0) record
    let second := processSteno c first.2 (combinedmapSecond.getD i 0) record
    processSteno c s keycode record = (first.1 && second.1, second.2) := by
  have hi : (keycode - QK_STENO_COMB).toNat ≤ 10 := by
    rw [UInt16.toNat_sub_of_le _ _ hkeycode.1]
    simp only [QK_STENO_COMB, QK_STENO_COMB_MAX, UInt16.le_iff_toNat_le,
      UInt16.toNat_ofNat] at hkeycode ⊢
    omega
  obtain ⟨hfirst, hsecond⟩ := combinedmap_single _ hi
  simp only [processSteno_single hfirst, processSteno_single hsecond]
  unfold processSteno
  simp only [QK_STENO, QK_STENO_MAX, QK_STENO_BOLT, QK_STENO_GEMINI,
    QK_STENO_COMB, QK_STENO_COMB_MAX, processStenoUser, UInt16.lt_iff_toNat_lt,
    UInt16.le_iff_toNat_le, ← UInt16.toNat_inj, UInt16.toNat_ofNat, hc] at hkeycode ⊢
  split_ifs <;> first | rfl | omega | simp_all

end Combined

end Qmk.Steno
