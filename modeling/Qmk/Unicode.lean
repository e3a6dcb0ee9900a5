import Qmk.KeyOverride
import Qmk.SendString
import Qmk.Utf8

/-! # Unicode input

`unicode.c` with the default `unicode_input_start` and `unicode_input_finish`, without Command. What
is typed is kept as the calls that type it.
-/

namespace Qmk.Unicode

open KeyOverride (extractModBits)

inductive InputMode
  | macos
  | linux
  | windows
  | bsd
  | wincompose
  | emacs
  deriving DecidableEq

/-- What is typed, the waits, and where `unicode_input_start` returns and `unicode_input_finish` is
called. -/
inductive Effect
  | registerCode (code : BitVec 8)
  | unregisterCode (code : BitVec 8)
  | tapCode (code : BitVec 8)
  | tapCode16 (code : BitVec 16)
  | sendChar (c : BitVec 8)
  | wait (ms : ℕ)
  | inputStarted
  | inputFinishing
  deriving DecidableEq

structure LedState where
  numLock : Bool := false
  capsLock : Bool := false
  deriving DecidableEq

section Keycodes

def kcU : BitVec 8 := 0x18

def kcX : BitVec 16 := 0x1B

def kc8 : BitVec 16 := 0x25

def kcEnter : BitVec 8 := 0x28

def kcSpace : BitVec 8 := 0x2C

def kcCapsLock : BitVec 8 := 0x39

def kcNumLock : BitVec 8 := 0x53

def kcKpPlus : BitVec 8 := 0x57

def kcKp1 : BitVec 8 := 0x59

def kcA : BitVec 8 := 0x04

def kcLeftAlt : BitVec 8 := 0xE2

def kcRightAlt : BitVec 8 := 0xE6

def lctl (keycode : BitVec 16) : BitVec 16 := 0x0100 ||| keycode

def lsft (keycode : BitVec 16) : BitVec 16 := 0x0200 ||| keycode

def IsModifier (code : BitVec 8) : Prop := 0xE0 ≤ code ∧ code ≤ 0xE7

instance (code : BitVec 8) : Decidable (IsModifier code) := inferInstanceAs (Decidable (_ ∧ _))

def modBit (code : BitVec 8) : BitVec 8 := 1 <<< (code &&& 0x07).toNat

end Keycodes

/-- The build: the macros, the tables of `send_char`, and what the host answers to
`host_keyboard_led_state` after these effects. -/
structure Config where
  unicodeKeyMac : BitVec 8 := kcLeftAlt
  unicodeKeyLnx : BitVec 16 := lctl (lsft (kcU.setWidth 16))
  unicodeKeyWinc : BitVec 8 := kcRightAlt
  unicodeTypeDelay : ℕ := 10
  tapCodeDelay : ℕ := 0
  tables : SendString.Tables
  hostKeyboardLedState : List Effect → LedState

/-- `unicode_config`, the saved state, the modifiers, and the effects so far. -/
structure State where
  inputMode : InputMode
  savedMods : BitVec 8 := 0
  savedLedState : LedState := {}
  realMods : BitVec 8 := 0
  weakMods : BitVec 8 := 0
  effects : List Effect := []
  deriving DecidableEq

section Typing

def State.emit (e : Effect) (s : State) : State := { s with effects := s.effects ++ [e] }

/-- What `register_code` does to the modifiers. -/
def State.pressMods (code : BitVec 8) (s : State) : State :=
  if IsModifier code then { s with realMods := s.realMods ||| modBit code } else s

/-- What `unregister_code` does to the modifiers. -/
def State.releaseMods (code : BitVec 8) (s : State) : State :=
  if IsModifier code then { s with realMods := s.realMods &&& ~~~modBit code } else s

def registerCode (code : BitVec 8) (s : State) : State :=
  (s.pressMods code).emit (.registerCode code)

def unregisterCode (code : BitVec 8) (s : State) : State :=
  (s.releaseMods code).emit (.unregisterCode code)

def tapCode (code : BitVec 8) (s : State) : State :=
  ((s.pressMods code).releaseMods code).emit (.tapCode code)

def tapCode16 (code : BitVec 16) (s : State) : State :=
  let mods := extractModBits code
  let low := code.setWidth 8
  if (0xE0 ≤ code ∧ code ≤ 0xE7) ∨ code = 0 then
    let s := ({ s with realMods := s.realMods ||| mods }.pressMods low).releaseMods low
    { s with realMods := s.realMods &&& ~~~mods }.emit (.tapCode16 code)
  else
    let s := ({ s with weakMods := s.weakMods ||| mods }.pressMods low).releaseMods low
    { s with weakMods := s.weakMods &&& ~~~mods }.emit (.tapCode16 code)

def waitMs (ms : ℕ) (s : State) : State := s.emit (.wait ms)

/-- What `send_char` does to the modifiers in a step. -/
def State.sends (s : State) : SendString.Effect → State
  | .registerCode code => s.pressMods code
  | .unregisterCode code => s.releaseMods code
  | .tapCode code => (s.pressMods code).releaseMods code
  | .tapCodeDelay code _ => (s.pressMods code).releaseMods code
  | _ => s

def sendChar (cfg : Config) (c : BitVec 8) (s : State) : State :=
  ((SendString.sendChar cfg.tables cfg.tapCodeDelay c).foldl State.sends s).emit (.sendChar c)

end Typing

section Unicode

variable (cfg : Config)

def unicodeInputStart (s : State) : State :=
  let s := { s with savedLedState := cfg.hostKeyboardLedState s.effects }
  let s :=
    if s.inputMode = .linux ∧ s.savedLedState.capsLock then tapCode kcCapsLock s else s
  let s := { s with savedMods := s.realMods, realMods := 0, weakMods := 0 }
  let s :=
    match s.inputMode with
    | .macos => registerCode cfg.unicodeKeyMac s
    | .linux => tapCode16 cfg.unicodeKeyLnx s
    | .windows =>
      let s := if ¬ s.savedLedState.numLock then tapCode kcNumLock s else s
      tapCode kcKpPlus (waitMs cfg.unicodeTypeDelay (registerCode kcLeftAlt s))
    | .bsd => s
    | .wincompose => tapCode kcU (tapCode cfg.unicodeKeyWinc s)
    | .emacs => tapCode16 (kcEnter.setWidth 16) (tapCode16 kc8 (tapCode16 (lctl kcX) s))
  (waitMs cfg.unicodeTypeDelay s).emit .inputStarted

def unicodeInputFinish (s : State) : State :=
  let s := s.emit .inputFinishing
  let s :=
    match s.inputMode with
    | .macos => unregisterCode cfg.unicodeKeyMac s
    | .linux =>
      let s := tapCode kcSpace s
      if s.savedLedState.capsLock then tapCode kcCapsLock s else s
    | .windows =>
      let s := unregisterCode kcLeftAlt s
      if ¬ s.savedLedState.numLock then tapCode kcNumLock s else s
    | .bsd => s
    | .wincompose => tapCode kcEnter s
    | .emacs => tapCode16 (kcEnter.setWidth 16) s
  { s with realMods := s.savedMods }

def nibbleChar (number : ℕ) : BitVec 8 :=
  if number % 16 < 10 then BitVec.ofNat 8 (number + 48) else BitVec.ofNat 8 (number - 10 + 97)

def nibbleCode (digit : ℕ) : BitVec 8 :=
  if digit < 10 then kcKp1 + BitVec.ofNat 8 ((10 + digit - 1) % 10)
  else kcA + BitVec.ofNat 8 (digit - 10)

def sendNibbleWrapper (digit : ℕ) (s : State) : State :=
  if s.inputMode = .windows then tapCode (nibbleCode digit) s
  else sendChar cfg (nibbleChar digit) s

/-- A round of the loop of `register_hex32`, with `first_digit`. -/
def hexRound (needsLeadingZero : Bool) (hex : BitVec 32) (r : Bool × State) (i : ℕ) :
    Bool × State :=
  let (firstDigit, s) := r
  let digit := (hex >>> (i * 4) &&& 0xF).toNat
  let s := if firstDigit ∧ needsLeadingZero ∧ 9 < digit then sendNibbleWrapper cfg 0 s else s
  if digit ≠ 0 ∨ ¬ firstDigit ∨ i < 4 then (false, sendNibbleWrapper cfg digit s)
  else (firstDigit, s)

def registerHex32 (hex : BitVec 32) (s : State) : State :=
  ([7, 6, 5, 4, 3, 2, 1, 0].foldl (hexRound cfg (s.inputMode = .wincompose) hex) (true, s)).2

def registerUnicode (codePoint : BitVec 32) (s : State) : State :=
  if 0x10FFFF < codePoint ∨ (0xFFFF < codePoint ∧ s.inputMode = .windows) then s
  else
    let s := unicodeInputStart cfg s
    let s :=
      if 0xFFFF < codePoint ∧ s.inputMode = .macos then
        let codePoint := codePoint - 0x10000
        let lo := codePoint &&& 0x3FF
        let hi := (codePoint &&& 0xFFC00) >>> 10
        registerHex32 cfg (lo + 0xDC00) (registerHex32 cfg (hi + 0xD800) s)
      else registerHex32 cfg codePoint s
    unicodeInputFinish cfg s

/-- The loop of `send_unicode_string`, with no value if it does not end in `fuel` rounds. -/
def sendCodePoints (str : Mem (BitVec 8)) : ℕ → ℕ → State → Option State
  | 0, _, _ => none
  | fuel + 1, p, s =>
    if str p = 0 then some s
    else
      let decoded := Utf8.decodeUtf8 str p
      sendCodePoints str fuel decoded.next
        (if 0 ≤ decoded.codePoint then registerUnicode cfg (BitVec.ofInt 32 decoded.codePoint) s
          else s)

def sendUnicodeString (mem : Mem (BitVec 8)) (fuel : ℕ) (str : Option ℕ) (s : State) :
    Option State :=
  match str with
  | none => some s
  | some p => sendCodePoints cfg mem fuel p s

end Unicode

end Qmk.Unicode
