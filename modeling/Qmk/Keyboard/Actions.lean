import Qmk.Keyboard.Report
import Qmk.LayerState

/-! # Actions

From the keycode of a key to the calls on the report: `keycode_config.c`, `action_for_keycode`, and
`process_action` with what it calls of `action_util.c`, `action_layer.c` and `host.c`. One-shot
keys, mouse keys and swapped hands are not built in, and the features that take a keycode for
themselves are elsewhere.
-/

namespace Qmk.Keyboard

section KeycodeConfig

/-- The fields of `keymap_config_t` that remap keycodes. -/
structure KeymapConfig where
  swapControlCapslock : Bool := false
  capslockToControl : Bool := false
  swapLaltLgui : Bool := false
  swapRaltRgui : Bool := false
  noGui : Bool := false
  swapGraveEsc : Bool := false
  swapBackslashBackspace : Bool := false
  swapLctlLgui : Bool := false
  swapRctlRgui : Bool := false
  swapEscapeCapslock : Bool := false
  deriving DecidableEq

abbrev KC_NO : BitVec 16 := 0x00
abbrev KC_TRANSPARENT : BitVec 16 := 0x01
abbrev KC_ESCAPE : BitVec 16 := 0x29
abbrev KC_BACKSPACE : BitVec 16 := 0x2A
abbrev KC_BACKSLASH : BitVec 16 := 0x31
abbrev KC_GRAVE : BitVec 16 := 0x35
abbrev KC_CAPS_LOCK : BitVec 16 := 0x39
abbrev KC_LOCKING_CAPS_LOCK : BitVec 16 := 0x82
abbrev KC_LEFT_CTRL : BitVec 16 := 0xE0
abbrev KC_LEFT_ALT : BitVec 16 := 0xE2
abbrev KC_LEFT_GUI : BitVec 16 := 0xE3
abbrev KC_RIGHT_CTRL : BitVec 16 := 0xE4
abbrev KC_RIGHT_ALT : BitVec 16 := 0xE6
abbrev KC_RIGHT_GUI : BitVec 16 := 0xE7

variable (k : KeymapConfig)

def keycodeConfig (keycode : BitVec 16) : BitVec 16 :=
  if keycode = KC_CAPS_LOCK ∨ keycode = KC_LOCKING_CAPS_LOCK then
    if k.swapControlCapslock ∨ k.capslockToControl then KC_LEFT_CTRL
    else if k.swapEscapeCapslock then KC_ESCAPE
    else keycode
  else if keycode = KC_LEFT_CTRL then
    if k.swapControlCapslock then KC_CAPS_LOCK
    else if k.swapLctlLgui then if k.noGui then KC_NO else KC_LEFT_GUI
    else KC_LEFT_CTRL
  else if keycode = KC_LEFT_ALT then
    if k.swapLaltLgui then if k.noGui then KC_NO else KC_LEFT_GUI
    else KC_LEFT_ALT
  else if keycode = KC_LEFT_GUI then
    if k.swapLaltLgui then KC_LEFT_ALT
    else if k.swapLctlLgui then KC_LEFT_CTRL
    else if k.noGui then KC_NO
    else KC_LEFT_GUI
  else if keycode = KC_RIGHT_CTRL then
    if k.swapRctlRgui then if k.noGui then KC_NO else KC_RIGHT_GUI
    else KC_RIGHT_CTRL
  else if keycode = KC_RIGHT_ALT then
    if k.swapRaltRgui then if k.noGui then KC_NO else KC_RIGHT_GUI
    else KC_RIGHT_ALT
  else if keycode = KC_RIGHT_GUI then
    if k.swapRaltRgui then KC_RIGHT_ALT
    else if k.swapRctlRgui then KC_RIGHT_CTRL
    else if k.noGui then KC_NO
    else KC_RIGHT_GUI
  else if keycode = KC_GRAVE then if k.swapGraveEsc then KC_ESCAPE else KC_GRAVE
  else if keycode = KC_ESCAPE then
    if k.swapGraveEsc then KC_GRAVE
    else if k.swapEscapeCapslock then KC_CAPS_LOCK
    else KC_ESCAPE
  else if keycode = KC_BACKSLASH then
    if k.swapBackslashBackspace then KC_BACKSPACE else KC_BACKSLASH
  else if keycode = KC_BACKSPACE then
    if k.swapBackslashBackspace then KC_BACKSLASH else KC_BACKSPACE
  else keycode

abbrev MOD_LCTL : BitVec 8 := 0x01
abbrev MOD_LALT : BitVec 8 := 0x04
abbrev MOD_LGUI : BitVec 8 := 0x08
abbrev MOD_RCTL : BitVec 8 := 0x11
abbrev MOD_RALT : BitVec 8 := 0x14
abbrev MOD_RGUI : BitVec 8 := 0x18

/-- Two modifiers of a side trade places, when just one of them is in `mod`. The bits that `right`
has besides tell the side, which `side` and `gui` are compared with. -/
def swapWithGui (right rightGui side gui left : BitVec 8) (mod : BitVec 8) : BitVec 8 :=
  if (mod &&& right = side) ≠ (mod &&& rightGui = gui) then mod ^^^ (left ||| MOD_LGUI) else mod

def modConfig (mod : BitVec 8) : BitVec 8 :=
  let mod := if k.swapLaltLgui then swapWithGui MOD_RALT MOD_RGUI MOD_LALT MOD_LGUI MOD_LALT mod
    else mod
  let mod := if k.swapRaltRgui then swapWithGui MOD_RALT MOD_RGUI MOD_RALT MOD_RGUI MOD_LALT mod
    else mod
  let mod := if k.swapLctlLgui then swapWithGui MOD_RCTL MOD_RGUI MOD_LCTL MOD_LGUI MOD_LCTL mod
    else mod
  let mod := if k.swapRctlRgui then swapWithGui MOD_RCTL MOD_RGUI MOD_RCTL MOD_RGUI MOD_LCTL mod
    else mod
  if k.noGui then mod &&& ~~~MOD_LGUI &&& ~~~MOD_RGUI else mod

end KeycodeConfig

section ActionCode

/-- `action_t`. Its fields overlap: what the bits mean depends on the kind. -/
abbrev Action := BitVec 16

inductive Kind
  | lmods | rmods | lmodsTap | rmodsTap | usage | mousekey | swapHands
  | layer | layerMods | layerTap | layerTapExt | other
  deriving DecidableEq

variable (a : Action)

def Action.kind : Kind :=
  match (a.extractLsb' 12 4).toNat with
  | 0b0000 => .lmods
  | 0b0001 => .rmods
  | 0b0010 => .lmodsTap
  | 0b0011 => .rmodsTap
  | 0b0100 => .usage
  | 0b0101 => .mousekey
  | 0b0110 => .swapHands
  | 0b1000 => .layer
  | 0b1001 => .layerMods
  | 0b1010 => .layerTap
  | 0b1011 => .layerTapExt
  | _ => .other

def Action.code : BitVec 8 := a.extractLsb' 0 8

/-- `action.key.mods`, in the eight bits of the left and the right hand. -/
def Action.mods (right : Bool) : BitVec 8 :=
  let mods := (a.extractLsb' 8 4).setWidth 8
  if right then mods <<< 4 else mods

def Action.val : ℕ := (a.extractLsb' 8 5).toNat

def Action.layerModsMods : BitVec 8 := a.extractLsb' 0 8

def Action.layerModsLayer : ℕ := (a.extractLsb' 8 4).toNat

def Action.page : ℕ := (a.extractLsb' 10 2).toNat

def Action.usageCode : BitVec 16 := (a.extractLsb' 0 10).setWidth 16

def Action.on : BitVec 2 := a.extractLsb' 8 2

def Action.op : ℕ := (a.extractLsb' 10 2).toNat

/-- `bits | mask` for a layer state of `w` bits: the four bits of the part, and with `xbit` all the
bits of the other parts. -/
def Action.bitop (w : ℕ) : BitVec w :=
  let shift := (a.extractLsb' 5 3).toNat * 4
  let bits := (a.extractLsb' 0 4).setWidth w <<< shift
  let mask : BitVec w := if a.getLsbD 4 then ~~~(0xf <<< shift) else 0
  bits ||| mask

def MODS_TAP_TOGGLE : BitVec 8 := 0x01
def PAGE_SYSTEM : ℕ := 0
def PAGE_CONSUMER : ℕ := 1
def ON_PRESS : BitVec 2 := 1
def ON_RELEASE : BitVec 2 := 2
def OP_TAP_TOGGLE : BitVec 8 := 0xF0
def OP_ON_OFF : BitVec 8 := 0xF1
def OP_OFF_ON : BitVec 8 := 0xF2
def OP_SET_CLEAR : BitVec 8 := 0xF3

def ACTION (kind param : ℕ) : Action := BitVec.ofNat 16 (kind <<< 12 ||| param)

def ACTION_NO : Action := 0
def ACTION_TRANSPARENT : Action := 1

def ACTION_MODS_KEY (mods key : ℕ) : Action := ACTION 0b0000 ((mods &&& 0x1f) <<< 8 ||| key)

def ACTION_KEY (key : ℕ) : Action := ACTION 0b0000 key

def ACTION_MODS (mods : ℕ) : Action := ACTION 0b0000 ((mods &&& 0x1f) <<< 8)

def ACTION_MODS_TAP_KEY (mods key : ℕ) : Action := ACTION 0b0010 ((mods &&& 0x1f) <<< 8 ||| key)

def ACTION_USAGE_SYSTEM (id : ℕ) : Action := ACTION 0b0100 (PAGE_SYSTEM <<< 10 ||| id)

def ACTION_USAGE_CONSUMER (id : ℕ) : Action := ACTION 0b0100 (PAGE_CONSUMER <<< 10 ||| id)

def ACTION_MOUSEKEY (key : ℕ) : Action := ACTION 0b0101 key

/-- `ACTION_LAYER_BITOP`; `op` is the place of the operation in `layer_param_bit_op`. -/
def ACTION_LAYER_BITOP (op part bits on : ℕ) : Action :=
  ACTION 0b1000 (op <<< 10 ||| on <<< 8 ||| part <<< 5 ||| (bits &&& 0x1f))

def ACTION_LAYER_GOTO (layer : ℕ) : Action := ACTION_LAYER_BITOP 3 (layer / 4) (1 <<< (layer % 4)) 1

def ACTION_DEFAULT_LAYER_SET (layer : ℕ) : Action :=
  ACTION_LAYER_BITOP 3 (layer / 4) (1 <<< (layer % 4)) 0

def ACTION_LAYER_TOGGLE (layer : ℕ) : Action :=
  ACTION_LAYER_BITOP 2 (layer / 4) (1 <<< (layer % 4)) 2

def ACTION_LAYER_TAP (layer key : ℕ) : Action := ACTION 0b1010 (layer <<< 8 ||| key)

def ACTION_LAYER_MOMENTARY (layer : ℕ) : Action := ACTION_LAYER_TAP layer OP_ON_OFF.toNat

def ACTION_LAYER_TAP_TOGGLE (layer : ℕ) : Action := ACTION_LAYER_TAP layer OP_TAP_TOGGLE.toNat

def ACTION_LAYER_MODS (layer mods : ℕ) : Action := ACTION 0b1001 (layer <<< 8 ||| mods)

end ActionCode

section Codes

variable (code : BitVec 8)

def IsBasic : Prop := 0x04 ≤ code ∧ code ≤ 0xA4

def IsModifier : Prop := 0xE0 ≤ code ∧ code ≤ 0xE7

def IsSystem : Prop := 0xA5 ≤ code ∧ code ≤ 0xA7

def IsConsumer : Prop := 0xA8 ≤ code ∧ code ≤ 0xC2

instance : Decidable (IsBasic code) := inferInstanceAs (Decidable (_ ∧ _))
instance : Decidable (IsModifier code) := inferInstanceAs (Decidable (_ ∧ _))
instance : Decidable (IsSystem code) := inferInstanceAs (Decidable (_ ∧ _))
instance : Decidable (IsConsumer code) := inferInstanceAs (Decidable (_ ∧ _))

def modBit : BitVec 8 := bitMask 8 (code.toNat % 8)

/-- `KEYCODE2SYSTEM`: the usages from `KC_SYSTEM_POWER` on. -/
def keycode2system : ℕ := if IsSystem code then [0x81, 0x82, 0x83].getD (code.toNat - 0xA5) 0 else 0

/-- `KEYCODE2CONSUMER`: the usages from `KC_AUDIO_MUTE` on. -/
def keycode2consumer : ℕ :=
  if IsConsumer code then
    [0x0E2, 0x0E9, 0x0EA, 0x0B5, 0x0B6, 0x0B7, 0x0CD, 0x183, 0x0CC, 0x18A, 0x192, 0x194, 0x221,
      0x223, 0x224, 0x225, 0x226, 0x227, 0x22A, 0x0B3, 0x0B4, 0x06F, 0x070, 0x19F, 0x1CB, 0x29F,
      0x2A0].getD (code.toNat - 0xA8) 0
  else 0

end Codes

section ActionForKeycode

/-- What is configured: the remapping of keycodes, and how the actions are built. -/
structure Config where
  keymapConfig : KeymapConfig := {}
  noActionTapping : Bool := false
  tappingToggle : ℕ := 5

/-- `keycode` is in a range of `keycodes.h`. -/
def InRange (first last keycode : BitVec 16) : Prop := first ≤ keycode ∧ keycode ≤ last

instance (first last keycode : BitVec 16) : Decidable (InRange first last keycode) :=
  inferInstanceAs (Decidable (_ ∧ _))

variable (c : Config)

/-- `mod_config` of the five bits of a keycode from bit `shift` on. -/
def configMods (shift : ℕ) (keycode : BitVec 16) : ℕ :=
  (modConfig c.keymapConfig ((keycode >>> shift).setWidth 8 &&& 0x1f)).toNat

def configTapKeycode (keycode : BitVec 16) : ℕ :=
  (keycodeConfig c.keymapConfig (keycode &&& 0xff)).toNat

def actionForKeycode (keycode : BitVec 16) : Action :=
  let keycode := keycodeConfig c.keymapConfig keycode
  let layer := (keycode &&& 0x1f).toNat
  if InRange 0x04 0xA4 keycode ∨ InRange 0xE0 0xE7 keycode then ACTION_KEY keycode.toNat
  else if InRange 0xA5 0xA7 keycode then ACTION_USAGE_SYSTEM (keycode2system (keycode.setWidth 8))
  else if InRange 0xA8 0xC2 keycode then
    ACTION_USAGE_CONSUMER (keycode2consumer (keycode.setWidth 8))
  else if InRange 0xCD 0xDF keycode then ACTION_MOUSEKEY keycode.toNat
  else if keycode = KC_TRANSPARENT then ACTION_TRANSPARENT
  else if InRange 0x0100 0x1FFF keycode then  -- QK_MODS
    ACTION_MODS_KEY (configMods c 8 keycode) (configTapKeycode c keycode)
  else if InRange 0x4000 0x4FFF keycode then  -- QK_LAYER_TAP
    if c.noActionTapping then ACTION_KEY (configTapKeycode c keycode)
    else ACTION_LAYER_TAP ((keycode >>> 8).toNat &&& 0xf) (configTapKeycode c keycode)
  else if InRange 0x5200 0x521F keycode then ACTION_LAYER_GOTO layer
  else if InRange 0x5220 0x523F keycode then ACTION_LAYER_MOMENTARY layer
  else if InRange 0x5240 0x525F keycode then ACTION_DEFAULT_LAYER_SET layer
  else if InRange 0x5260 0x527F keycode then ACTION_LAYER_TOGGLE layer
  else if InRange 0x52A0 0x52BF keycode then ACTION_MODS (configMods c 0 keycode)
  else if InRange 0x52C0 0x52DF keycode then  -- QK_LAYER_TAP_TOGGLE
    if c.noActionTapping then ACTION_LAYER_TOGGLE layer else ACTION_LAYER_TAP_TOGGLE layer
  else if InRange 0x5000 0x51FF keycode then  -- QK_LAYER_MOD
    let mod := configMods c 0 keycode
    ACTION_LAYER_MODS ((keycode >>> 5).toNat &&& 0xf) (if mod &&& 0x10 ≠ 0 then mod <<< 4 else mod)
  else if InRange 0x2000 0x3FFF keycode then  -- QK_MOD_TAP
    if c.noActionTapping then ACTION_KEY (configTapKeycode c keycode)
    else ACTION_MODS_TAP_KEY (configMods c 8 keycode) (configTapKeycode c keycode)
  else ACTION_NO

end ActionForKeycode

section State

/-- The statics of `action_util.c`, of `host.c` and of `action_layer.c`, and what has been sent. A
report that is sent has the modifiers and the keys. -/
structure State (f : Form) (w : ℕ) where
  realMods : BitVec 8 := 0
  weakMods : BitVec 8 := 0
  keys : f.Keys := f.start
  lastReport : BitVec 8 × f.Sent := (0, f.sent f.start)
  sentReports : List (BitVec 8 × f.Sent) := []
  lastSystemUsage : BitVec 16 := 0
  lastConsumerUsage : BitVec 16 := 0
  layerState : BitVec w := 0
  defaultLayerState : BitVec w := 0

variable {f : Form} {w : ℕ}

def State.report (s : State f w) : BitVec 8 × f.Sent := (s.realMods ||| s.weakMods, f.sent s.keys)

def sendKeyboardReport (s : State f w) : State f w :=
  if s.report ≠ s.lastReport then
    { s with lastReport := s.report, sentReports := s.sentReports ++ [s.report] }
  else s

def addMods (mods : BitVec 8) (s : State f w) : State f w :=
  { s with realMods := s.realMods ||| mods }

def delMods (mods : BitVec 8) (s : State f w) : State f w :=
  { s with realMods := s.realMods &&& ~~~mods }

def addWeakMods (mods : BitVec 8) (s : State f w) : State f w :=
  { s with weakMods := s.weakMods ||| mods }

def delWeakMods (mods : BitVec 8) (s : State f w) : State f w :=
  { s with weakMods := s.weakMods &&& ~~~mods }

def clearWeakMods (s : State f w) : State f w := { s with weakMods := 0 }

def addKey (code : Code) (s : State f w) : State f w := { s with keys := f.add code s.keys }

def delKey (code : Code) (s : State f w) : State f w := { s with keys := f.del code s.keys }

def isKeyPressed (code : Code) (s : State f w) : Bool := f.shows code (f.sent s.keys)

def hostSystemSend (usage : BitVec 16) (s : State f w) : State f w :=
  { s with lastSystemUsage := usage }

def hostConsumerSend (usage : BitVec 16) (s : State f w) : State f w :=
  { s with lastConsumerUsage := usage }

def layerStateSet (state : BitVec w) (s : State f w) : State f w := { s with layerState := state }

def defaultLayerStateSet (state : BitVec w) (s : State f w) : State f w :=
  { s with defaultLayerState := state }

end State

section ProcessAction

variable {f : Form} {w : ℕ}

def basicCode (code : BitVec 8) (h : IsBasic code) : Code :=
  ⟨code, fun hzero => absurd (hzero ▸ h.1) (by decide)⟩

def registerCode (code : BitVec 8) (s : State f w) : State f w :=
  if h : IsBasic code then
    let code := basicCode code h
    -- A key that is pressed already is released first, so that the host sees a new press.
    let s := if isKeyPressed code s then sendKeyboardReport (delKey code s) else s
    sendKeyboardReport (addKey code s)
  else if IsModifier code then sendKeyboardReport (addMods (modBit code) s)
  else if IsSystem code then hostSystemSend (keycode2system code) s
  else if IsConsumer code then hostConsumerSend (keycode2consumer code) s
  else s

def unregisterCode (code : BitVec 8) (s : State f w) : State f w :=
  if h : IsBasic code then sendKeyboardReport (delKey (basicCode code h) s)
  else if IsModifier code then sendKeyboardReport (delMods (modBit code) s)
  else if IsSystem code then hostSystemSend 0 s
  else if IsConsumer code then hostConsumerSend 0 s
  else s

def registerMods (mods : BitVec 8) (s : State f w) : State f w :=
  if mods ≠ 0 then sendKeyboardReport (addMods mods s) else s

def unregisterMods (mods : BitVec 8) (s : State f w) : State f w :=
  if mods ≠ 0 then sendKeyboardReport (delMods mods s) else s

/-- The modifiers of the action are not weak: they stand alone or with another modifier. -/
def Action.IsStrong (a : Action) : Prop := IsModifier a.code ∨ a.code = 0

instance (a : Action) : Decidable a.IsStrong := inferInstanceAs (Decidable (_ ∨ _))

variable (c : Config) (pressed : Bool) (tapCount : ℕ) (a : Action)

/-- The cases `ACT_LMODS` and `ACT_RMODS` of `process_action`. -/
def processMods (right : Bool) (s : State f w) : State f w :=
  let mods := a.mods right
  if pressed then
    let s :=
      if mods ≠ 0 then
        sendKeyboardReport (if a.IsStrong then addMods mods s else addWeakMods mods s)
      else s
    registerCode a.code s
  else
    let s := unregisterCode a.code s
    if mods ≠ 0 then
      sendKeyboardReport (if a.IsStrong then delMods mods s else delWeakMods mods s)
    else s

/-- The cases `ACT_LMODS_TAP` and `ACT_RMODS_TAP`. -/
def processModsTap (right : Bool) (s : State f w) : State f w :=
  let mods := a.mods right
  if c.noActionTapping then s
  else if a.code = MODS_TAP_TOGGLE then
    if pressed then if tapCount ≤ c.tappingToggle then registerMods mods s else s
    else if tapCount < c.tappingToggle then unregisterMods mods s else s
  else if pressed then if 0 < tapCount then registerCode a.code s else registerMods mods s
  else if 0 < tapCount then unregisterCode a.code s else unregisterMods mods s

def processUsage (s : State f w) : State f w :=
  if a.page = PAGE_SYSTEM then hostSystemSend (if pressed then a.usageCode else 0) s
  else if a.page = PAGE_CONSUMER then hostConsumerSend (if pressed then a.usageCode else 0) s
  else s

/-- `layer_and`, `layer_or`, `layer_xor` and `layer_state_set`, by `layer_param_bit_op`. -/
def bitOp (op : ℕ) (bits state : BitVec w) : BitVec w :=
  match op with
  | 0 => state &&& bits
  | 1 => state ||| bits
  | 2 => state ^^^ bits
  | _ => bits

def processLayer (s : State f w) : State f w :=
  if a.on = 0 then
    if pressed then s else defaultLayerStateSet (bitOp a.op (a.bitop w) s.defaultLayerState) s
  else if a.on &&& (if pressed then ON_PRESS else ON_RELEASE) ≠ 0 then
    layerStateSet (bitOp a.op (a.bitop w) s.layerState) s
  else s

def processLayerMods (s : State f w) : State f w :=
  if pressed then
    registerMods a.layerModsMods (layerStateSet (layerOn a.layerModsLayer s.layerState) s)
  else
    let s := unregisterMods a.layerModsMods s
    layerStateSet (layerOff a.layerModsLayer s.layerState) s

/-- The cases `ACT_LAYER_TAP` and `ACT_LAYER_TAP_EXT`. -/
def processLayerTap (s : State f w) : State f w :=
  let on := layerStateSet (layerOn a.val s.layerState) s
  let off := layerStateSet (layerOff a.val s.layerState) s
  if a.code = OP_TAP_TOGGLE ∧ ¬ c.noActionTapping then
    if if pressed then tapCount < c.tappingToggle else tapCount ≤ c.tappingToggle then
      layerStateSet (layerInvert a.val s.layerState) s
    else s
  else if a.code = OP_ON_OFF then if pressed then on else off
  else if a.code = OP_OFF_ON then if pressed then off else on
  else if a.code = OP_SET_CLEAR then
    layerStateSet (if pressed then layerMove a.val s.layerState else 0) s
  else if 0 < tapCount ∨ c.noActionTapping then
    if pressed then registerCode a.code s else unregisterCode a.code s
  else if pressed then on else off

def processAction (s : State f w) : State f w :=
  match a.kind with
  | .lmods => processMods pressed a false s
  | .rmods => processMods pressed a true s
  | .lmodsTap => processModsTap c pressed tapCount a false s
  | .rmodsTap => processModsTap c pressed tapCount a true s
  | .usage => processUsage pressed a s
  | .layer => processLayer pressed a s
  | .layerMods => processLayerMods pressed a s
  | .layerTap | .layerTapExt => processLayerTap c pressed tapCount a s
  | .mousekey | .swapHands | .other => s

end ProcessAction

end Qmk.Keyboard
