import Qmk.AutoShift

/-! # Caps Word with inverted shift

`caps_word.c` and `process_caps_word.c` with `CAPS_WORD_INVERT_ON_SHIFT`, without Auto Shift and
Space Cadet. A shift that is pressed while Caps Word is on is kept from the host in `held_mods`.
-/

namespace Qmk.CapsWord

open AutoShift (Keycode kcLsft kcRsft lshift lowByte modBit IsModTap IsLayerTap)

section Keycodes

def modMaskShift : BitVec 8 := 0x22

def modLsft : Keycode := 0x02

def modRsft : Keycode := 0x12

def modRalt : Keycode := 0x14

def kcRalt : Keycode := 0xE6

def qkCapsWordToggle : Keycode := 0x7C73

def osm (mod : Keycode) : Keycode := 0x52A0 ||| (mod &&& 0x1F)

def rsft (keycode : Keycode) : Keycode := 0x1200 ||| keycode

def modTapGetMods (keycode : Keycode) : Keycode := (keycode >>> 8) &&& 0x1F

/-- The keys that switch layers: `MO`, `TO`, `TG`, `TT`, `OSL` and those of Tri Layer. -/
def IsLayerSwitch (keycode : Keycode) : Prop :=
  (0x5220 ≤ keycode ∧ keycode ≤ 0x523F) ∨ (0x5200 ≤ keycode ∧ keycode ≤ 0x521F) ∨
    (0x5260 ≤ keycode ∧ keycode ≤ 0x527F) ∨ (0x52C0 ≤ keycode ∧ keycode ≤ 0x52DF) ∨
    (0x5280 ≤ keycode ∧ keycode ≤ 0x529F) ∨ (0x7C77 ≤ keycode ∧ keycode ≤ 0x7C78)

def IsSwapHands (keycode : Keycode) : Prop := 0x5600 ≤ keycode ∧ keycode ≤ 0x56FF

def IsSwapHandsKeycode (keycode : Keycode) : Prop := 0x56F0 ≤ keycode ∧ keycode ≤ 0x56F6

instance (keycode : Keycode) : Decidable (IsLayerSwitch keycode) :=
  inferInstanceAs (Decidable (_ ∨ _))

instance (keycode : Keycode) : Decidable (IsSwapHands keycode) :=
  inferInstanceAs (Decidable (_ ∧ _))

instance (keycode : Keycode) : Decidable (IsSwapHandsKeycode keycode) :=
  inferInstanceAs (Decidable (_ ∧ _))

end Keycodes

structure Mods where
  real : BitVec 8 := 0
  weak : BitVec 8 := 0
  oneshot : BitVec 8 := 0
  deriving DecidableEq

/-- What `process_action` does to the modifiers for the keys that are not shift keys. -/
structure OrdinaryKeys where
  action : Keycode → Bool → ℕ → Mods → Mods
  real : ∀ keycode pressed tapCount mods,
    (action keycode pressed tapCount mods).real &&& modMaskShift = mods.real &&& modMaskShift
  oneshot : ∀ keycode pressed tapCount mods,
    (action keycode pressed tapCount mods).oneshot &&& modMaskShift = mods.oneshot &&& modMaskShift

def capsWordPressUser (keycode : Keycode) (weak : BitVec 8) : Bool × BitVec 8 :=
  if (0x04 ≤ keycode ∧ keycode ≤ 0x1D) ∨ keycode = 0x2D then (true, weak ||| lshift)
  else if (0x1E ≤ keycode ∧ keycode ≤ 0x27) ∨ keycode = 0x2A ∨ keycode = 0x4C ∨
      keycode = 0x022D then
    (true, weak)
  else (false, weak)

/-- The build: the macros, `IS_COMMAND` on the modifiers where Command is enabled,
`GET_TAPPING_TERM`, `caps_word_press_user`, and the other keys. -/
structure Config where
  bothShiftsTurnsOnCapsWord : Bool := false
  doubleTapShiftTurnsOnCapsWord : Bool := false
  isCommand : BitVec 8 → Bool := fun _ => false
  capsWordIdleTimeout : BitVec 16 := 5000
  swapHandsEnable : Bool := false
  getTappingTerm : Keycode → BitVec 16 := fun _ => 200
  capsWordPressUser : Keycode → BitVec 8 → Bool × BitVec 8 := CapsWord.capsWordPressUser
  ordinary : OrdinaryKeys := ⟨fun _ _ _ mods => mods, fun _ _ _ _ => rfl, fun _ _ _ _ => rfl⟩

/-- The statics of `caps_word.c` and `process_caps_word.c`, and the modifiers. -/
structure State where
  capsWordActive : Bool := false
  idleTimer : BitVec 16 := 0
  heldMods : BitVec 8 := 0
  tapped : Bool := false
  timer : BitVec 16 := 0
  mods : Mods := {}
  deriving DecidableEq

/-- The event of a key, with the tap count and the time of its record. -/
structure Record where
  keycode : Keycode
  pressed : Bool
  tapCount : ℕ := 0
  time : BitVec 16 := 0
  deriving DecidableEq

def timerExpired (current future : BitVec 16) : Bool := current - future < 32767

section CapsWord

variable (cfg : Config)

def capsWordResetIdleTimer (now : BitVec 16) (s : State) : State :=
  if 0 < cfg.capsWordIdleTimeout then { s with idleTimer := now + cfg.capsWordIdleTimeout } else s

def capsWordOn (now : BitVec 16) (s : State) : State :=
  if s.capsWordActive then s
  else
    let s := { s with mods := { s.mods with real := 0, oneshot := 0 } }
    { capsWordResetIdleTimer cfg now s with capsWordActive := true }

def capsWordOff (s : State) : State :=
  if ¬ s.capsWordActive then s
  else
    { s with
      mods := { s.mods with weak := s.mods.weak &&& ~~~modMaskShift }
      capsWordActive := false }

def capsWordToggle (now : BitVec 16) (s : State) : State :=
  if s.capsWordActive then capsWordOff s else capsWordOn cfg now s

def capsWordTask (now : BitVec 16) (s : State) : State :=
  if 0 < cfg.capsWordIdleTimeout ∧ s.capsWordActive ∧ timerExpired now s.idleTimer then
    capsWordOff s
  else s

end CapsWord

section ProcessCapsWord

variable (cfg : Config)

/-- The `switch` of `handle_shift`: one-shot shifts and mod-taps that are held stand for shifts. -/
def shiftKeycode (r : Record) : Keycode :=
  if r.keycode = osm modLsft then kcLsft
  else if r.keycode = osm modRsft then kcRsft
  else if IsModTap r.keycode ∧ r.tapCount = 0 then
    if modTapGetMods r.keycode = modLsft then kcLsft
    else if modTapGetMods r.keycode = modRsft then kcRsft
    else r.keycode
  else r.keycode

def handleShift (r : Record) (s : State) : Bool × State :=
  if shiftKeycode r = kcLsft ∨ shiftKeycode r = kcRsft then
    let mod := modBit (shiftKeycode r)
    if s.capsWordActive then
      (false,
        { s with heldMods := if r.pressed then s.heldMods ||| mod else s.heldMods &&& ~~~mod })
    else if s.heldMods &&& mod ≠ 0 then
      (r.pressed,
        { s with
          heldMods := s.heldMods &&& ~~~mod
          mods := { s.mods with real := s.mods.real &&& ~~~mod } })
    else (true, s)
  else (true, s)

def whileOff (r : Record) (now : BitVec 16) (mods : BitVec 8) (s : State) : State :=
  let s :=
    if cfg.bothShiftsTurnsOnCapsWord ∧ mods = modMaskShift ∧ ¬ cfg.isCommand s.mods.real then
      capsWordOn cfg now s
    else s
  if cfg.doubleTapShiftTurnsOnCapsWord ∧ r.pressed then
    if r.keycode = kcLsft ∨ r.keycode = osm modLsft then
      let s := if s.tapped ∧ ¬ timerExpired r.time s.timer then capsWordOn cfg now s else s
      { s with tapped := true, timer := r.time + cfg.getTappingTerm r.keycode }
    else { s with tapped := false }
  else s

/-- What the `switch` makes of a key: it is passed on, it ends the word, or it types a key. -/
inductive WordKey
  | passes
  | ends
  | types (keycode : Keycode)
  deriving DecidableEq

/-- The `switch` of `process_caps_word`. -/
def wordKey (r : Record) : WordKey :=
  if IsLayerSwitch r.keycode ∨ r.keycode = kcRalt ∨ r.keycode = osm modRalt then .passes
  else if IsModTap r.keycode then
    if r.tapCount = 0 then
      if modTapGetMods r.keycode = modRsft ||| modRalt then .types (rsft kcRalt)
      else if modTapGetMods r.keycode = modRalt then .passes
      else .ends
    else .types (r.keycode &&& 0xFF)
  else if IsLayerTap r.keycode then
    if r.tapCount = 0 then .passes else .types (r.keycode &&& 0xFF)
  else if cfg.swapHandsEnable ∧ IsSwapHands r.keycode then
    if IsSwapHandsKeycode r.keycode ∨ r.tapCount = 0 then .passes
    else .types (r.keycode &&& 0xFF)
  else .types r.keycode

def endWord (s : State) : State :=
  let s := capsWordOff s
  { s with mods := { s.mods with real := s.mods.real ||| s.heldMods } }

def whileOn (r : Record) (now : BitVec 16) (mods : BitVec 8) (s : State) : State :=
  let s := capsWordResetIdleTimer cfg now s
  if ¬ r.pressed then s
  else if mods &&& ~~~(modMaskShift ||| modBit kcRalt) = 0 then
    match wordKey cfg r with
    | .passes => s
    | .ends => endWord s
    | .types keycode =>
      let s := { s with mods := { s.mods with weak := (cfg.capsWordPressUser keycode 0).2 } }
      if (cfg.capsWordPressUser keycode 0).1 then
        if s.heldMods ≠ 0 then
          { s with mods := { s.mods with weak := s.mods.weak ^^^ lshift } }
        else s
      else endWord s
  else endWord s

def processCapsWord (r : Record) (now : BitVec 16) (s : State) : Bool × State :=
  if r.keycode = qkCapsWordToggle then
    (false, if r.pressed then capsWordToggle cfg now s else s)
  else
    let (further, s) := handleShift r s
    if further then
      let mods := s.mods.real ||| s.mods.oneshot
      (true, if s.capsWordActive then whileOn cfg r now mods s else whileOff cfg r now mods s)
    else (false, s)

end ProcessCapsWord

section Runs

variable (cfg : Config)

def processAction (r : Record) (s : State) : State :=
  if r.keycode = kcLsft ∨ r.keycode = kcRsft then
    let mod := modBit r.keycode
    { s with
      mods := { s.mods with
        real := if r.pressed then s.mods.real ||| mod else s.mods.real &&& ~~~mod } }
  else { s with mods := cfg.ordinary.action r.keycode r.pressed r.tapCount s.mods }

/-- A key event or a call of `caps_word_task`, at a time. -/
inductive Event
  | key (r : Record) (now : BitVec 16)
  | task (now : BitVec 16)
  deriving DecidableEq

def step (e : Event) (s : State) : State :=
  match e with
  | .key r now =>
    -- `action_exec` drops the weak modifiers at a press
    let s := if r.pressed then { s with mods := { s.mods with weak := 0 } } else s
    let (further, s) := processCapsWord cfg r now s
    if further then processAction cfg r s else s
  | .task now => capsWordTask cfg now s

end Runs

end Qmk.CapsWord
