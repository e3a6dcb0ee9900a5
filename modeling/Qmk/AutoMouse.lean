import Qmk.LayerState
import Qmk.MouseKeys

/-! # Auto mouse

`pointing_device_auto_mouse.c`. The target layer is turned on while the pointing device is in use
and while keys hold it. Two time stamps delay the tasks; a stamp is `0` when its timer is not
running.
-/

namespace Qmk.AutoMouse

open MouseKeys (Axis Report timerElapsed int8)

section Keycodes

def InRange (lo hi keycode : UInt16) : Prop := lo ≤ keycode ∧ keycode ≤ hi

instance (lo hi keycode : UInt16) : Decidable (InRange lo hi keycode) :=
  inferInstanceAs (Decidable (_ ∧ _))

/-- `QK_TO_GET_LAYER`, `QK_TOGGLE_LAYER_GET_LAYER`, `QK_MOMENTARY_GET_LAYER` and
`QK_LAYER_TAP_TOGGLE_GET_LAYER`. -/
def getLayer (kc : UInt16) : ℕ := (kc &&& 0x1F).toNat

def layerModGetLayer (kc : UInt16) : ℕ := (kc >>> 5 &&& 0xF).toNat

def layerTapGetLayer (kc : UInt16) : ℕ := (kc >>> 8 &&& 0xF).toNat

/-- `IS_MOUSEKEY`: from `KC_MS_UP` to `KC_MS_ACCEL2`. -/
def IsMousekey (kc : UInt16) : Prop := InRange 0x00CD 0x00DF kc

instance (kc : UInt16) : Decidable (IsMousekey kc) := inferInstanceAs (Decidable (_ ∧ _))

end Keycodes

section Context

/-- The build, and `config` of the context. `oneshot` is that `NO_ACTION_ONESHOT` is not defined,
`delay` is `AUTO_MOUSE_DELAY`, and `xyBits` is the size of a `mouse_xy_report_t`. Layer states have
`w` bits. -/
structure Config (w : ℕ) where
  isEnabled : Bool := true
  layer : ℕ := 1
  timeout : ℕ := 650
  debounce : ℕ := 25
  delay : ℕ := 200
  threshold : ℕ := 10
  tappingToggle : ℕ := 5
  oneshot : Bool := true
  xyBits : ℕ := 8

/-- A time stamp: `0`, or what `timer_read` has returned at some time. -/
inductive Stamp
  | zero
  | readAt (now : ℕ)
  deriving DecidableEq, Repr

def Stamp.value : Stamp → ℕ
  | zero => 0
  | readAt now => now % 2 ^ 16

/-- What the code does to the layers, and when it refreshes the layer or triggers a reset. -/
inductive Effect
  | layerOn (layer : ℕ)
  | layerOff (layer : ℕ)
  | refresh (now : ℕ)
  | resetTrigger (now : ℕ)
  deriving DecidableEq, Repr

structure State (w : ℕ) where
  active : Stamp := .zero
  delay : Stamp := .zero
  isActivated : Bool := false
  isToggled : Bool := false
  mouseKeyTracker : Int8 := 0
  totalMouseMovement : Axis → ℤ := fun _ => 0
  layerState : BitVec w := 0
  oneshotLayer : ℕ := 0
  effects : List Effect := []

structure Keyrecord where
  pressed : Bool
  tapCount : ℕ := 0
  isNoevent : Bool := false

variable {w : ℕ} (c : Config w)

def layerStateIs (state : BitVec w) (layer : ℕ) : Prop :=
  if state = 0 then layer = 0 else state &&& bitMask w layer ≠ 0

instance (state : BitVec w) (layer : ℕ) : Decidable (layerStateIs state layer) := by
  unfold layerStateIs
  infer_instance

def State.layerOn (s : State w) : State w :=
  { s with
    layerState := Qmk.layerOn c.layer s.layerState
    effects := s.effects ++ [.layerOn c.layer] }

def State.layerOff (s : State w) : State w :=
  { s with
    layerState := Qmk.layerOff c.layer s.layerState
    effects := s.effects ++ [.layerOff c.layer] }

def TargetOn (s : State w) : Prop := layerStateIs s.layerState c.layer

instance (s : State w) : Decidable (TargetOn c s) := inferInstanceAs (Decidable (layerStateIs _ _))

end Context

section Model

variable {w : ℕ} (c : Config w)

def layerHoldCheck (s : State w) : Bool :=
  s.isToggled || (c.oneshot && s.oneshotLayer == c.layer)

def isAutoMouseActive (s : State w) : Bool :=
  s.isActivated || s.mouseKeyTracker != 0 || layerHoldCheck c s

def autoMouseReset (s : State w) : State w :=
  { s with
    isActivated := false
    isToggled := false
    mouseKeyTracker := 0
    active := .zero
    delay := .zero }

def autoMouseToggle (s : State w) : State w :=
  { s with isToggled := !s.isToggled, delay := .zero }

def autoMouseActivation (s : State w) (r : Report) : Bool × State w :=
  let total : Axis → ℤ := fun a =>
    if a.IsWheel then int8 (s.totalMouseMovement a + r.motion a)
    else (s.totalMouseMovement a + r.motion a).bmod (2 ^ c.xyBits)
  let exceeds := fun a => decide (c.threshold < (total a).natAbs)
  (exceeds .x || exceeds .y || exceeds .h || exceeds .v || r.buttons != 0,
    { s with totalMouseMovement := total })

/-- The part of the task for an active auto mouse. -/
def refresh (s : State w) (now : ℕ) : State w :=
  let s := { s with
    totalMouseMovement := fun _ => 0
    active := .readAt now
    delay := .zero
    effects := s.effects ++ [.refresh now] }
  if TargetOn c s then s else s.layerOn c

/-- The part of the task for a layer whose timeout is over. -/
def expire (s : State w) : State w :=
  { s.layerOff c with active := .zero, totalMouseMovement := fun _ => 0 }

def activate (s : State w) (r : Report) : State w :=
  let activation := autoMouseActivation c s r
  { activation.2 with isActivated := activation.1 }

def updateAutoMouse (s : State w) (r : Report) (now : ℕ) : State w :=
  let s := activate c s r
  if isAutoMouseActive c s then refresh c s now
  else if TargetOn c s ∧ c.timeout < timerElapsed now s.active.value then expire c s
  else s

def pointingDeviceTaskAutoMouse (s : State w) (r : Report) (now : ℕ) : State w :=
  if ¬ c.isEnabled ∨ timerElapsed now s.active.value ≤ c.debounce ∨
      timerElapsed now s.delay.value ≤ c.delay then s
  else updateAutoMouse c s r now

def autoMouseKeyevent (s : State w) (pressed : Bool) : State w :=
  { s with
    mouseKeyTracker := if pressed then s.mouseKeyTracker + 1 else s.mouseKeyTracker - 1
    delay := .zero }

def autoMouseResetTrigger (s : State w) (pressed : Bool) (now : ℕ) : State w :=
  let s := if pressed then autoMouseReset (if TargetOn c s then s.layerOff c else s) else s
  { s with delay := .readAt now, effects := s.effects ++ [.resetTrigger now] }

def isMouseRecord (keycode : UInt16) (_record : Keyrecord) : Prop := IsMousekey keycode

instance (keycode : UInt16) (record : Keyrecord) : Decidable (isMouseRecord keycode record) :=
  inferInstanceAs (Decidable (IsMousekey keycode))

/-- The default case of `process_auto_mouse`. -/
def processDefault (s : State w) (keycode : UInt16) (record : Keyrecord) (now : ℕ) : State w :=
  if record.isNoevent then s
  else if isMouseRecord keycode record then autoMouseKeyevent s record.pressed
  else if !isAutoMouseActive c s then autoMouseResetTrigger c s record.pressed now
  else s

def processTapToggle (s : State w) (record : Keyrecord) : State w :=
  let s := autoMouseKeyevent s record.pressed
  if c.tappingToggle ≠ 0 ∧ record.tapCount = c.tappingToggle then
    if record.pressed then { s with mouseKeyTracker := s.mouseKeyTracker - 1 }
    else
      let s := autoMouseToggle s
      { s with mouseKeyTracker := s.mouseKeyTracker + 1 }
  else s

/-- The cases of `process_auto_mouse`. A layer tap that is tapped falls through to the mod-taps and
from there to the default. -/
def processCases (s : State w) (keycode : UInt16) (record : Keyrecord) (now : ℕ) : State w :=
  -- the modifiers and `QK_MODS`
  if InRange 0x00E0 0x00E7 keycode ∨ InRange 0x0100 0x1FFF keycode then s
  -- `QK_TO` and `QK_TOGGLE_LAYER`
  else if InRange 0x5200 0x521F keycode ∨ InRange 0x5260 0x527F keycode then
    if getLayer keycode = c.layer ∧ ¬ record.pressed then autoMouseToggle s else s
  -- `QK_MOMENTARY`
  else if InRange 0x5220 0x523F keycode then
    if getLayer keycode = c.layer then autoMouseKeyevent s record.pressed else s
  -- `QK_DEF_LAYER`, `QK_ONE_SHOT_LAYER` and `QK_ONE_SHOT_MOD`
  else if InRange 0x5240 0x525F keycode ∨ c.oneshot ∧ InRange 0x5280 0x52BF keycode then s
  -- `QK_LAYER_MOD`
  else if InRange 0x5000 0x51FF keycode then
    if layerModGetLayer keycode = c.layer then autoMouseKeyevent s record.pressed else s
  -- `QK_LAYER_TAP_TOGGLE`
  else if InRange 0x52C0 0x52DF keycode then
    if getLayer keycode = c.layer then processTapToggle c s record else s
  -- `QK_LAYER_TAP`
  else if InRange 0x4000 0x4FFF keycode ∧ record.tapCount = 0 then
    if layerTapGetLayer keycode = c.layer then autoMouseKeyevent s record.pressed else s
  -- `QK_MOD_TAP`
  else if InRange 0x2000 0x3FFF keycode ∧ record.tapCount = 0 then s
  else processDefault c s keycode record now

def processAutoMouse (s : State w) (keycode : UInt16) (record : Keyrecord) (now : ℕ) : State w :=
  if ¬ c.isEnabled then s
  else
    let s := processCases c s keycode record now
    if s.mouseKeyTracker < 0 then { s with mouseKeyTracker := 0 } else s

end Model

section Cases

variable {w : ℕ} {c : Config w} {s s' : State w} {keycode : UInt16} {record : Keyrecord} {now : ℕ}

theorem processCases_cases (h : processCases c s keycode record now = s') :
    s' = s ∨ s' = autoMouseToggle s ∨ s' = autoMouseKeyevent s record.pressed ∨
      s' = processTapToggle c s record ∨ s' = processDefault c s keycode record now := by
  unfold processCases at h
  repeat' split at h
  all_goals simp [← h]

end Cases

end Qmk.AutoMouse
