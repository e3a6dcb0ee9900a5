import Qmk.MouseKeys

/-! # Pointing device

`pointing_device.c` on the master half. The local report is filled by a task, or by the event of a
button, and is cleared but for its buttons when it has been sent.
-/

namespace Qmk.PointingDevice

open MouseKeys (Axis Report HasMouseReportChanged)

section Config

/-- `POINTING_DEVICE_ROTATION_90`, `_180` and `_270`, or none of them. -/
inductive Rotation | none | rotation90 | rotation180 | rotation270
  deriving DecidableEq

structure Defines where
  rotation : Rotation := .none
  invertX : Bool := false
  invertY : Bool := false

/-- `POINTING_DEVICE_LEFT`, `_RIGHT` and `_COMBINED`, or no `SPLIT_POINTING_ENABLE`. -/
inductive Split | none | left | right | combined
  deriving DecidableEq

/-- A build, and the side of the master. `MOUSEKEY_ENABLE` comes with a build of the mouse keys, and
`xyBits` is the size of a `mouse_xy_report_t`. -/
structure Config where
  mousekey : Option MouseKeys.Build
  split : Split
  keyboardLeft : Bool
  motionPin : Bool := false
  defines : Defines := {}
  definesRight : Defines := {}
  xyBits : ℕ := 8

variable (c : Config)

def Config.thisSide : Bool :=
  match c.split with
  | .left => c.keyboardLeft
  | .right => !c.keyboardLeft
  | .combined | .none => true

end Config

section Reports

variable (c : Config)

/-- Conversion to a `mouse_xy_report_t`. -/
def Config.xy (n : ℤ) : ℤ := n.bmod (2 ^ c.xyBits)

/-- `pointing_device_xy_clamp`, and with 8 bits `pointing_device_hv_clamp`. -/
def clamp (bits : ℕ) (value : ℤ) : ℤ :=
  if value < -2 ^ (bits - 1) then -2 ^ (bits - 1)
  else if 2 ^ (bits - 1) - 1 < value then 2 ^ (bits - 1) - 1
  else value

def pointingDeviceCombineReports (leftReport rightReport : Report) : Report where
  buttons := leftReport.buttons ||| rightReport.buttons
  motion := fun a =>
    clamp (if a.IsWheel then 8 else c.xyBits) (leftReport.motion a + rightReport.motion a)

/-- `pointing_device_adjust_by_defines`, and with the other defines
`pointing_device_adjust_by_defines_right`. -/
def pointingDeviceAdjust (d : Defines) (r : Report) : Report :=
  let x := r.motion .x
  let y := r.motion .y
  let r := match d.rotation with
    | .none => r
    | .rotation90 => (r.set .x y).set .y (c.xy (-x))
    | .rotation180 => (r.set .x (c.xy (-x))).set .y (c.xy (-y))
    | .rotation270 => (r.set .x (c.xy (-y))).set .y x
  let r := if d.invertX then r.set .x (c.xy (-r.motion .x)) else r
  if d.invertY then r.set .y (c.xy (-r.motion .y)) else r

def pointingDeviceHandleButtons (buttons : BitVec 8) (pressed : Bool) (button : Fin 8) : BitVec 8 :=
  if pressed then buttons ||| (1#8 <<< button.val) else buttons &&& ~~~(1#8 <<< button.val)

def emptyReport : Report := ⟨0, fun _ => 0⟩

end Reports

section Model

/-- `local_mouse_report`, `shared_mouse_report`, the static variables of `pointing_device_send` and
`pointing_device_task`, those of the mouse keys, and the reports that the host has been sent. -/
structure State where
  localReport : Report := emptyReport
  sharedReport : Report := emptyReport
  oldReport : Report := emptyReport
  oldButtons : BitVec 8 := 0
  mousekey : MouseKeys.State
  sent : List Report := []

variable (c : Config)

def State.init : State where
  mousekey := c.mousekey.elim { wheelInterval := 0, speed := .unmod } MouseKeys.Build.init

def pointingDeviceSend (s : State) : State :=
  let s := if HasMouseReportChanged s.localReport s.oldReport then
      { s with sent := s.sent ++ [s.localReport] }
    else s
  let r : Report := { emptyReport with buttons := s.localReport.buttons }
  { s with localReport := r, oldReport := r }

def pointingDeviceKeycodeHandler (button : Fin 8) (pressed : Bool) (s : State) : State :=
  let buttons := pointingDeviceHandleButtons s.localReport.buttons pressed button
  pointingDeviceSend { s with localReport := { s.localReport with buttons := buttons } }

def registerMouse (button : Fin 8) (pressed : Bool) (now : ℕ) (s : State) : State :=
  let s := match c.mousekey with
    | none => s
    | some build =>
      let event := if pressed then .on (.button button) now else .off (.button button)
      { s with mousekey := build.step event s.mousekey }
  pointingDeviceKeycodeHandler button pressed s

/-- What a task finds: whether `POINTING_DEVICE_TASK_THROTTLE_MS` have gone by, whether the motion
pin is active, and `get_report` of the driver. -/
structure Task where
  due : Bool
  motion : Bool
  getReport : Report → Report

/-- The part of `pointing_device_task` that gathers the report. -/
def gather (t : Task) (s : State) : State :=
  match c.split with
  | .none =>
    if c.motionPin ∧ ¬ t.motion then s else { s with localReport := t.getReport s.localReport }
  | .left | .right =>
    { s with localReport := if c.thisSide then t.getReport s.localReport else s.sharedReport }
  | .combined =>
    let r := t.getReport { s.localReport with buttons := s.oldButtons }
    { s with localReport := r, oldButtons := r.buttons }

/-- The defines and the weak `pointing_device_task_kb` and `pointing_device_task_combined_kb`. -/
def adjust (s : State) : State :=
  match c.split with
  | .combined =>
    if c.keyboardLeft then
      let left := pointingDeviceAdjust c c.defines s.localReport
      let right := pointingDeviceAdjust c c.definesRight s.sharedReport
      { s with localReport := pointingDeviceCombineReports c left right, sharedReport := right }
    else
      let right := pointingDeviceAdjust c c.definesRight s.localReport
      let left := pointingDeviceAdjust c c.defines s.sharedReport
      { s with localReport := pointingDeviceCombineReports c left right, sharedReport := left }
  | _ => { s with localReport := pointingDeviceAdjust c c.defines s.localReport }

/-- The buttons of `mousekey_get_report` are added. -/
def addMousekeys (s : State) : State :=
  match c.mousekey with
  | none => s
  | some _ =>
    let buttons := s.localReport.buttons ||| s.mousekey.report.buttons
    { s with localReport := { s.localReport with buttons := buttons } }

def pointingDeviceTask (t : Task) (s : State) : State :=
  if t.due then pointingDeviceSend (addMousekeys c (adjust c (gather c t s))) else s

/-- The event of a mouse button, a report from the other half, and a task. The other half calls
`get_report` with an empty report. -/
inductive Call
  | registerMouse (button : Fin 8) (pressed : Bool) (now : ℕ)
  | share (getReport : Report → Report)
  | task (t : Task)

def step (s : State) : Call → State
  | .registerMouse button pressed now => registerMouse c button pressed now s
  | .share getReport => { s with sharedReport := getReport emptyReport }
  | .task t => pointingDeviceTask c t s

def run (calls : List Call) : State := calls.foldl (step c) (State.init c)

end Model

section Buttons

variable {c : Config}

@[simp]
theorem buttons_set (r : Report) (a : Axis) (n : ℤ) : (r.set a n).buttons = r.buttons := rfl

@[simp]
theorem buttons_adjust (d : Defines) (r : Report) :
    (pointingDeviceAdjust c d r).buttons = r.buttons := by
  unfold pointingDeviceAdjust
  cases d.rotation <;> cases d.invertX <;> cases d.invertY <;> rfl

theorem mousekey_on_button (build : MouseKeys.Build) (button : Fin 8) (now : ℕ)
    (s : MouseKeys.State) : (build.step (.on (.button button) now) s).report.buttons =
      s.report.buttons ||| (1#8 <<< button.val) := by
  cases build with
  | accelerated cfg =>
    have hrestart : (cfg.restart now s).report = s.report := by
      simp only [MouseKeys.Accelerated.restart]
      split_ifs <;> rfl
    simp only [MouseKeys.Build.step, MouseKeys.Accelerated.mousekeyOn,
      MouseKeys.Accelerated.press, hrestart]
  | threeSpeed cfg =>
    simp only [MouseKeys.Build.step, MouseKeys.ThreeSpeed.mousekeyOn, ne_eq, not_true_eq_false,
      if_false]

theorem mousekey_off_button (build : MouseKeys.Build) (button : Fin 8) (s : MouseKeys.State) :
    (build.step (.off (.button button)) s).report.buttons =
      s.report.buttons &&& ~~~(1#8 <<< button.val) := by
  cases build with
  | accelerated cfg =>
    simp only [MouseKeys.Build.step, MouseKeys.Accelerated.mousekeyOff]
    split_ifs <;> rfl
  | threeSpeed cfg => rfl

end Buttons

end Qmk.PointingDevice
