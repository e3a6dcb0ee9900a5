import Mathlib.Data.Nat.Notation
import Mathlib.Tactic.Common

/-! # The RGB matrix

A frame starts, is rendered some LEDs at a time, and is flushed to the LEDs; then the task waits
for the next one. The effects see what has been read when the frame started. When the LEDs are
off, all of them are set to black once.
-/

namespace Qmk.RgbMatrix

structure Color where
  r : UInt8
  g : UInt8
  b : UInt8
  deriving DecidableEq

def black : Color := ⟨0, 0, 0⟩

abbrev Leds := ℕ → Color

structure Hsv where
  h : UInt8
  s : UInt8
  v : UInt8

structure RgbConfig where
  enable : Bool
  mode : ℕ
  hsv : Hsv
  speed : UInt8
  flags : UInt8

/-- An entry of `last_hit_t`, whose point is the one of its LED. -/
structure Hit where
  index : ℕ
  tick : UInt16
  deriving DecidableEq

structure View where
  hsv : Hsv
  speed : UInt8
  time : UInt32
  hits : List Hit
  init : Bool

/-- The color of each LED, for the effects that run over the LEDs. -/
abbrev Effect := View → ℕ → Color

/-- The build. `RGB_MATRIX_SPLIT` comes with the number of LEDs of the left half and whether this
is the left half. -/
structure Build where
  ledCount : ℕ
  processLimit : ℕ
  flushLimit : UInt32 := 16
  split : Option (ℕ × Bool) := none
  ledFlags : ℕ → UInt8
  effectMax : ℕ
  effects : ℕ → Effect
  sleep : Bool := true
  hitsToRemember : ℕ := 8
  maximumBrightness : UInt8 := 255
  leds_ok : ledCount < 256 ∧ split.all (·.1 ≤ ledCount) := by decide
  effectMax_ok : 1 < effectMax ∧ effectMax ≤ 64 := by decide
  hits_ok : 0 < hitsToRemember ∧ hitsToRemember < 256 := by decide

inductive TaskState
  | starting
  | rendering
  | flushing
  | syncing
  deriving DecidableEq

structure Params where
  iter : ℕ := 0
  flags : UInt8 := 0xFF
  init : Bool := false

/-- The variables of the task, the buffer of the LEDs, and what they show. The last effect is
`UINT8_MAX` at boot, which is none. -/
structure State where
  config : RgbConfig
  suspendState : Bool := false
  lastEnable : Option Bool := none
  lastEffect : Option ℕ := none
  params : Params := {}
  taskState : TaskState := .syncing
  timerBuffer : UInt32 := 0
  rgbTimer : UInt32 := 0
  lastHitBuffer : List Hit := []
  lastHitTracker : List Hit := []
  leds : Leds
  shown : Leds

section Effects

variable (cfg : Build)

/-- `rgb_matrix_get_limits`, whose indices have eight bits. -/
def getLimits (iter : ℕ) : ℕ × ℕ :=
  let (ledMin, ledMax) :=
    if 0 < cfg.processLimit ∧ cfg.processLimit < cfg.ledCount then
      let ledMin := cfg.processLimit * iter % 256
      let ledMax := (ledMin + cfg.processLimit) % 256
      (ledMin, if cfg.ledCount < ledMax then cfg.ledCount else ledMax)
    else (0, cfg.ledCount)
  match cfg.split with
  | none => (ledMin, ledMax)
  | some (left, true) => (ledMin, if left < ledMax then left else ledMax)
  | some (left, false) => (if ledMin < left then left else ledMin, ledMax)

/-- `rgb_matrix_check_finished_leds`, which says that some LEDs are left. -/
def checkFinishedLeds (ledIdx : ℕ) : Bool :=
  match cfg.split with
  | some (left, true) => ledIdx < left
  | _ => ledIdx < cfg.ledCount

def State.view (s : State) : View :=
  ⟨s.config.hsv, s.config.speed, s.rgbTimer, s.lastHitTracker, s.params.init⟩

/-- The LEDs that have one of the flags. -/
def hasAnyFlags (flags : UInt8) (i : ℕ) : Bool := cfg.ledFlags i &&& flags != 0

/-- `effect_runner_i` and its siblings, with the colors of the LEDs that they set. -/
def effectRunner (effect : Effect) (s : State) : Bool × Leds :=
  let (ledMin, ledMax) := getLimits cfg s.params.iter
  (checkFinishedLeds cfg ledMax, fun i =>
    if ledMin ≤ i ∧ i < ledMax ∧ hasAnyFlags cfg s.params.flags i then effect s.view i
    else s.leds i)

def setColorAll (color : Color) : Leds := fun _ => color

def rgbMatrixNone (s : State) : Bool × Leds :=
  (false, if s.params.init then setColorAll black else s.leds)

/-- The modes have six bits, so that the case of `UINT8_MAX` is never reached. -/
def renderEffect (effect : ℕ) (s : State) : Bool × Leds :=
  if effect = 0 then rgbMatrixNone s
  else if effect < cfg.effectMax then effectRunner cfg (cfg.effects effect) s
  else (false, s.leds)

end Effects

section Task

variable (cfg : Build)

/-- `UINT16_MAX - deltaTime < last_hit_buffer.tick[i]`. -/
def Hit.expired (delta : UInt32) (hit : Hit) : Bool := 65535 - delta < hit.tick.toUInt32

def Hit.advance (delta : UInt32) (hit : Hit) : Hit :=
  if hit.expired delta then hit else { hit with tick := hit.tick + delta.toUInt16 }

/-- The loop over the hits, which takes one off the count for each one that has expired. -/
def advanceHits (delta : UInt32) (hits : List Hit) : List Hit :=
  (hits.map (Hit.advance delta)).take (hits.length - hits.countP (Hit.expired delta))

def rgbTaskTimers (now : UInt32) (s : State) : State :=
  { s with timerBuffer := now, lastHitBuffer := advanceHits (now - s.timerBuffer) s.lastHitBuffer }

def rgbTaskSync (now : UInt32) (s : State) : State :=
  if cfg.flushLimit ≤ now - s.rgbTimer then { s with taskState := .starting } else s

def rgbTaskStart (s : State) : State :=
  { s with
    params := { s.params with iter := 0 }
    rgbTimer := s.timerBuffer
    lastHitTracker := s.lastHitBuffer
    taskState := .rendering }

/-- Whether the effect is a new one, or the LEDs have been switched. -/
def State.isInit (effect : ℕ) (s : State) : Bool :=
  some effect != s.lastEffect || some s.config.enable != s.lastEnable

/-- What an effect is given. All of the LEDs are set to black when the flags change. -/
def renderParams (effect : ℕ) (s : State) : State :=
  { s with
    params := { s.params with init := s.isInit effect, flags := s.config.flags }
    leds := if s.params.flags = s.config.flags then s.leds else setColorAll black }

def rgbTaskRender (effect : ℕ) (s : State) : State :=
  let s := renderParams effect s
  let (rendering, leds) := renderEffect cfg effect s
  { s with
    leds
    params := { s.params with iter := (s.params.iter + 1) % 256 }
    taskState :=
      if rendering then s.taskState
      else if !s.params.init && effect = 0 then .syncing else .flushing }

def rgbTaskFlush (effect : ℕ) (s : State) : State :=
  { s with
    lastEffect := some effect
    lastEnable := some s.config.enable
    shown := s.leds
    taskState := .syncing }

/-- What a call of the task sees: the timer, whether there has been no input for
`RGB_MATRIX_TIMEOUT`, and what the indicators do to the LEDs. -/
structure Tick where
  now : UInt32
  idle : Bool := false
  indicate : Leds → Leds := id

/-- The effect of a call, 0 while the LEDs are off. -/
def State.effect (t : Tick) (s : State) : ℕ :=
  if s.suspendState || t.idle || !s.config.enable then 0 else s.config.mode

def rgbMatrixTask (t : Tick) (s : State) : State :=
  let s := rgbTaskTimers t.now s
  let effect := s.effect t
  match s.taskState with
  | .starting => rgbTaskStart s
  | .rendering =>
    let s := rgbTaskRender cfg effect s
    if effect ≠ 0 then { s with leds := t.indicate s.leds } else s
  | .flushing => rgbTaskFlush effect s
  | .syncing => rgbTaskSync cfg t.now s

variable {cfg} {t : Tick} {s : State}

theorem rgbMatrixTask_starting (h : s.taskState = .starting) :
    rgbMatrixTask cfg t s = rgbTaskStart (rgbTaskTimers t.now s) := by
  have h' : (rgbTaskTimers t.now s).taskState = .starting := h
  simp only [rgbMatrixTask, h']

theorem rgbMatrixTask_rendering (h : s.taskState = .rendering) :
    rgbMatrixTask cfg t s =
      let s' := rgbTaskRender cfg (s.effect t) (rgbTaskTimers t.now s)
      { s' with leds := if s.effect t ≠ 0 then t.indicate s'.leds else s'.leds } := by
  have h' : (rgbTaskTimers t.now s).taskState = .rendering := h
  have heffect : (rgbTaskTimers t.now s).effect t = s.effect t := rfl
  simp only [rgbMatrixTask, h', heffect]
  split_ifs <;> rfl

theorem rgbMatrixTask_flushing (h : s.taskState = .flushing) :
    rgbMatrixTask cfg t s = rgbTaskFlush (s.effect t) (rgbTaskTimers t.now s) := by
  have h' : (rgbTaskTimers t.now s).taskState = .flushing := h
  simp only [rgbMatrixTask, h']
  rfl

theorem rgbMatrixTask_syncing (h : s.taskState = .syncing) :
    rgbMatrixTask cfg t s = rgbTaskSync cfg t.now (rgbTaskTimers t.now s) := by
  have h' : (rgbTaskTimers t.now s).taskState = .syncing := h
  simp only [rgbMatrixTask, h']

theorem rgbMatrixTask_fields :
    (rgbMatrixTask cfg t s).config = s.config ∧
      (rgbMatrixTask cfg t s).suspendState = s.suspendState ∧
      (rgbMatrixTask cfg t s).timerBuffer = t.now ∧
      (rgbMatrixTask cfg t s).lastHitBuffer =
        advanceHits (t.now - s.timerBuffer) s.lastHitBuffer := by
  rcases hstate : s.taskState
  · rw [rgbMatrixTask_starting hstate]
    exact ⟨rfl, rfl, rfl, rfl⟩
  · rw [rgbMatrixTask_rendering hstate]
    exact ⟨rfl, rfl, rfl, rfl⟩
  · rw [rgbMatrixTask_flushing hstate]
    exact ⟨rfl, rfl, rfl, rfl⟩
  · rw [rgbMatrixTask_syncing hstate, rgbTaskSync]
    split_ifs <;> exact ⟨rfl, rfl, rfl, rfl⟩

theorem rgbMatrixTask_config : (rgbMatrixTask cfg t s).config = s.config := rgbMatrixTask_fields.1

theorem rgbMatrixTask_suspendState : (rgbMatrixTask cfg t s).suspendState = s.suspendState :=
  rgbMatrixTask_fields.2.1

theorem rgbMatrixTask_timerBuffer : (rgbMatrixTask cfg t s).timerBuffer = t.now :=
  rgbMatrixTask_fields.2.2.1

theorem rgbMatrixTask_lastHitBuffer : (rgbMatrixTask cfg t s).lastHitBuffer =
    advanceHits (t.now - s.timerBuffer) s.lastHitBuffer := rgbMatrixTask_fields.2.2.2

end Task

section Calls

variable (cfg : Build)

def rgbMatrixSetSuspendState (state : Bool) (s : State) : State :=
  if cfg.sleep then
    let s := if state && !s.suspendState then rgbTaskFlush 0 (rgbTaskRender cfg 0 s) else s
    { s with suspendState := state }
  else s

def rgbMatrixToggle (s : State) : State :=
  { s with config := { s.config with enable := !s.config.enable }, taskState := .starting }

def rgbMatrixEnable (s : State) : State :=
  { s with
    taskState := if !s.config.enable then .starting else s.taskState
    config := { s.config with enable := true } }

def rgbMatrixDisable (s : State) : State :=
  { s with
    taskState := if s.config.enable then .starting else s.taskState
    config := { s.config with enable := false } }

def rgbMatrixMode (mode : ℕ) (s : State) : State :=
  if !s.config.enable then s
  else
    let mode := if mode < 1 then 1 else if cfg.effectMax ≤ mode then cfg.effectMax - 1 else mode
    { s with config := { s.config with mode }, taskState := .starting }

def rgbMatrixStep (s : State) : State :=
  let mode := s.config.mode + 1
  rgbMatrixMode cfg (if mode < cfg.effectMax then mode else 1) s

def rgbMatrixStepReverse (s : State) : State :=
  let mode := (s.config.mode + 255) % 256
  rgbMatrixMode cfg (if mode < 1 then cfg.effectMax - 1 else mode) s

def rgbMatrixSethsv (hsv : Hsv) (s : State) : State :=
  if !s.config.enable then s
  else
    let v := if cfg.maximumBrightness < hsv.v then cfg.maximumBrightness else hsv.v
    { s with config := { s.config with hsv := { hsv with v } } }

def rgbMatrixReload (stored : RgbConfig) (s : State) : State :=
  let s := { rgbMatrixDisable s with config := stored }
  if s.config.enable then rgbMatrixMode cfg s.config.mode s else s

/-- The hit of a key with an LED, for which the oldest one makes room. -/
def rgbMatrixHandleKeyEvent (led : ℕ) (s : State) : State :=
  let hits := if cfg.hitsToRemember < s.lastHitBuffer.length + 1 then s.lastHitBuffer.drop 1
    else s.lastHitBuffer
  { s with lastHitBuffer := hits ++ [⟨led, 0⟩] }

inductive Call
  | task (t : Tick)
  | toggle
  | enable
  | disable
  | mode (mode : ℕ)
  | step
  | stepReverse
  | sethsv (hsv : Hsv)
  | setSpeed (speed : UInt8)
  | setFlags (flags : UInt8)
  | suspend (state : Bool)
  | reload (stored : RgbConfig)
  | keyEvent (led : ℕ)

def Call.apply (s : State) : Call → State
  | .task t => rgbMatrixTask cfg t s
  | .toggle => rgbMatrixToggle s
  | .enable => rgbMatrixEnable s
  | .disable => rgbMatrixDisable s
  | .mode m => rgbMatrixMode cfg m s
  | .step => rgbMatrixStep cfg s
  | .stepReverse => rgbMatrixStepReverse cfg s
  | .sethsv hsv => rgbMatrixSethsv cfg hsv s
  | .setSpeed speed => { s with config := { s.config with speed } }
  | .setFlags flags => { s with config := { s.config with flags } }
  | .suspend state => rgbMatrixSetSuspendState cfg state s
  | .reload stored => rgbMatrixReload cfg stored s
  | .keyEvent led => rgbMatrixHandleKeyEvent cfg led s

def Call.isTask : Call → Bool
  | .task _ => true
  | _ => false

def run (calls : List Call) (s : State) : State := calls.foldl (Call.apply cfg) s

variable {cfg}

theorem rgbMatrixMode_fields {mode : ℕ} {s : State} :
    (rgbMatrixMode cfg mode s).shown = s.shown ∧
      (rgbMatrixMode cfg mode s).lastEffect = s.lastEffect ∧
      (rgbMatrixMode cfg mode s).timerBuffer = s.timerBuffer ∧
      (rgbMatrixMode cfg mode s).lastHitBuffer = s.lastHitBuffer := by
  unfold rgbMatrixMode
  split_ifs <;> exact ⟨rfl, rfl, rfl, rfl⟩

theorem run_append_singleton {calls : List Call} {c : Call} {s : State} :
    run cfg (calls ++ [c]) s = c.apply cfg (run cfg calls s) := List.foldl_append

/-- A half of three LEDs, two of them at a time, in an effect with the time and the number of
hits. -/
def threeOfFive : Build where
  ledCount := 5
  processLimit := 2
  split := some (3, true)
  ledFlags _ := 4
  effectMax := 2
  effects _ view i := ⟨view.time.toUInt8, .ofNat view.hits.length, .ofNat i⟩

def State.on : State where
  config := ⟨true, 1, ⟨0, 255, 255⟩, 127, 0xFF⟩
  leds := fun _ => black
  shown := fun _ => black

end Calls

end Qmk.RgbMatrix
