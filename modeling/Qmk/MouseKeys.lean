import Mathlib.Algebra.Group.Int.Defs
import Mathlib.Algebra.Group.Nat.Defs
import Mathlib.Data.Fin.Basic
import Mathlib.Order.Basic

/-! # Mouse keys

The mouse report as it is held between two calls of `mousekey_task`. A key for a direction sets
its axis, and its release clears the axis unless the axis points the other way. The task zeroes
the axes only while it sends.
-/

namespace Qmk.MouseKeys

/-- `x` and `y` of the cursor, `v` and `h` of the wheel. -/
inductive Axis | x | y | v | h
  deriving DecidableEq

def Axis.IsWheel : Axis → Bool
  | .x | .y => false
  | .v | .h => true

structure Report where
  buttons : BitVec 8
  motion : Axis → ℤ

inductive Accel | accel0 | accel1 | accel2
  deriving DecidableEq

/-- `mkspd_unmod`, `mkspd_0`, `mkspd_1` and `mkspd_2`. -/
inductive Speed | unmod | speed0 | speed1 | speed2
  deriving DecidableEq

def Accel.speed : Accel → Speed
  | .accel0 => .speed0
  | .accel1 => .speed1
  | .accel2 => .speed2

inductive Code
  | move (axis : Axis) (positive : Bool)
  | button (n : Fin 8)
  | accel (n : Accel)
  deriving DecidableEq

namespace Code

def msUp : Code := .move .y false
def msDown : Code := .move .y true
def msLeft : Code := .move .x false
def msRight : Code := .move .x true
def msWhUp : Code := .move .v true
def msWhDown : Code := .move .v false
def msWhLeft : Code := .move .h false
def msWhRight : Code := .move .h true

end Code

/-- The static variables of `mousekey.c`. A build uses some of them. -/
structure State where
  report : Report := ⟨0, fun _ => 0⟩
  accel : Accel → Bool := fun _ => false
  repeats : ℕ := 0
  wheelRepeats : ℕ := 0
  mouseTimer : ℕ := 0
  lastTimerC : ℕ := 0
  lastTimerW : ℕ := 0
  wheelInterval : ℕ
  speed : Speed
  sent : List Report := []

section Reports

def int8 (n : ℤ) : ℤ := n.bmod (2 ^ 8)

def timerElapsed (now last : ℕ) : ℕ := (((now : ℤ) - last) % 2 ^ 16).toNat

/-- `times_inv_sqrt2`. Next to the unsigned `d` an `int` of 16 bits becomes unsigned, too. -/
def timesInvSqrt2 (wideInt : Bool) (x : ℤ) : ℤ :=
  let n := x * 181
  int8 (if n < 0 then
      if wideInt then (n - 128).tdiv 256 else (n - 128) % 2 ^ 16 / 256
    else (n + 128).tdiv 256)

def directed (positive : Bool) (n : ℤ) : ℤ := int8 (if positive then n else n * -1)

def Report.set (r : Report) (a : Axis) (n : ℤ) : Report :=
  { r with motion := fun b => if b = a then n else r.motion b }

/-- A diagonal of two axes, where 1 is used instead of 0. -/
def Report.diagonal (wideInt : Bool) (a b : Axis) (r : Report) : Report :=
  if r.motion a ≠ 0 ∧ r.motion b ≠ 0 then
    let shorten := fun n => if timesInvSqrt2 wideInt n = 0 then 1 else timesInvSqrt2 wideInt n
    (r.set a (shorten (r.motion a))).set b (shorten (r.motion b))
  else r

def HasMouseReportChanged (new old : Report) : Prop :=
  let changed := fun a => new.motion a ≠ 0 ∧ new.motion a ≠ old.motion a
  new.buttons ≠ old.buttons ∨ changed .x ∨ changed .y ∨ changed .h ∨ changed .v

def ShouldMousekeyReportSend (r : Report) : Prop :=
  r.motion .x ≠ 0 ∨ r.motion .y ≠ 0 ∨ r.motion .v ≠ 0 ∨ r.motion .h ≠ 0

instance (new old : Report) : Decidable (HasMouseReportChanged new old) := by
  unfold HasMouseReportChanged
  infer_instance

instance (r : Report) : Decidable (ShouldMousekeyReportSend r) := by
  unfold ShouldMousekeyReportSend
  infer_instance

def mousekeySend (now : ℕ) (s : State) : State :=
  { s with
    lastTimerC :=
      if s.report.motion .x ≠ 0 ∨ s.report.motion .y ≠ 0 then now % 2 ^ 16 else s.lastTimerC
    lastTimerW :=
      if s.report.motion .v ≠ 0 ∨ s.report.motion .h ≠ 0 then now % 2 ^ 16 else s.lastTimerW
    sent := s.report :: s.sent }

/-- The frame of `mousekey_task`: the axes are saved, sent as far as they are due, and
restored. -/
def mousekeyTask (due : Report → State → State) (now : ℕ) (s : State) : State :=
  let tmpmr := s.report
  let s := due tmpmr { s with report := { tmpmr with motion := fun _ => 0 } }
  let s := if HasMouseReportChanged s.report tmpmr ∨ ShouldMousekeyReportSend s.report then
      mousekeySend now s
    else s
  { s with report := tmpmr }

/-- The part of `mousekey_off` that all builds share. -/
def release (code : Code) (r : Report) : Report :=
  match code with
  | .move a true => if 0 < r.motion a then r.set a 0 else r
  | .move a false => if r.motion a < 0 then r.set a 0 else r
  | .button n => { r with buttons := r.buttons &&& ~~~(1#8 <<< n.val) }
  | .accel _ => r

end Reports

inductive Mode | default | combined | kinetic
  deriving DecidableEq

/-- The macros and the `mk_` variables of the builds with acceleration, for an `int` of 32 bits or
of 16. The products of the ramps are supposed to fit it. -/
structure Accelerated where
  wideInt : Bool
  mode : Mode
  moveDelta : ℕ
  moveMax : ℕ
  delay : ℕ
  interval : ℕ
  maxSpeed : ℕ
  timeToMax : ℕ
  wheelDelta : ℕ
  wheelMax : ℕ
  wheelDelay : ℕ
  wheelInterval : ℕ
  wheelMaxSpeed : ℕ
  wheelTimeToMax : ℕ
  initialSpeed : ℕ
  baseSpeed : ℕ
  acceleratedSpeed : ℕ
  deceleratedSpeed : ℕ
  wheelInitialMovements : ℕ
  wheelBaseMovements : ℕ
  wheelAcceleratedMovements : ℕ
  wheelDeceleratedMovements : ℕ
  moveMax_bounds : 1 ≤ moveMax ∧ moveMax ≤ 127
  wheelMax_bounds : 1 ≤ wheelMax ∧ wheelMax ≤ 127

namespace Accelerated

variable (cfg : Accelerated)

/-- The last line of `move_unit` and `wheel_unit`. -/
def clampUnit (max unit : ℕ) : ℕ := if max < unit then max else if unit = 0 then 1 else unit

def ramp (delta maxSpeed timeToMax count : ℕ) : ℕ :=
  if count = 0 then delta
  else if timeToMax ≤ count then delta * maxSpeed
  else delta * maxSpeed * count / timeToMax

/-- The speed of kinetic mode before its cap. A `time_elapsed` of 16 bits is promoted to a wider
`int`, while with an `int` of 16 bits the products stay unsigned. -/
def storedSpeed (initial delta timeElapsed : ℕ) : ℕ :=
  let square := delta * timeElapsed * timeElapsed
  let half : ℤ := if cfg.wideInt then ((square : ℤ).bmod (2 ^ 32)).tdiv 2
    else (square : ℤ) % 2 ^ 16 / 2
  ((((initial + delta * timeElapsed : ℕ) : ℤ) + half) % 2 ^ 16).toNat

/-- The accelerated speed of the cursor in kinetic mode, or its speed with a key for another
one. -/
def kineticSpeed (now : ℕ) (s : State) : ℕ :=
  if s.accel .accel0 then cfg.deceleratedSpeed
  else if s.accel .accel2 then cfg.acceleratedSpeed
  else if s.repeats ≠ 0 ∧ s.mouseTimer ≠ 0 then
    let timeElapsed := timerElapsed now s.mouseTimer / 50
    min (cfg.storedSpeed cfg.initialSpeed cfg.moveDelta timeElapsed) cfg.baseSpeed
  else cfg.initialSpeed

/-- The conversion of a speed to 1 up to 127. -/
def kineticUnit (speed : ℕ) : ℕ :=
  let speed := speed / (1000 / cfg.interval) % 2 ^ 8
  if cfg.moveMax < speed then cfg.moveMax else if speed < 1 then 1 else speed

def moveUnit (now : ℕ) (s : State) : ℕ :=
  let full := cfg.moveDelta * cfg.maxSpeed
  let accelerated := ramp cfg.moveDelta cfg.maxSpeed cfg.timeToMax s.repeats
  match cfg.mode with
  | .default => clampUnit cfg.moveMax ((if s.accel .accel0 then full / 4
      else if s.accel .accel1 then full / 2 else if s.accel .accel2 then full
      else accelerated) % 2 ^ 16)
  | .combined => clampUnit cfg.moveMax ((if s.accel .accel0 then 1
      else if s.accel .accel1 then full / 2 else if s.accel .accel2 then cfg.moveMax
      else accelerated) % 2 ^ 16)
  | .kinetic => cfg.kineticUnit (cfg.kineticSpeed now s)

def kineticMovements (now : ℕ) (s : State) : ℕ :=
  if s.accel .accel0 then cfg.wheelDeceleratedMovements
  else if s.accel .accel2 then cfg.wheelAcceleratedMovements
  else if s.wheelRepeats ≠ 0 ∧ s.mouseTimer ≠ 0 then
    let timeElapsed := timerElapsed now s.mouseTimer / 50
    let speed := if s.wheelInterval ≠ cfg.wheelBaseMovements then
        cfg.storedSpeed cfg.wheelInitialMovements 1 timeElapsed
      else cfg.wheelInitialMovements
    min speed cfg.wheelBaseMovements
  else cfg.wheelInitialMovements

/-- `wheel_unit`. In kinetic mode it sets `mk_wheel_interval`, in combined mode it depends on
the repeats of the cursor. -/
def wheelUnit (now : ℕ) (s : State) : ℕ × State :=
  let full := cfg.wheelDelta * cfg.wheelMaxSpeed
  let accelerated := ramp cfg.wheelDelta cfg.wheelMaxSpeed cfg.wheelTimeToMax
  match cfg.mode with
  | .default => (clampUnit cfg.wheelMax ((if s.accel .accel0 then full / 4
      else if s.accel .accel1 then full / 2 else if s.accel .accel2 then full
      else accelerated s.wheelRepeats) % 2 ^ 16), s)
  | .combined => (clampUnit cfg.wheelMax ((if s.accel .accel0 then 1
      else if s.accel .accel1 then full / 2 else if s.accel .accel2 then cfg.wheelMax
      else accelerated s.repeats) % 2 ^ 16), s)
  | .kinetic => (1, { s with wheelInterval := 1000 / cfg.kineticMovements now s })

/-- `mousekey_repeat` or `mousekey_wheel_repeat` after one more event. -/
def bump (count : ℕ) : ℕ := if count ≠ 255 then count + 1 else count

def CursorDue (now : ℕ) (tmpmr : Report) (s : State) : Prop :=
  (tmpmr.motion .x ≠ 0 ∨ tmpmr.motion .y ≠ 0) ∧
    (if s.repeats ≠ 0 then cfg.interval else cfg.delay * 10) < timerElapsed now s.lastTimerC

instance (now : ℕ) (tmpmr : Report) (s : State) : Decidable (cfg.CursorDue now tmpmr s) :=
  inferInstanceAs (Decidable (_ ∧ _))

def moveCursor (now : ℕ) (tmpmr : Report) (a : Axis) (s : State) : State :=
  if tmpmr.motion a ≠ 0 then
    { s with report := s.report.set a (directed (0 < tmpmr.motion a) (cfg.moveUnit now s)) }
  else s

/-- The part of `mousekey_task` for the cursor. -/
def cursor (now : ℕ) (tmpmr : Report) (s : State) : State :=
  if cfg.CursorDue now tmpmr s then
    let s := { s with repeats := bump s.repeats }
    let s := cfg.moveCursor now tmpmr .y (cfg.moveCursor now tmpmr .x s)
    { s with report := s.report.diagonal cfg.wideInt .x .y }
  else s

def moveWheel (now : ℕ) (tmpmr : Report) (a : Axis) (s : State) : State :=
  if tmpmr.motion a ≠ 0 then
    let r := cfg.wheelUnit now s
    { r.2 with report := r.2.report.set a (directed (0 < tmpmr.motion a) r.1) }
  else s

def WheelDue (now : ℕ) (tmpmr : Report) (s : State) : Prop :=
  let interval := if s.wheelRepeats = 0 then cfg.wheelDelay * 10
    else if cfg.mode = .kinetic then s.wheelInterval else cfg.wheelInterval
  (tmpmr.motion .v ≠ 0 ∨ tmpmr.motion .h ≠ 0) ∧ interval < timerElapsed now s.lastTimerW

instance (now : ℕ) (tmpmr : Report) (s : State) : Decidable (cfg.WheelDue now tmpmr s) :=
  inferInstanceAs (Decidable (_ ∧ _))

/-- The part of `mousekey_task` for the wheel. -/
def wheel (now : ℕ) (tmpmr : Report) (s : State) : State :=
  if cfg.WheelDue now tmpmr s then
    let s := { s with wheelRepeats := bump s.wheelRepeats }
    let s := cfg.moveWheel now tmpmr .h (cfg.moveWheel now tmpmr .v s)
    { s with report := s.report.diagonal cfg.wideInt .v .h }
  else s

/-- The part of `mousekey_on` before its cases: another key restarts the acceleration. -/
def restart (now : ℕ) (s : State) : State :=
  let s := if cfg.mode = .kinetic ∧ s.mouseTimer = 0 then { s with mouseTimer := now % 2 ^ 16 }
    else s
  if ShouldMousekeyReportSend s.report then
    if cfg.mode = .kinetic then { s with mouseTimer := timerElapsed now (cfg.interval * 4) }
    else { s with repeats := cfg.moveDelta % 2 ^ 8, wheelRepeats := cfg.wheelDelta % 2 ^ 8 }
  else s

def press (code : Code) (now : ℕ) (s : State) : State :=
  match code with
  | .move a positive =>
    if a.IsWheel then
      let r := cfg.wheelUnit now s
      { r.2 with report := r.2.report.set a (directed positive r.1) }
    else { s with report := s.report.set a (directed positive (cfg.moveUnit now s)) }
  | .button n =>
    { s with report := { s.report with buttons := s.report.buttons ||| (1#8 <<< n.val) } }
  | .accel n => { s with accel := fun m => if m = n then true else s.accel m }

def mousekeyOn (code : Code) (now : ℕ) (s : State) : State := cfg.press code now (cfg.restart now s)

def mousekeyOff (code : Code) (s : State) : State :=
  let s := { s with
    report := release code s.report
    accel := fun m => if code = .accel m then false else s.accel m }
  let s := if s.report.motion .x = 0 ∧ s.report.motion .y = 0 then
      { s with repeats := 0, mouseTimer := if cfg.mode = .kinetic then 0 else s.mouseTimer }
    else s
  if s.report.motion .v = 0 ∧ s.report.motion .h = 0 then { s with wheelRepeats := 0 } else s

end Accelerated

/-- The macros of `MK_3_SPEED`, and whether `MK_MOMENTARY_ACCEL` is defined. -/
structure ThreeSpeed where
  wideInt : Bool
  momentary : Bool
  cOffsets : Speed → ℕ
  cIntervals : Speed → ℕ
  wOffsets : Speed → ℕ
  wIntervals : Speed → ℕ
  cOffsets_bounds : ∀ i, 1 ≤ cOffsets i ∧ cOffsets i ≤ 127
  wOffsets_bounds : ∀ i, 1 ≤ wOffsets i ∧ wOffsets i ≤ 127

namespace ThreeSpeed

variable (cfg : ThreeSpeed)

/-- The part of `mousekey_task` between saving and sending the axes. -/
def due (now : ℕ) (tmpmr : Report) (s : State) : State :=
  let s := if (tmpmr.motion .x ≠ 0 ∨ tmpmr.motion .y ≠ 0) ∧
      cfg.cIntervals s.speed < timerElapsed now s.lastTimerC then
      { s with report := (s.report.set .x (tmpmr.motion .x)).set .y (tmpmr.motion .y) }
    else s
  if (tmpmr.motion .h ≠ 0 ∨ tmpmr.motion .v ≠ 0) ∧
      cfg.wIntervals s.speed < timerElapsed now s.lastTimerW then
    { s with report := (s.report.set .v (tmpmr.motion .v)).set .h (tmpmr.motion .h) }
  else s

def offset (speed : Speed) (a : Axis) : ℕ :=
  if a.IsWheel then cfg.wOffsets speed else cfg.cOffsets speed

def rescale (offset : ℕ) (n : ℤ) : ℤ :=
  let n := if 0 < n then directed true offset else n
  if n < 0 then directed false offset else n

def adjustSpeed (s : State) : State :=
  let r : Report := { s.report with
    motion := fun a => rescale (cfg.offset s.speed a) (s.report.motion a) }
  let r := r.diagonal cfg.wideInt .x .y
  let r := if r.motion .h ≠ 0 ∧ r.motion .v ≠ 0 then
      (r.set .h (timesInvSqrt2 cfg.wideInt (r.motion .h))).set .v
        (timesInvSqrt2 cfg.wideInt (r.motion .v))
    else r
  { s with report := r }

def mousekeyOn (code : Code) (s : State) : State :=
  let t := match code with
    | .move a positive =>
      { s with report := s.report.set a (directed positive (cfg.offset s.speed a)) }
    | .button n =>
      { s with report := { s.report with buttons := s.report.buttons ||| (1#8 <<< n.val) } }
    | .accel n => { s with speed := n.speed }
  if t.speed ≠ s.speed then cfg.adjustSpeed t else t

def mousekeyOff (code : Code) (s : State) : State :=
  let t := { s with report := release code s.report }
  match code with
  | .accel _ =>
    let t := if cfg.momentary then { t with speed := .unmod } else t
    if t.speed ≠ s.speed then cfg.adjustSpeed t else t
  | _ => t

end ThreeSpeed

inductive Build
  | accelerated (cfg : Accelerated)
  | threeSpeed (cfg : ThreeSpeed)

inductive Event
  | on (code : Code) (now : ℕ)
  | off (code : Code)
  | task (now : ℕ)
  | send (now : ℕ)

namespace Build

/-- The static variables at the start. -/
def init : Build → State
  | accelerated cfg => { wheelInterval := 1000 / cfg.wheelInitialMovements, speed := .unmod }
  | threeSpeed cfg => { wheelInterval := 0, speed := if cfg.momentary then .unmod else .speed1 }

def step : Build → Event → State → State
  | accelerated cfg, .on code now, s => cfg.mousekeyOn code now s
  | accelerated cfg, .off code, s => cfg.mousekeyOff code s
  | accelerated cfg, .task now, s =>
    mousekeyTask (fun tmpmr s => cfg.wheel now tmpmr (cfg.cursor now tmpmr s)) now s
  | threeSpeed cfg, .on code _, s => cfg.mousekeyOn code s
  | threeSpeed cfg, .off code, s => cfg.mousekeyOff code s
  | threeSpeed cfg, .task now, s => mousekeyTask (cfg.due now) now s
  | _, .send now, s => mousekeySend now s

end Build

section Specification

/-- A run, with the keys that are held and the directions in which keys of an axis were pressed
since the axis was last 0. -/
structure Play where
  state : State
  held : Code → Bool := fun _ => false
  since : Axis → Bool → Bool := fun _ _ => false

def Event.update (held : Code → Bool) : Event → Code → Bool
  | on code _, c => if c = code then true else held c
  | off code, c => if c = code then false else held c
  | _, c => held c

def Event.Presses (a : Axis) (positive : Bool) : Event → Prop
  | on code _ => code = .move a positive
  | _ => False

instance (a : Axis) (positive : Bool) (e : Event) : Decidable (e.Presses a positive) := by
  cases e <;> unfold Event.Presses <;> infer_instance

def Play.step (b : Build) (p : Play) (e : Event) : Play :=
  let s := b.step e p.state
  { state := s
    held := e.update p.held
    since := fun a positive =>
      s.report.motion a ≠ 0 ∧ (p.since a positive ∨ e.Presses a positive) }

def Play.run (b : Build) (events : List Event) : Play :=
  events.foldl (Play.step b) { state := b.init }

/-- An axis without a held key is 0, and an axis for which only keys of one direction were
pressed since it was 0 points there. -/
structure Steady (p : Play) : Prop where
  released : ∀ a, (∀ positive, p.held (.move a positive) = false) →
    p.state.report.motion a = 0
  positive : ∀ a, p.since a true → ¬ p.since a false → 0 < p.state.report.motion a
  negative : ∀ a, p.since a false → ¬ p.since a true → p.state.report.motion a < 0

end Specification

section Signs

def Points (n : ℤ) (positive : Bool) : Prop := if positive then 0 < n else n < 0

instance (n : ℤ) (positive : Bool) : Decidable (Points n positive) := by
  unfold Points
  infer_instance

theorem points_ne_zero {n : ℤ} {positive : Bool} (h : Points n positive) : n ≠ 0 := by
  cases positive <;> simp only [Points, if_true, Bool.false_eq_true, if_false] at h <;> omega

theorem exists_points {n : ℤ} (h : n ≠ 0) : ∃ positive, Points n positive := by
  rcases lt_or_gt_of_ne h with hneg | hpos
  · exact ⟨false, hneg⟩
  · exact ⟨true, hpos⟩

theorem points_unique {n : ℤ} {p q : Bool} (hp : Points n p) (hq : Points n q) : p = q := by
  cases p <;> cases q <;>
    simp only [Points, if_true, Bool.false_eq_true, if_false] at hp hq ⊢ <;> omega

theorem int8_eq {n : ℤ} (h : -128 ≤ n) (h' : n ≤ 127) : int8 n = n :=
  Int.bmod_eq_of_le (by omega) (by omega)

theorem points_directed {positive : Bool} {n : ℕ} (h : 1 ≤ n ∧ n ≤ 127) (q : Bool) :
    Points (directed positive n) q ↔ q = positive := by
  unfold directed Points
  rw [int8_eq (by split_ifs <;> omega) (by split_ifs <;> omega)]
  cases positive <;> cases q <;> simp <;> omega

/-- A report of which every axis has a magnitude of at most 127. -/
def Report.Small (r : Report) : Prop := ∀ a, -127 ≤ r.motion a ∧ r.motion a ≤ 127

structure Follows (n n' : ℤ) : Prop where
  small : -127 ≤ n' ∧ n' ≤ 127
  points : ∀ positive, Points n' positive ↔ Points n positive

theorem follows_of_sign {n n' : ℤ} (hsmall : -127 ≤ n' ∧ n' ≤ 127) (hpos : 0 < n' ↔ 0 < n)
    (hneg : n' < 0 ↔ n < 0) : Follows n n' := by
  refine ⟨hsmall, fun positive => ?_⟩
  cases positive
  · exact hneg
  · exact hpos

theorem follows_timesInvSqrt2 (wideInt : Bool) {n : ℤ} (h : -127 ≤ n ∧ n ≤ 127) :
    Follows n (timesInvSqrt2 wideInt n) := by
  unfold timesInvSqrt2
  dsimp only
  split_ifs with hneg hwide
  · have hquotient : (n * 181 - 128).tdiv 256 = -((128 - n * 181) / 256) := by
      rw [show n * 181 - 128 = -(128 - n * 181) by omega, Int.neg_tdiv,
        Int.tdiv_eq_ediv_of_nonneg (by omega)]
    rw [hquotient, int8_eq (by omega) (by omega)]
    exact follows_of_sign (by omega) (by omega) (by omega)
  · have hwrapped : (n * 181 - 128) % 2 ^ 16 / 256 = (n * 181 - 128) / 256 + 2 ^ 8 := by
      rw [show (n * 181 - 128) % 2 ^ 16 = n * 181 - 128 + 2 ^ 8 * 256 by omega,
        Int.add_mul_ediv_right _ _ (by decide)]
    have hbyte : int8 ((n * 181 - 128) / 256 + 2 ^ 8) = int8 ((n * 181 - 128) / 256) :=
      Int.add_bmod_right _ _
    rw [hwrapped, hbyte, int8_eq (by omega) (by omega)]
    exact follows_of_sign (by omega) (by omega) (by omega)
  · rw [Int.tdiv_eq_ediv_of_nonneg (by omega), int8_eq (by omega) (by omega)]
    exact follows_of_sign (by omega) (by omega) (by omega)

theorem follows_rescale {offset : ℕ} (h : 1 ≤ offset ∧ offset ≤ 127) (n : ℤ) :
    Follows n (ThreeSpeed.rescale offset n) := by
  have hup : directed true offset = offset := int8_eq (by omega) (by omega)
  have hdown : directed false offset = -offset := by
    simp only [directed, Bool.false_eq_true, if_false]
    rw [int8_eq (by omega) (by omega)]
    omega
  unfold ThreeSpeed.rescale
  dsimp only
  rw [hup, hdown]
  exact follows_of_sign (by split_ifs <;> omega) (by split_ifs <;> omega) (by split_ifs <;> omega)

variable {r : Report}

@[simp] theorem set_motion (r : Report) (a b : Axis) (n : ℤ) :
    (r.set a n).motion b = if b = a then n else r.motion b := rfl

theorem Report.Small.follows (hr : r.Small) (c : Axis) : Follows (r.motion c) (r.motion c) :=
  ⟨hr c, fun _ => Iff.rfl⟩

theorem follows_shorten (hr : r.Small) {f : ℤ → ℤ}
    (hf : ∀ n, -127 ≤ n ∧ n ≤ 127 → n ≠ 0 → Follows n (f n)) {a b : Axis}
    (hboth : r.motion a ≠ 0 ∧ r.motion b ≠ 0) (c : Axis) :
    Follows (r.motion c) (((r.set a (f (r.motion a))).set b (f (r.motion b))).motion c) := by
  simp only [set_motion]
  split_ifs with hb ha
  · rw [hb]
    exact hf _ (hr b) hboth.2
  · rw [ha]
    exact hf _ (hr a) hboth.1
  · exact hr.follows c

theorem follows_diagonal (wideInt : Bool) (hr : r.Small) (a b c : Axis) :
    Follows (r.motion c) ((r.diagonal wideInt a b).motion c) := by
  unfold Report.diagonal
  split_ifs with hboth
  · refine @follows_shorten r hr
      (fun n => if timesInvSqrt2 wideInt n = 0 then 1 else timesInvSqrt2 wideInt n)
      (fun n hn hne => ?_) a b hboth c
    have hfollows := follows_timesInvSqrt2 wideInt hn
    obtain ⟨positive, hpoints⟩ := exists_points hne
    rw [if_neg (points_ne_zero ((hfollows.points positive).mpr hpoints))]
    exact hfollows
  · exact hr.follows c

theorem Follows.trans {m n k : ℤ} (h : Follows m n) (h' : Follows n k) : Follows m k :=
  ⟨h'.small, fun positive => (h'.points positive).trans (h.points positive)⟩

theorem points_adjustSpeed (cfg : ThreeSpeed) (s : State) (a : Axis) (positive : Bool) :
    Points ((cfg.adjustSpeed s).report.motion a) positive ↔
      Points (s.report.motion a) positive := by
  have hoffset : ∀ b, 1 ≤ cfg.offset s.speed b ∧ cfg.offset s.speed b ≤ 127 := by
    intro b
    unfold ThreeSpeed.offset
    split_ifs
    · exact cfg.wOffsets_bounds s.speed
    · exact cfg.cOffsets_bounds s.speed
  have hscaled : ∀ b, Follows (s.report.motion b)
      (ThreeSpeed.rescale (cfg.offset s.speed b) (s.report.motion b)) := fun b =>
    follows_rescale (hoffset b) _
  have hdiagonal := fun b => (hscaled b).trans (@follows_diagonal
    { s.report with
      motion := fun a => ThreeSpeed.rescale (cfg.offset s.speed a) (s.report.motion a) }
    cfg.wideInt (fun c => (hscaled c).small) .x .y b)
  unfold ThreeSpeed.adjustSpeed
  dsimp only
  split_ifs with hboth
  · exact ((hdiagonal a).trans (follows_shorten (fun b => (hdiagonal b).small)
      (fun n hn _ => follows_timesInvSqrt2 cfg.wideInt hn) hboth a)).points positive
  · exact (hdiagonal a).points positive

end Signs

section Runs

/-- An axis behind a call points in a direction exactly when the call presses a key for it, or
when the axis has pointed there and the call neither releases that key nor presses the other
one. -/
def Turns (e : Event) (s s' : State) : Prop :=
  ∀ a positive, Points (s'.report.motion a) positive ↔
    e.Presses a positive ∨ Points (s.report.motion a) positive ∧ ¬ e.Presses a (!positive) ∧
      e ≠ .off (.move a positive)

theorem turns_of_eq {e : Event} {s s' : State} (heq : s'.report.motion = s.report.motion)
    (hpress : ∀ a positive, ¬ e.Presses a positive)
    (hoff : ∀ a positive, e ≠ .off (.move a positive)) : Turns e s s' := by
  intro a positive
  rw [heq]
  have := hpress a positive
  have := hpress a (!positive)
  have := hoff a positive
  tauto

theorem turns_set {s s' : State} {a : Axis} {positive : Bool} {now : ℕ} {n : ℕ}
    (hn : 1 ≤ n ∧ n ≤ 127)
    (heq : s'.report.motion = (s.report.set a (directed positive n)).motion) :
    Turns (.on (.move a positive) now) s s' := by
  intro b q
  rw [heq, set_motion]
  simp only [Event.Presses, Code.move.injEq]
  split_ifs with hb
  · subst hb
    rw [points_directed hn]
    cases q <;> cases positive <;> simp
  · have : a ≠ b := fun h => hb h.symm
    simp [this]

theorem release_move (a : Axis) (positive : Bool) (r : Report) (b : Axis) :
    (release (.move a positive) r).motion b =
      if b = a ∧ Points (r.motion a) positive then 0 else r.motion b := by
  cases positive <;> simp only [release, Points, if_true, Bool.false_eq_true, if_false] <;>
    split_ifs with hpoints hboth hboth <;> simp_all

theorem turns_release {s s' : State} {code : Code}
    (heq : s'.report.motion = (release code s.report).motion) : Turns (.off code) s s' := by
  intro b q
  rw [heq]
  simp only [Event.Presses, not_false_iff, true_and, false_or, ne_eq, Event.off.injEq]
  cases code with
  | button n => simp [release]
  | accel n => simp [release]
  | move a positive =>
    rw [release_move, Code.move.injEq]
    split_ifs with hclear
    · obtain ⟨rfl, hpoints⟩ := hclear
      constructor
      · intro hzero
        exact (points_ne_zero hzero rfl).elim
      · rintro ⟨hq, hne⟩
        exact (hne ⟨rfl, points_unique hpoints hq⟩).elim
    · refine ⟨fun hq => ⟨hq, ?_⟩, fun hq => hq.1⟩
      rintro ⟨rfl, rfl⟩
      exact hclear ⟨rfl, hq⟩

section Accelerated

variable (cfg : Accelerated)

theorem clampUnit_bounds {max : ℕ} (hmax : 1 ≤ max ∧ max ≤ 127) (unit : ℕ) :
    1 ≤ Accelerated.clampUnit max unit ∧ Accelerated.clampUnit max unit ≤ 127 := by
  unfold Accelerated.clampUnit
  split_ifs <;> omega

theorem kineticUnit_bounds (speed : ℕ) :
    1 ≤ cfg.kineticUnit speed ∧ cfg.kineticUnit speed ≤ 127 := by
  have hmax := cfg.moveMax_bounds
  unfold Accelerated.kineticUnit
  dsimp only
  split_ifs <;> omega

theorem moveUnit_bounds (now : ℕ) (s : State) :
    1 ≤ cfg.moveUnit now s ∧ cfg.moveUnit now s ≤ 127 := by
  unfold Accelerated.moveUnit
  cases cfg.mode
  · exact clampUnit_bounds cfg.moveMax_bounds _
  · exact clampUnit_bounds cfg.moveMax_bounds _
  · exact kineticUnit_bounds cfg _

theorem wheelUnit_bounds (now : ℕ) (s : State) :
    (1 ≤ (cfg.wheelUnit now s).1 ∧ (cfg.wheelUnit now s).1 ≤ 127) ∧
      (cfg.wheelUnit now s).2.report = s.report := by
  unfold Accelerated.wheelUnit
  cases cfg.mode
  · exact ⟨clampUnit_bounds cfg.wheelMax_bounds _, rfl⟩
  · exact ⟨clampUnit_bounds cfg.wheelMax_bounds _, rfl⟩
  · exact ⟨⟨le_rfl, Nat.le_of_ble_eq_true rfl⟩, rfl⟩

theorem report_restart (now : ℕ) (s : State) : (cfg.restart now s).report = s.report := by
  unfold Accelerated.restart
  dsimp only
  split_ifs <;> rfl

theorem turns_acceleratedOn (code : Code) (now : ℕ) (s : State) :
    Turns (.on code now) s (cfg.mousekeyOn code now s) := by
  have hreport := report_restart cfg now s
  unfold Accelerated.mousekeyOn
  generalize cfg.restart now s = t at hreport
  cases code with
  | move a positive =>
    unfold Accelerated.press
    dsimp only
    split_ifs with hwheel
    · refine turns_set (wheelUnit_bounds cfg now t).1 ?_
      rw [(wheelUnit_bounds cfg now t).2, hreport]
    · refine turns_set (moveUnit_bounds cfg now t) ?_
      rw [hreport]
  | button n => exact turns_of_eq (by rw [← hreport]; rfl) (by simp [Event.Presses]) (by simp)
  | accel n => exact turns_of_eq (by rw [← hreport]; rfl) (by simp [Event.Presses]) (by simp)

theorem turns_acceleratedOff (code : Code) (s : State) :
    Turns (.off code) s (cfg.mousekeyOff code s) := by
  refine turns_release ?_
  unfold Accelerated.mousekeyOff
  dsimp only
  split_ifs <;> rfl

end Accelerated

theorem turns_of_points {e : Event} {s s' : State}
    (heq : ∀ a positive, Points (s'.report.motion a) positive ↔ Points (s.report.motion a) positive)
    (hpress : ∀ a positive, ¬ e.Presses a positive)
    (hoff : ∀ a positive, e ≠ .off (.move a positive)) : Turns e s s' := by
  intro a positive
  have := heq a positive
  have := hpress a positive
  have := hpress a (!positive)
  have := hoff a positive
  tauto

theorem points_speed (cfg : ThreeSpeed) {s t : State} (ht : t.report = s.report) (a : Axis)
    (positive : Bool) :
    Points ((if t.speed ≠ s.speed then cfg.adjustSpeed t else t).report.motion a) positive ↔
      Points (s.report.motion a) positive := by
  split_ifs
  · rw [points_adjustSpeed, ht]
  · rw [ht]

theorem turns_threeSpeedOn (cfg : ThreeSpeed) (code : Code) (now : ℕ) (s : State) :
    Turns (.on code now) s (cfg.mousekeyOn code s) := by
  cases code with
  | move a positive =>
    unfold ThreeSpeed.mousekeyOn
    dsimp only
    rw [if_neg (by simp)]
    refine turns_set (n := cfg.offset s.speed a) ?_ rfl
    unfold ThreeSpeed.offset
    split_ifs
    · exact cfg.wOffsets_bounds s.speed
    · exact cfg.cOffsets_bounds s.speed
  | button n =>
    unfold ThreeSpeed.mousekeyOn
    dsimp only
    rw [if_neg (by simp)]
    exact turns_of_eq rfl (by simp [Event.Presses]) (by simp)
  | accel n =>
    exact turns_of_points (fun a positive => @points_speed cfg s { s with speed := n.speed } rfl a
      positive) (by simp [Event.Presses]) (by simp)

theorem turns_threeSpeedOff (cfg : ThreeSpeed) (code : Code) (s : State) :
    Turns (.off code) s (cfg.mousekeyOff code s) := by
  cases code with
  | move a positive => exact turns_release rfl
  | button n => exact turns_release rfl
  | accel n =>
    refine turns_of_points (fun a positive => ?_) (by simp [Event.Presses]) ?_
    · have hreport : (if cfg.momentary then { s with speed := .unmod } else s : State).report =
          s.report := by
        split_ifs <;> rfl
      exact points_speed cfg hreport a positive
    · simp

theorem turns_step (b : Build) (e : Event) (s : State) : Turns e s (b.step e s) := by
  cases e with
  | on code now =>
    cases b with
    | accelerated cfg => exact turns_acceleratedOn cfg code now s
    | threeSpeed cfg => exact turns_threeSpeedOn cfg code now s
  | off code =>
    cases b with
    | accelerated cfg => exact turns_acceleratedOff cfg code s
    | threeSpeed cfg => exact turns_threeSpeedOff cfg code s
  | task now => cases b <;> exact turns_of_eq rfl (by simp [Event.Presses]) (by simp)
  | send now => cases b <;> exact turns_of_eq rfl (by simp [Event.Presses]) (by simp)

/-- The directions of the axes are those of held keys, and of presses since the axis was 0. -/
structure Tracked (p : Play) : Prop where
  held : ∀ a positive, Points (p.state.report.motion a) positive →
    p.held (.move a positive) = true
  since : ∀ a positive, Points (p.state.report.motion a) positive → p.since a positive = true
  nonzero : ∀ a positive, p.since a positive = true → p.state.report.motion a ≠ 0

theorem Tracked.step (b : Build) {p : Play} (h : Tracked p) (e : Event) :
    Tracked (p.step b e) := by
  have hturns := turns_step b e p.state
  constructor
  · intro a positive hpoints
    change e.update p.held (.move a positive) = true
    rcases (hturns a positive).mp hpoints with hpress | ⟨hbefore, -, hoff⟩
    · cases e with
      | on code now => exact if_pos (Eq.symm hpress)
      | off code => exact hpress.elim
      | task now => exact hpress.elim
      | send now => exact hpress.elim
    · have hheld := h.held a positive hbefore
      cases e with
      | on code now =>
        simp only [Event.update]
        split_ifs
        · rfl
        · exact hheld
      | off code =>
        have hne : ¬ Code.move a positive = code := fun heq => hoff (heq ▸ rfl)
        exact (if_neg hne).trans hheld
      | task now => exact hheld
      | send now => exact hheld
  · intro a positive hpoints
    refine decide_eq_true ⟨points_ne_zero hpoints, ?_⟩
    rcases (hturns a positive).mp hpoints with hpress | ⟨hbefore, -, -⟩
    · right
      exact hpress
    · left
      exact h.since a positive hbefore
  · intro a positive hsince
    exact (of_decide_eq_true hsince).1

theorem tracked_run (b : Build) (events : List Event) : Tracked (Play.run b events) := by
  have hinit : Tracked { state := b.init } := by
    have hzero : b.init.report.motion = fun _ => 0 := by cases b <;> rfl
    constructor
    · intro a positive hpoints
      exact (points_ne_zero hpoints (congrFun hzero a)).elim
    · intro a positive hpoints
      exact (points_ne_zero hpoints (congrFun hzero a)).elim
    · rintro a positive ⟨⟩
  exact List.foldlRecOn events (Play.step b) hinit fun p hp e _ => hp.step b e

theorem Tracked.steady {p : Play} (h : Tracked p) : Steady p where
  released a hfree := by
    by_contra hne
    obtain ⟨positive, hpoints⟩ := exists_points hne
    exact Bool.false_ne_true ((hfree positive).symm.trans (h.held a positive hpoints))
  positive a htrue hfalse := by
    obtain ⟨positive, hpoints⟩ := exists_points (h.nonzero a true htrue)
    cases positive with
    | true => exact hpoints
    | false => exact (hfalse (h.since a false hpoints)).elim
  negative a hfalse htrue := by
    obtain ⟨positive, hpoints⟩ := exists_points (h.nonzero a false hfalse)
    cases positive with
    | true => exact (htrue (h.since a true hpoints)).elim
    | false => exact hpoints

/-- In every build and after every sequence of calls, no axis moves without a held key, and an
axis whose keys were pressed in one direction only points there. -/
theorem run_steady (b : Build) (events : List Event) : Steady (Play.run b events) :=
  (tracked_run b events).steady

end Runs

end Qmk.MouseKeys
