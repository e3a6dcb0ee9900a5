import Qmk.MouseKeys
import Mathlib.Tactic.Linarith

/-! # Kinetic mouse keys

The speed of a held key is quadratic in the time, and capped by the base speed. It is stored in
16 bits before it is capped, and in 8 bits behind its division, so it only grows as long as both
are enough. Where an `int` has 16 bits, the product for the square of the time needs to fit them,
too.
-/

namespace Qmk.MouseKeys

section Specification

namespace Accelerated

variable (cfg : Accelerated)

/-- `mousekey_on` for a key, and `mousekey_send` where another driver does not do that. -/
def hold (sends : Bool) (code : Code) (now : ℕ) (s : State) : State :=
  if sends then mousekeySend now (cfg.mousekeyOn code now s) else cfg.mousekeyOn code now s

def task (now : ℕ) (s : State) : State := (Build.accelerated cfg).step (.task now) s

/-- The values of `move_unit` in calls of `mousekey_task`. -/
def heldUnits : List ℕ → State → List ℕ
  | [], _ => []
  | now :: times, s =>
    if cfg.CursorDue now s.report s then
      cfg.moveUnit now { s with repeats := bump s.repeats } :: heldUnits times (cfg.task now s)
    else heldUnits times (cfg.task now s)

/-- The speed after some steps of 50 ms, in unbounded arithmetic and without the cap. -/
def quadratic (steps : ℕ) : ℕ :=
  cfg.initialSpeed + cfg.moveDelta * steps + cfg.moveDelta * steps * steps / 2

/-- After some steps of 50 ms the speed fits 16 bits, and the product that is divided by 2 the
ones of an `int`. -/
def SpeedFits (steps : ℕ) : Prop :=
  cfg.quadratic steps < 2 ^ 16 ∧
    cfg.moveDelta * steps * steps < 2 ^ (if cfg.wideInt then 32 else 16)

instance (steps : ℕ) : Decidable (cfg.SpeedFits steps) := inferInstanceAs (Decidable (_ ∧ _))

/-- Whenever the cursor is due, the speed fits. -/
def SpeedsFit : List ℕ → State → Prop
  | [], _ => True
  | now :: times, s =>
    (cfg.CursorDue now s.report s → s.mouseTimer ≠ 0 →
      cfg.SpeedFits (timerElapsed now s.mouseTimer / 50)) ∧
        SpeedsFit times (cfg.task now s)

/-- The values do not decrease, and they are at most the one of the base speed. -/
structure NeverSlows (units : List ℕ) : Prop where
  sorted : units.Pairwise (· ≤ ·)
  capped : ∀ u ∈ units, u ≤ cfg.kineticUnit cfg.baseSpeed

end Accelerated

/-- No key is held. -/
structure Released (s : State) : Prop where
  motion : ∀ a, s.report.motion a = 0
  accel : ∀ n, s.accel n = false
  repeats : s.repeats = 0
  mouseTimer : s.mouseTimer = 0

end Specification

section Steps

variable (cfg : Accelerated)

theorem released_init : Released (Build.accelerated cfg).init :=
  ⟨fun _ => rfl, fun _ => rfl, rfl, rfl⟩

/-- The values that the speed of the cursor depends on, apart from the repeats. -/
structure SameSpeed (s s' : State) : Prop where
  accel : s'.accel = s.accel
  mouseTimer : s'.mouseTimer = s.mouseTimer

theorem SameSpeed.trans {s s' s'' : State} (h : SameSpeed s s') (h' : SameSpeed s' s'') :
    SameSpeed s s'' :=
  ⟨h'.accel.trans h.accel, h'.mouseTimer.trans h.mouseTimer⟩

theorem sameSpeed_moveCursor (now : ℕ) (tmpmr : Report) (a : Axis) (s : State) :
    SameSpeed s (cfg.moveCursor now tmpmr a s) := by
  unfold Accelerated.moveCursor
  split_ifs <;> exact ⟨rfl, rfl⟩

theorem sameSpeed_cursor (now : ℕ) (tmpmr : Report) (s : State) :
    SameSpeed s (cfg.cursor now tmpmr s) := by
  have hmoved := (sameSpeed_moveCursor cfg now tmpmr .x
    { s with repeats := Accelerated.bump s.repeats }).trans
      (sameSpeed_moveCursor cfg now tmpmr .y _)
  unfold Accelerated.cursor
  split_ifs
  · exact ⟨hmoved.accel, hmoved.mouseTimer⟩
  · exact ⟨rfl, rfl⟩

theorem sameSpeed_moveWheel (now : ℕ) (tmpmr : Report) (a : Axis) (s : State) :
    SameSpeed s (cfg.moveWheel now tmpmr a s) := by
  have hunit : SameSpeed s (cfg.wheelUnit now s).2 := by
    unfold Accelerated.wheelUnit
    cases cfg.mode <;> exact ⟨rfl, rfl⟩
  unfold Accelerated.moveWheel
  split_ifs
  · exact ⟨hunit.accel, hunit.mouseTimer⟩
  · exact ⟨rfl, rfl⟩

theorem sameSpeed_wheel (now : ℕ) (tmpmr : Report) (s : State) :
    SameSpeed s (cfg.wheel now tmpmr s) := by
  have hmoved := (sameSpeed_moveWheel cfg now tmpmr .v
    { s with wheelRepeats := Accelerated.bump s.wheelRepeats }).trans
      (sameSpeed_moveWheel cfg now tmpmr .h _)
  unfold Accelerated.wheel
  split_ifs
  · exact ⟨hmoved.accel, hmoved.mouseTimer⟩
  · exact ⟨rfl, rfl⟩

/-- A call of `mousekey_task` changes neither the timer of the movement nor the speed keys. -/
theorem sameSpeed_task (now : ℕ) (s : State) : SameSpeed s (cfg.task now s) := by
  have hdue : ∀ (tmpmr : Report) (t : State), SameSpeed s t →
      SameSpeed s (cfg.wheel now tmpmr (cfg.cursor now tmpmr t)) := fun tmpmr t ht =>
    ht.trans ((sameSpeed_cursor cfg now tmpmr t).trans (sameSpeed_wheel cfg now tmpmr _))
  have hzeroed := hdue s.report { s with report := { s.report with motion := fun _ => 0 } }
    ⟨rfl, rfl⟩
  unfold Accelerated.task Build.step mousekeyTask
  dsimp only
  split_ifs
  · exact ⟨hzeroed.accel, hzeroed.mouseTimer⟩
  · exact ⟨hzeroed.accel, hzeroed.mouseTimer⟩

def OnlyHeld (a : Axis) (r : Report) : Prop := a.IsWheel = false ∧ ∀ b, r.motion b ≠ 0 ↔ b = a

theorem OnlyHeld.idle {a b : Axis} {r : Report} (h : OnlyHeld a r) (hb : b ≠ a) :
    r.motion b = 0 := by
  by_contra hne
  exact hb ((h.2 b).mp hne)

theorem moveCursor_idle {now : ℕ} {tmpmr : Report} {a : Axis} (h : tmpmr.motion a = 0) (s : State) :
    cfg.moveCursor now tmpmr a s = s :=
  if_neg (not_not_intro h)

theorem diagonal_idle {a b : Axis} {r : Report} (h : r.motion a = 0 ∨ r.motion b = 0) :
    r.diagonal cfg.wideInt a b = r :=
  if_neg (by tauto)

theorem cursor_held {now : ℕ} {tmpmr : Report} {s : State} {a : Axis} (hheld : OnlyHeld a tmpmr)
    (hdue : cfg.CursorDue now tmpmr s) (hzero : ∀ b, s.report.motion b = 0) :
    (cfg.cursor now tmpmr s).report = s.report.set a (directed (0 < tmpmr.motion a)
        (cfg.moveUnit now { s with repeats := Accelerated.bump s.repeats })) ∧
      (cfg.cursor now tmpmr s).sent = s.sent := by
  have hne := (hheld.2 a).mpr rfl
  unfold Accelerated.cursor
  rw [if_pos hdue]
  dsimp only
  cases a with
  | x =>
    have hidle : tmpmr.motion .y = 0 := hheld.idle (by decide)
    rw [moveCursor_idle cfg hidle, Accelerated.moveCursor, if_pos hne]
    exact ⟨diagonal_idle cfg (.inr (hzero .y)), rfl⟩
  | y =>
    have hidle : tmpmr.motion .x = 0 := hheld.idle (by decide)
    rw [moveCursor_idle cfg hidle, Accelerated.moveCursor, if_pos hne]
    exact ⟨diagonal_idle cfg (.inl (hzero .x)), rfl⟩
  | v => cases hheld.1
  | h => cases hheld.1

theorem sent_held {now : ℕ} {s : State} {a : Axis} (hheld : OnlyHeld a s.report)
    (hdue : cfg.CursorDue now s.report s) : ∃ r : Report, (cfg.task now s).sent = r :: s.sent ∧
      r.motion = fun b => if b = a then directed (0 < s.report.motion a)
        (cfg.moveUnit now { s with repeats := Accelerated.bump s.repeats }) else 0 := by
  let zeroed : State := { s with report := { s.report with motion := fun _ => 0 } }
  obtain ⟨hreport, hsent⟩ := @cursor_held cfg now s.report zeroed a hheld hdue fun _ => rfl
  have hwheel : cfg.wheel now s.report (cfg.cursor now s.report zeroed) =
      cfg.cursor now s.report zeroed := by
    have hidle : ∀ b, b.IsWheel = true → s.report.motion b = 0 := fun b hb =>
      hheld.idle fun heq => by rw [heq, hheld.1] at hb; cases hb
    refine if_neg fun hdue => ?_
    have := hdue.1
    simp [hidle .v rfl, hidle .h rfl] at this
  have hne : (cfg.cursor now s.report zeroed).report.motion a ≠ 0 := by
    rw [hreport, set_motion, if_pos rfl]
    exact points_ne_zero ((points_directed (moveUnit_bounds cfg now _) _).mpr rfl)
  have hsend : ShouldMousekeyReportSend (cfg.cursor now s.report zeroed).report := by
    unfold ShouldMousekeyReportSend
    cases a <;> tauto
  refine ⟨(cfg.cursor now s.report zeroed).report, ?_, ?_⟩
  · unfold Accelerated.task Build.step mousekeyTask
    dsimp only
    rw [hwheel, if_pos (.inr hsend)]
    exact congrArg _ hsent
  · ext b
    rw [hreport, set_motion]
    rfl

end Steps

section Speeds

variable {cfg : Accelerated}

/-- The value of `move_unit` some time after the press, in unbounded arithmetic. -/
def idealUnit (cfg : Accelerated) (started : Bool) (delay : ℕ) : ℕ :=
  cfg.kineticUnit (if started then min (cfg.quadratic (delay / 50)) cfg.baseSpeed
    else cfg.initialSpeed)

theorem quadratic_mono (cfg : Accelerated) {m n : ℕ} (h : m ≤ n) :
    cfg.quadratic m ≤ cfg.quadratic n := by
  have hlinear : cfg.moveDelta * m ≤ cfg.moveDelta * n := Nat.mul_le_mul_left _ h
  have hsquare : cfg.moveDelta * m * m ≤ cfg.moveDelta * n * n := Nat.mul_le_mul hlinear h
  unfold Accelerated.quadratic
  omega

/-- Up to a base speed that fits 8 bits the conversion of the speed is monotone. -/
theorem kineticUnit_mono (hbase : cfg.baseSpeed / (1000 / cfg.interval) < 2 ^ 8) {m n : ℕ}
    (h : m ≤ n) (hn : n ≤ cfg.baseSpeed) : cfg.kineticUnit m ≤ cfg.kineticUnit n := by
  have hmn : m / (1000 / cfg.interval) ≤ n / (1000 / cfg.interval) := Nat.div_le_div_right h
  have hle : n / (1000 / cfg.interval) ≤ cfg.baseSpeed / (1000 / cfg.interval) :=
    Nat.div_le_div_right hn
  have hmax := cfg.moveMax_bounds
  unfold Accelerated.kineticUnit
  rw [Nat.mod_eq_of_lt (by omega), Nat.mod_eq_of_lt (by omega)]
  dsimp only
  split_ifs <;> omega

theorem idealUnit_mono (hbase : cfg.baseSpeed / (1000 / cfg.interval) < 2 ^ 8) (started : Bool)
    {d e : ℕ} (h : d ≤ e) : idealUnit cfg started d ≤ idealUnit cfg started e := by
  have hquadratic := quadratic_mono cfg (Nat.div_le_div_right h (c := 50))
  unfold idealUnit
  cases started with
  | true => exact kineticUnit_mono hbase (min_le_min_right _ hquadratic) (min_le_right _ _)
  | false => exact le_rfl

theorem idealUnit_bounds (hspeed : cfg.initialSpeed ≤ cfg.baseSpeed)
    (hbase : cfg.baseSpeed / (1000 / cfg.interval) < 2 ^ 8) (started : Bool) (d : ℕ) :
    cfg.kineticUnit cfg.initialSpeed ≤ idealUnit cfg started d ∧
      idealUnit cfg started d ≤ cfg.kineticUnit cfg.baseSpeed := by
  have hinitial : cfg.initialSpeed ≤ cfg.quadratic (d / 50) := by
    unfold Accelerated.quadratic
    omega
  unfold idealUnit
  cases started with
  | true =>
    exact ⟨kineticUnit_mono hbase (le_min hinitial hspeed) (min_le_right _ _),
      kineticUnit_mono hbase (min_le_right _ _) le_rfl⟩
  | false => exact ⟨le_rfl, kineticUnit_mono hbase hspeed le_rfl⟩

theorem storedSpeed_eq {steps : ℕ} (h : cfg.SpeedFits steps) :
    cfg.storedSpeed cfg.initialSpeed cfg.moveDelta steps = cfg.quadratic steps := by
  obtain ⟨hlt, hint⟩ := h
  unfold Accelerated.storedSpeed
  unfold Accelerated.quadratic at hlt ⊢
  generalize cfg.moveDelta * steps * steps = square at *
  dsimp only
  split_ifs at hint ⊢ with hwide
  · have hsquare : ((square : ℕ) : ℤ).bmod (2 ^ 32) = square :=
      Int.bmod_eq_of_le (by omega) (by omega)
    rw [hsquare, Int.tdiv_eq_ediv_of_nonneg (by omega)]
    omega
  · omega

theorem moveUnit_eq (hmode : cfg.mode = .kinetic) {now : ℕ} {s : State}
    (haccel : ∀ n, s.accel n = false)
    (hfits : s.mouseTimer ≠ 0 → cfg.SpeedFits (timerElapsed now s.mouseTimer / 50)) :
    cfg.moveUnit now { s with repeats := Accelerated.bump s.repeats } =
      idealUnit cfg (s.mouseTimer ≠ 0) (timerElapsed now s.mouseTimer) := by
  have hrepeats : Accelerated.bump s.repeats ≠ 0 := by
    unfold Accelerated.bump
    split_ifs <;> omega
  unfold Accelerated.moveUnit idealUnit
  rw [hmode]
  dsimp only
  congr 1
  unfold Accelerated.kineticSpeed
  dsimp only
  rw [if_neg (by simp [haccel]), if_neg (by simp [haccel])]
  by_cases hstarted : s.mouseTimer = 0
  · rw [if_neg (by simp [hstarted]), if_neg (by simp [hstarted])]
  · rw [if_pos ⟨hrepeats, hstarted⟩, if_pos (by simp [hstarted])]
    rw [storedSpeed_eq (hfits hstarted)]

theorem timerElapsed_start {start d : ℕ} (hd : d < 2 ^ 16) :
    timerElapsed (start + d) (start % 2 ^ 16) = d := by
  unfold timerElapsed
  omega

theorem heldUnits_ideal (hmode : cfg.mode = .kinetic) {start : ℕ} {delays : List ℕ} {s : State}
    (haccel : ∀ n, s.accel n = false) (htimer : s.mouseTimer ≠ 0 → s.mouseTimer = start % 2 ^ 16)
    (hlt : ∀ d ∈ delays, d < 2 ^ 16) (hfits : cfg.SpeedsFit (delays.map (start + ·)) s) :
    ∃ ds, List.Sublist ds delays ∧ cfg.heldUnits (delays.map (start + ·)) s =
      ds.map (idealUnit cfg (s.mouseTimer ≠ 0)) := by
  induction delays generalizing s with
  | nil => exact ⟨[], .slnil, rfl⟩
  | cons d delays ih =>
    obtain ⟨hd, hlt⟩ := List.forall_mem_cons.mp hlt
    obtain ⟨hnow, hrest⟩ := hfits
    have hsame := sameSpeed_task cfg (start + d) s
    obtain ⟨ds, hsub, hunits⟩ := ih (fun n => (congrFun hsame.accel n).trans (haccel n))
      (by rwa [hsame.mouseTimer]) hlt hrest
    rw [hsame.mouseTimer] at hunits
    rw [List.map_cons, Accelerated.heldUnits, hunits]
    split_ifs with hdue
    · refine ⟨d :: ds, hsub.cons_cons d, ?_⟩
      rw [List.map_cons, moveUnit_eq hmode haccel (hnow hdue)]
      by_cases hzero : s.mouseTimer = 0
      · simp only [hzero, ne_eq, not_true, decide_false]
        rfl
      · rw [htimer hzero, timerElapsed_start hd]
    · exact ⟨ds, hsub.cons d, rfl⟩

theorem restart_released (hmode : cfg.mode = .kinetic) {s : State} (hs : Released s) (now : ℕ) :
    cfg.restart now s = { s with mouseTimer := now % 2 ^ 16 } := by
  have hstart : cfg.mode = .kinetic ∧ s.mouseTimer = 0 := ⟨hmode, hs.mouseTimer⟩
  unfold Accelerated.restart
  simp only [if_pos hstart]
  exact if_neg (by simp [ShouldMousekeyReportSend, hs.motion])

theorem hold_state (hmode : cfg.mode = .kinetic) {s : State} (hs : Released s) (sends : Bool)
    {a : Axis} (ha : a.IsWheel = false) (positive : Bool) (now : ℕ) :
    SameSpeed { s with mouseTimer := now % 2 ^ 16 } (cfg.hold sends (.move a positive) now s) := by
  have hon : SameSpeed { s with mouseTimer := now % 2 ^ 16 }
      (cfg.mousekeyOn (.move a positive) now s) := by
    unfold Accelerated.mousekeyOn
    rw [restart_released hmode hs]
    unfold Accelerated.press
    dsimp only
    rw [if_neg (by simp [ha])]
    exact ⟨rfl, rfl⟩
  unfold Accelerated.hold
  split_ifs
  · exact ⟨hon.accel, hon.mouseTimer⟩
  · exact hon

/-- A key that is held does not get slower, as long as the speeds fit. -/
theorem hold_neverSlows {cfg : Accelerated} (hmode : cfg.mode = .kinetic)
    (hspeed : cfg.initialSpeed ≤ cfg.baseSpeed)
    (hbase : cfg.baseSpeed / (1000 / cfg.interval) < 2 ^ 8) {s : State} (hs : Released s)
    (sends : Bool) {a : Axis} (ha : a.IsWheel = false) (positive : Bool) (start : ℕ)
    {delays : List ℕ} (hsorted : delays.Pairwise (· ≤ ·)) (hlt : ∀ d ∈ delays, d < 2 ^ 16)
    (hfits : cfg.SpeedsFit (delays.map (start + ·)) (cfg.hold sends (.move a positive) start s)) :
    cfg.NeverSlows (cfg.moveUnit start (cfg.restart start s) ::
      cfg.heldUnits (delays.map (start + ·)) (cfg.hold sends (.move a positive) start s)) := by
  have hhold := hold_state hmode hs sends ha positive start
  generalize cfg.hold sends (.move a positive) start s = t at *
  obtain ⟨ds, hsub, hunits⟩ := heldUnits_ideal hmode
    (fun n => (congrFun hhold.accel n).trans (hs.accel n)) (fun _ => hhold.mouseTimer) hlt hfits
  have hfirst : cfg.moveUnit start (cfg.restart start s) = cfg.kineticUnit cfg.initialSpeed := by
    rw [restart_released hmode hs]
    unfold Accelerated.moveUnit Accelerated.kineticSpeed
    rw [hmode]
    dsimp only
    rw [if_neg (by simp [hs.accel]), if_neg (by simp [hs.accel]), if_neg (by simp [hs.repeats])]
  have hbounds := idealUnit_bounds hspeed hbase (decide (t.mouseTimer ≠ 0))
  rw [hunits, hfirst]
  constructor
  · refine List.pairwise_cons.mpr ⟨fun u hu => ?_, ?_⟩
    · obtain ⟨d, -, rfl⟩ := List.mem_map.mp hu
      exact (hbounds d).1
    · exact List.pairwise_map.mpr ((hsorted.sublist hsub).imp (idealUnit_mono hbase _))
  · refine List.forall_mem_cons.mpr ⟨kineticUnit_mono hbase hspeed le_rfl, fun u hu => ?_⟩
    obtain ⟨d, -, rfl⟩ := List.mem_map.mp hu
    exact (hbounds d).2

/-- The macros of `mousekey.h` for `MK_KINETIC_SPEED`. -/
def kineticDefaults : Accelerated where
  wideInt := true
  mode := .kinetic
  moveDelta := 16
  moveMax := 127
  delay := 0
  interval := 10
  maxSpeed := 10
  timeToMax := 30
  wheelDelta := 1
  wheelMax := 127
  wheelDelay := 1
  wheelInterval := 80
  wheelMaxSpeed := 8
  wheelTimeToMax := 40
  initialSpeed := 100
  baseSpeed := 5000
  acceleratedSpeed := 3000
  deceleratedSpeed := 400
  wheelInitialMovements := 16
  wheelBaseMovements := 32
  wheelAcceleratedMovements := 48
  wheelDeceleratedMovements := 8
  moveMax_bounds := by decide
  wheelMax_bounds := by decide

/-- A key that is held for half a second. -/
theorem hold_neverSlows_half :
    kineticDefaults.NeverSlows
      (kineticDefaults.moveUnit 1
          (kineticDefaults.restart 1 (Build.accelerated kineticDefaults).init) ::
        kineticDefaults.heldUnits ([250, 500].map (1 + ·))
          (kineticDefaults.hold true (.move .x true) 1
            (Build.accelerated kineticDefaults).init)) :=
  hold_neverSlows rfl (by decide) (by decide) (released_init _) true rfl true 1 (by decide)
    (by decide) ⟨fun _ _ => by decide, fun _ _ => by decide, trivial⟩

/-- With the default macros the speed of a key wraps around after 4.5 seconds. -/
theorem hold_slows :
    kineticDefaults.heldUnits ([4450, 4500].map (1 + ·))
        (kineticDefaults.hold true .msRight 1 (Build.accelerated kineticDefaults).init) =
      [50, 8] ∧ ¬ kineticDefaults.NeverSlows
        (kineticDefaults.moveUnit 1
            (kineticDefaults.restart 1 (Build.accelerated kineticDefaults).init) ::
          kineticDefaults.heldUnits ([4450, 4500].map (1 + ·))
            (kineticDefaults.hold true .msRight 1 (Build.accelerated kineticDefaults).init)) := by
  have hunits : kineticDefaults.heldUnits ([4450, 4500].map (1 + ·))
      (kineticDefaults.hold true .msRight 1 (Build.accelerated kineticDefaults).init) =
        [50, 8] := by
    decide
  refine ⟨hunits, fun hslow => ?_⟩
  have hsorted := hslow.sorted
  rw [hunits] at hsorted
  have := (List.pairwise_cons.mp (List.pairwise_cons.mp hsorted).2).1 8 (List.mem_singleton_self _)
  omega

-- With an `int` of 16 bits it wraps around after 3.2 seconds.
example : { kineticDefaults with wideInt := false }.heldUnits ([3150, 3200].map (1 + ·))
    ({ kineticDefaults with wideInt := false }.hold true .msRight 1
      (Build.accelerated kineticDefaults).init) = [50, 11] := by
  decide

end Speeds

end Qmk.MouseKeys
