import Mathlib.Data.Nat.GCD.Basic
import Mathlib.Tactic.Linarith

/-! # Words per minute

`update_wpm` counts keypresses in periods, and `decay_wpm` turns the counts of a ring of
periods into words per minute. The divisor of the estimate is zero when no time has passed
since a reset of the period counter, and a stale smoothing timer extrapolates beyond the
estimate.
-/

namespace Qmk.Wpm

/-- The options and the macros of `wpm.h`. -/
structure Config where
  launchControl : Bool := false
  unfiltered : Bool := false
  allowCountRegression : Bool := false
  wordSize : ℕ := 5
  sampleSeconds : ℕ := 5
  samplePeriods : ℕ := 25

/-- The static variables of `wpm.c` that count keypresses. -/
structure Sample where
  periodPresses : ℕ → ℤ := fun _ => 0
  currentPeriod : ℕ := 0
  periods : ℕ := 1
  wpmTimer : ℕ := 0

/-- The static variables of `wpm.c`. -/
structure State where
  sample : Sample := { }
  currentWpm : ℕ := 0
  smoothingTimer : ℕ := 0
  prevWpm : ℕ := 0
  nextWpm : ℕ := 0

section Keycodes

/-- The keycode of a key with modifiers or with another role, 0 for keycodes that are not
basic. -/
def basicKeycode (keycode : ℕ) : ℕ :=
  if (0x2000 ≤ keycode ∧ keycode ≤ 0x3FFF) ∨ (0x4000 ≤ keycode ∧ keycode ≤ 0x4FFF) ∨
      (0x0100 ≤ keycode ∧ keycode ≤ 0x1FFF) then keycode % 0x100
  else if 0xFF < keycode then 0 else keycode

def wpmKeycode (keycode : ℕ) : Bool :=
  let keycode := basicKeycode keycode
  (0x04 ≤ keycode ∧ keycode ≤ 0x27) ∨ (0x2B ≤ keycode ∧ keycode ≤ 0x38)

def wpmRegressCount (wordSize mods keycode : ℕ) : ℕ :=
  let weakModded := (0x0100 ≤ keycode ∧ keycode < 0x0200) ∨ (0x1100 ≤ keycode ∧ keycode < 0x1200)
  let keycode := basicKeycode keycode
  if keycode = 0x4C ∨ keycode = 0x2A then
    if mods &&& 0x11 ≠ 0 ∨ weakModded then wordSize % 2 ^ 8 else 1
  else 0

end Keycodes

section Timers

def int32 (n : ℤ) : ℤ := n.bmod (2 ^ 32)

def timerElapsed32 (now last : ℕ) : ℕ := (((now : ℤ) - last) % 2 ^ 32).toNat

theorem int32_eq {n : ℤ} (h : -2 ^ 31 ≤ n) (h' : n < 2 ^ 31) : int32 n = n :=
  Int.bmod_eq_of_le (by omega) (by omega)

end Timers

namespace Config

variable (cfg : Config)

def periodDuration : ℕ := 1000 * cfg.sampleSeconds / cfg.samplePeriods

/-- `update_wpm`, with the modifiers and one-shot modifiers of that time. -/
def updateWpm (keycode mods : ℕ) (p : Sample) : Sample :=
  let add := fun (n : ℤ) (p : Sample) => { p with
    periodPresses := fun i =>
      if i = p.currentPeriod then p.periodPresses i + n else p.periodPresses i }
  let p := if wpmKeycode keycode ∧ p.periodPresses p.currentPeriod < 2 ^ 15 - 1 then add 1 p else p
  if cfg.allowCountRegression ∧ wpmRegressCount cfg.wordSize mods keycode ≠ 0 ∧
    -2 ^ 15 < p.periodPresses p.currentPeriod then add (-1) p else p

def presses (p : Sample) : ℤ := max 0 ((List.range (p.periods + 1)).map p.periodPresses).sum

def elapsed (now : ℕ) (p : Sample) : ℤ := int32 (timerElapsed32 now p.wpmTimer)

/-- `duration * WPM_ESTIMATED_WORD_SIZE`. -/
def divisor (now : ℕ) (p : Sample) : ℤ :=
  let duration := (p.periods * cfg.periodDuration + elapsed now p) % 2 ^ 32
  duration * cfg.wordSize % 2 ^ 32

def wpmNow (now : ℕ) (p : Sample) : ℤ :=
  let wpmNow := int32 (60000 * presses p % 2 ^ 32 / cfg.divisor now p)
  if presses p < 2 then 0 else min 240 (max 0 wpmNow)

/-- Going to the next period, and what `WPM_LAUNCH_CONTROL` does without keypresses. -/
def advance (now : ℕ) (p : Sample) : Sample :=
  let q := if (cfg.periodDuration : ℤ) < elapsed now p then
      let current := (p.currentPeriod + 1) % cfg.samplePeriods % 2 ^ 8
      { currentPeriod := current
        periodPresses := fun i => if i = current then 0 else p.periodPresses i
        periods := (if p.periods < cfg.samplePeriods - 1 then p.periods + 1
          else cfg.samplePeriods - 1) % 2 ^ 8
        wpmTimer := now }
    else p
  if cfg.launchControl ∧ presses p = 0 then
    { q with
      currentPeriod := 0
      periods := 0
      periodPresses := fun i => if i = 0 then 0 else q.periodPresses i }
  else q

def latency (now : ℕ) (s : State) : ℤ := int32 (timerElapsed32 now s.smoothingTimer)

/-- The smoothing over `LATENCY` milliseconds. -/
def smooth (now : ℕ) (wpmNow : ℤ) (s : State) : State :=
  let latency := latency now s
  let s := if 100 < latency then
      { s with smoothingTimer := now, prevWpm := s.currentWpm, nextWpm := wpmNow.toNat }
    else s
  { s with
    currentWpm := ((s.prevWpm + (int32 (latency * (s.nextWpm - s.prevWpm))).tdiv 100) %
      2 ^ 8).toNat }

def decayWpm (now : ℕ) (s : State) : Option State :=
  if cfg.divisor now s.sample = 0 then none
  else
    let wpmNow := cfg.wpmNow now s.sample
    let s := { s with sample := cfg.advance now s.sample }
    some (if cfg.unfiltered then { s with currentWpm := wpmNow.toNat } else smooth now wpmNow s)

end Config

/-- A call, with the modifiers or the time that it reads. -/
inductive Call where
  | updateWpm (keycode mods : ℕ)
  | decayWpm (now : ℕ)

namespace Config

variable (cfg : Config)

def step : Call → State → Option State
  | .updateWpm keycode mods, s => some { s with sample := cfg.updateWpm keycode mods s.sample }
  | .decayWpm now, s => cfg.decayWpm now s

/-- No call of the run divides by zero, and after each one `current_wpm` is at most 240. -/
def InRange : List Call → State → Prop
  | [], _ => True
  | call :: calls, s => ∃ s', cfg.step call s = some s' ∧ s'.currentWpm ≤ 240 ∧ InRange calls s'

/-- The sampled time is not a multiple of the time after which the divisor wraps to zero. For
an odd word size these are the times 0, 2 ^ 32 and so on. -/
def Spaced (now : ℕ) (p : Sample) : Prop :=
  ¬ 2 ^ 32 / Nat.gcd (2 ^ 32) cfg.wordSize ∣
    p.periods * cfg.periodDuration + timerElapsed32 now p.wpmTimer

instance (now : ℕ) (p : Sample) : Decidable (cfg.Spaced now p) :=
  inferInstanceAs (Decidable (¬ _))

/-- `latency` hundredths of the way from `prev` to `next` lead to a value within the limits. -/
def StaysWithin (latency prev next : ℤ) : Prop :=
  -100 < 100 * prev + latency * (next - prev) ∧
    100 * prev + latency * (next - prev) < 100 * (240 + 1)

/-- Results are not smoothed, or the smoothing timer is not stale, or the estimate is close enough
to the shown value. -/
def Steady (now : ℕ) (s : State) : Prop :=
  cfg.unfiltered ∨ (0 ≤ latency now s ∧ latency now s ≤ 100) ∨
    (100 < latency now s ∧
      StaysWithin (latency now s) s.currentWpm (cfg.wpmNow now s.sample)) ∨
    (latency now s < 0 ∧ StaysWithin (latency now s) s.prevWpm s.nextWpm)

/-- The times of the calls of `decay_wpm` keep clear of both. -/
def Timed : List Call → State → Prop
  | [], _ => True
  | .updateWpm keycode mods :: calls, s =>
    Timed calls { s with sample := cfg.updateWpm keycode mods s.sample }
  | .decayWpm now :: calls, s =>
    cfg.Spaced now s.sample ∧ cfg.Steady now s ∧ ∀ s' ∈ cfg.decayWpm now s, Timed calls s'

end Config

section Divisor

theorem dvd_mul_iff {m d w : ℕ} (hm : 0 < m) : m ∣ d * w ↔ m / Nat.gcd m w ∣ d := by
  rw [Nat.mul_comm, ← Nat.dvd_gcd_mul_iff_dvd_mul,
    Nat.div_dvd_iff_dvd_mul (Nat.gcd_dvd_left m w) (Nat.gcd_pos_of_pos_left w hm)]

theorem elapsed_emod (now : ℕ) (p : Sample) :
    Config.elapsed now p % 2 ^ 32 = timerElapsed32 now p.wpmTimer % 2 ^ 32 := by
  unfold Config.elapsed int32
  exact_mod_cast Int.bmod_emod

theorem divisor_eq_zero_iff (cfg : Config) (now : ℕ) (p : Sample) :
    cfg.divisor now p = 0 ↔ ¬ cfg.Spaced now p := by
  have helapsed := elapsed_emod now p
  have hduration : ((p.periods : ℤ) * cfg.periodDuration + Config.elapsed now p) % 2 ^ 32 =
      ((p.periods * cfg.periodDuration + timerElapsed32 now p.wpmTimer : ℕ) : ℤ) % 2 ^ 32 := by
    push_cast
    omega
  unfold Config.divisor Config.Spaced
  dsimp only
  rw [not_not, ← dvd_mul_iff (by norm_num), hduration, Int.mul_emod, Int.emod_emod,
    ← Int.mul_emod, ← Int.dvd_iff_emod_eq_zero]
  exact_mod_cast Iff.rfl

end Divisor

section Limits

/-- All values of words per minute are at most 240. -/
structure InLimits (s : State) : Prop where
  current : s.currentWpm ≤ 240
  prev : s.prevWpm ≤ 240
  next : s.nextWpm ≤ 240

theorem wpmNow_limits (cfg : Config) (now : ℕ) (p : Sample) :
    0 ≤ cfg.wpmNow now p ∧ cfg.wpmNow now p ≤ 240 := by
  unfold Config.wpmNow
  dsimp only
  split_ifs <;> omega

theorem tdiv_bounds (n : ℤ) : (0 ≤ n → 0 ≤ n.tdiv 100 ∧ 100 * n.tdiv 100 ≤ n) ∧
    (n ≤ 0 → n.tdiv 100 ≤ 0 ∧ n ≤ 100 * n.tdiv 100) := by
  have hpos : ∀ n : ℤ, 0 ≤ n → 0 ≤ n.tdiv 100 ∧ 100 * n.tdiv 100 ≤ n := fun n hn =>
    ⟨Int.tdiv_nonneg hn (by decide), by rw [Int.tdiv_eq_ediv_of_nonneg hn]; omega⟩
  refine ⟨hpos n, fun hn => ?_⟩
  have hneg := hpos (-n) (by omega)
  rw [Int.neg_tdiv] at hneg
  omega

theorem staysWithin_fresh {latency prev next : ℤ} (hlatency : 0 ≤ latency ∧ latency ≤ 100)
    (hprev : 0 ≤ prev ∧ prev ≤ 240) (hnext : 0 ≤ next ∧ next ≤ 240) :
    Config.StaysWithin latency prev next := by
  unfold Config.StaysWithin
  rcases le_total prev next with hle | hle
  · have hnonneg : 0 ≤ latency * (next - prev) := mul_nonneg hlatency.1 (by omega)
    have hbound : latency * (next - prev) ≤ 100 * (next - prev) :=
      mul_le_mul_of_nonneg_right hlatency.2 (by omega)
    omega
  · have hnonneg : 0 ≤ latency * (prev - next) := mul_nonneg hlatency.1 (by omega)
    have hbound : latency * (prev - next) ≤ 100 * (prev - next) :=
      mul_le_mul_of_nonneg_right hlatency.2 (by omega)
    have hflip : latency * (next - prev) = -(latency * (prev - next)) := by rw [← mul_neg, neg_sub]
    omega

theorem Config.StaysWithin.smoothed {latency prev next : ℤ}
    (h : Config.StaysWithin latency prev next) (hprev : 0 ≤ prev ∧ prev ≤ 240) :
    ((prev + (int32 (latency * (next - prev))).tdiv 100) % 2 ^ 8).toNat ≤ 240 := by
  obtain ⟨hlower, hupper⟩ := h
  obtain ⟨hpos, hneg⟩ := tdiv_bounds (latency * (next - prev))
  rw [int32_eq (by omega) (by omega)]
  rcases le_total 0 (latency * (next - prev)) with hle | hle
  · have := hpos hle
    omega
  · have := hneg hle
    omega

theorem smooth_inLimits {cfg : Config} {now : ℕ} {s : State} (hs : InLimits s)
    (hfiltered : ¬ cfg.unfiltered) (hsteady : cfg.Steady now s) (p : Sample) :
    InLimits (Config.smooth now (cfg.wpmNow now s.sample) { s with sample := p }) := by
  obtain ⟨hcurrent, hprev, hnext⟩ := hs
  obtain ⟨hwpm, hwpm'⟩ := wpmNow_limits cfg now s.sample
  have hlatency : Config.latency now { s with sample := p } = Config.latency now s := rfl
  replace hsteady := hsteady.resolve_left hfiltered
  unfold Config.smooth
  rw [hlatency]
  generalize Config.latency now s = latency at *
  generalize cfg.wpmNow now s.sample = wpmNow at *
  by_cases hdue : 100 < latency
  · have hstays : Config.StaysWithin latency s.currentWpm wpmNow := by
      rcases hsteady with hfresh | ⟨-, hstays⟩ | ⟨hnegative, -⟩
      · omega
      · exact hstays
      · omega
    simp only [if_pos hdue, Int.toNat_of_nonneg hwpm]
    refine ⟨hstays.smoothed (by omega), hcurrent, ?_⟩
    dsimp only
    omega
  · have hstays : Config.StaysWithin latency s.prevWpm s.nextWpm := by
      rcases hsteady with hfresh | ⟨hstale, -⟩ | ⟨-, hstays⟩
      · exact staysWithin_fresh hfresh (by omega) (by omega)
      · omega
      · exact hstays
    simp only [if_neg hdue]
    exact ⟨hstays.smoothed (by omega), hprev, hnext⟩

theorem decayWpm_inLimits {cfg : Config} {now : ℕ} {s : State} (hs : InLimits s)
    (hspaced : cfg.Spaced now s.sample) (hsteady : cfg.Steady now s) :
    ∃ s', cfg.decayWpm now s = some s' ∧ InLimits s' := by
  have hdivisor : cfg.divisor now s.sample ≠ 0 := fun hzero =>
    (divisor_eq_zero_iff cfg now s.sample).mp hzero hspaced
  obtain ⟨hwpm, hwpm'⟩ := wpmNow_limits cfg now s.sample
  refine ⟨_, if_neg hdivisor, ?_⟩
  by_cases hfiltered : cfg.unfiltered = true
  · rw [if_pos hfiltered]
    refine ⟨?_, hs.prev, hs.next⟩
    dsimp only
    omega
  · rw [if_neg hfiltered]
    exact smooth_inLimits hs hfiltered hsteady _

theorem inRange_of_timed {cfg : Config} {calls : List Call} {s : State} (hs : InLimits s)
    (htimed : cfg.Timed calls s) : cfg.InRange calls s := by
  induction calls generalizing s with
  | nil => trivial
  | cons call calls ih =>
    cases call with
    | updateWpm keycode mods =>
      exact ⟨_, rfl, hs.current, ih ⟨hs.current, hs.prev, hs.next⟩ htimed⟩
    | decayWpm now =>
      obtain ⟨hspaced, hsteady, hrest⟩ := htimed
      obtain ⟨s', hs', hlimits⟩ := decayWpm_inLimits hs hspaced hsteady
      exact ⟨s', hs', hlimits.current, ih hlimits (hrest s' hs')⟩

/-- In every run from the start, as long as the calls keep clear of both. -/
theorem wpm_inRange (cfg : Config) (calls : List Call) (htimed : cfg.Timed calls { }) :
    cfg.InRange calls { } :=
  inRange_of_timed ⟨Nat.zero_le _, Nat.zero_le _, Nat.zero_le _⟩ htimed

/-- Two presses and two calls within the first 0.1 seconds. -/
theorem wpm_inRange_fresh :
    Config.InRange { } [.updateWpm 0x04 0, .updateWpm 0x05 0, .decayWpm 50] { } :=
  wpm_inRange { } _ ⟨by decide +kernel, .inr (.inl (by decide +kernel)), fun _ _ => trivial⟩

theorem Config.InRange.reached {cfg : Config} {calls : List Call} {s : State}
    (h : cfg.InRange calls s) (hs : s.currentWpm ≤ 240) :
    ∃ t, calls.foldlM (fun s call => cfg.step call s) s = some t ∧ t.currentWpm ≤ 240 := by
  induction calls generalizing s with
  | nil => exact ⟨s, rfl, hs⟩
  | cons call calls ih =>
    obtain ⟨s', hs', hle, hrest⟩ := h
    obtain ⟨t, ht, hle'⟩ := ih hrest hle
    refine ⟨t, ?_, hle'⟩
    rw [List.foldlM_cons, hs']
    exact ht

/-- Two calls in the first millisecond divide by zero when the first one resets the period
counter, and seven presses in 101 milliseconds are shown as 242. -/
theorem wpm_outOfRange :
    ¬ Config.InRange { launchControl := true } [.decayWpm 0, .decayWpm 0] { } ∧
      ¬ Config.InRange { } (List.replicate 7 (.updateWpm 0x04 0) ++ [.decayWpm 101]) { } := by
  constructor
  · intro h
    obtain ⟨t, ht, -⟩ := h.reached (by decide)
    have hnone : [Call.decayWpm 0, .decayWpm 0].foldlM
        (fun s call => Config.step { launchControl := true } call s) { } = none := by
      decide +kernel
    rw [hnone] at ht
    cases ht
  · intro h
    obtain ⟨t, ht, hle⟩ := h.reached (by decide)
    have hwpm : ((List.replicate 7 (Call.updateWpm 0x04 0) ++ [Call.decayWpm 101]).foldlM
        (fun s call => Config.step { } call s) { }).map State.currentWpm = some 242 := by
      decide +kernel
    rw [ht] at hwpm
    obtain hwpm := Option.some.inj hwpm
    omega

end Limits

end Qmk.Wpm
