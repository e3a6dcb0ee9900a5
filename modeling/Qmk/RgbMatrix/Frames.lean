import Mathlib.Data.Int.GCD
import Mathlib.Data.List.Induction
import Mathlib.Data.Set.Basic
import Qmk.RgbMatrix

/-! # Frames of the RGB matrix

The LEDs of a frame are set over several calls of the task, between which keys are pressed and the
time goes on. What is flushed is nevertheless one picture: the effect, as of the start of the frame,
on every LED of the half. The indices of the LEDs have eight bits, and a limit that does not divide
well makes them wrap before the last LED, in which case a frame ends late or never.
-/

namespace Qmk.RgbMatrix

variable (cfg : Build)

section Batches

def Batched : Prop := 0 < cfg.processLimit ∧ cfg.processLimit < cfg.ledCount

def ledStart : ℕ :=
  match cfg.split with
  | some (left, false) => left
  | _ => 0

/-- The LED at which a frame is finished. -/
def ledEnd : ℕ :=
  match cfg.split with
  | some (left, true) => left
  | _ => cfg.ledCount

/-- The LED is one of this half. -/
def Mine (i : ℕ) : Prop := ledStart cfg ≤ i ∧ i < ledEnd cfg

def Batch (k i : ℕ) : Prop :=
  Mine cfg i ∧ (Batched cfg → cfg.processLimit * k % 256 ≤ i ∧
    i < (cfg.processLimit * k % 256 + cfg.processLimit) % 256)

def Last (k : ℕ) : Prop :=
  Batched cfg → ledEnd cfg ≤ (cfg.processLimit * k % 256 + cfg.processLimit) % 256

theorem batch_iff {k i : ℕ} :
    (getLimits cfg k).1 ≤ i ∧ i < (getLimits cfg k).2 ↔ Batch cfg k i := by
  have hleft := cfg.leds_ok.2
  have hcount := cfg.leds_ok.1
  unfold Batch Mine getLimits Batched ledStart ledEnd
  rcases hsplit : cfg.split with _ | ⟨left, _ | _⟩ <;>
    simp only [hsplit, Option.all_some, decide_eq_true_eq] at hleft ⊢ <;> grind

theorem last_iff {k : ℕ} :
    checkFinishedLeds cfg (getLimits cfg k).2 = false ↔ Last cfg k := by
  have hleft := cfg.leds_ok.2
  unfold Last getLimits Batched ledEnd checkFinishedLeds
  rcases hsplit : cfg.split with _ | ⟨left, _ | _⟩ <;>
    simp only [hsplit, Option.all_some, decide_eq_true_eq] at hleft ⊢ <;> grind

variable {cfg}

/-- The last batch does not wrap, so that the LEDs before it are in batches that do not wrap. -/
theorem Last.cover {n i : ℕ} (hlast : Last cfg n) (hi : Mine cfg i) : ∃ k ≤ n, Batch cfg k i := by
  by_cases hbatched : Batched cfg
  · have hend := hi.2.trans_le (hlast hbatched)
    have hlimit : cfg.processLimit < 256 := hbatched.2.trans cfg.leds_ok.1
    have hstart : cfg.processLimit * n % 256 < 256 := Nat.mod_lt _ (by decide)
    have hle : cfg.processLimit * n % 256 ≤ cfg.processLimit * n := Nat.mod_le _ _
    rcases Nat.lt_or_ge (cfg.processLimit * n % 256 + cfg.processLimit) 256 with hfits | hwraps
    · rw [Nat.mod_eq_of_lt hfits] at hend
      rcases Nat.lt_or_ge i (cfg.processLimit * n % 256) with hbefore | hafter
      · have hk := Nat.div_add_mod i cfg.processLimit
        have hrest := Nat.mod_lt i hbatched.1
        exact ⟨i / cfg.processLimit, Nat.div_le_of_le_mul (hbefore.le.trans hle), hi,
          fun _ => by omega⟩
      · exact ⟨n, le_rfl, hi, fun _ => ⟨hafter, by rwa [Nat.mod_eq_of_lt hfits]⟩⟩
    · exact ⟨0, n.zero_le, hi, fun _ => by omega⟩
  · exact ⟨0, n.zero_le, hi, fun h => absurd h hbatched⟩

theorem exists_le_mul_mod_iff {l b m : ℕ} (hm : 0 < m) :
    (∃ k < m, b ≤ l * k % m) ↔ b + l.gcd m ≤ m := by
  have hg : l.gcd m ∣ m := Nat.gcd_dvd_right l m
  constructor
  · rintro ⟨k, -, hk⟩
    have hmod : l.gcd m ∣ l * k % m := (Nat.dvd_mod_iff hg).2 ((Nat.gcd_dvd_left l m).mul_right k)
    have hrest : l.gcd m ≤ m - l * k % m :=
      Nat.le_of_dvd (Nat.sub_pos_of_lt (Nat.mod_lt _ hm)) (Nat.dvd_sub hg hmod)
    have := Nat.mod_lt (l * k) hm
    omega
  · intro hb
    rcases (Nat.le_of_dvd hm hg).lt_or_eq with hlt | heq
    · obtain ⟨k, hkm, hk⟩ := Nat.exists_mul_mod_eq_gcd hlt
      have hpos : 0 < l.gcd m := Nat.gcd_pos_of_pos_right l hm
      have hne : k ≠ 0 := by
        rintro rfl
        rw [Nat.mul_zero, Nat.zero_mod] at hk
        omega
      have hsum : l * (m - k) + l * k = l * m := by rw [← Nat.mul_add, Nat.sub_add_cancel hkm.le]
      have hdvd : m ∣ l * (m - k) % m + l.gcd m := Nat.dvd_of_mod_eq_zero <| by
        rw [← hk, Nat.mod_add_mod, Nat.add_mod_mod, hsum, Nat.mul_mod_left]
      have hval : l * (m - k) % m + l.gcd m = m :=
        Nat.eq_of_dvd_of_lt_two_mul (by omega) hdvd (by have := Nat.mod_lt (l * (m - k)) hm; omega)
      exact ⟨m - k, by omega, by omega⟩
    · exact ⟨0, hm, by omega⟩

theorem last_iff_mul (hbatched : Batched cfg) {n : ℕ} :
    Last cfg n ↔ ledEnd cfg ≤ cfg.processLimit * (n + 1) % 256 := by
  rw [Last, Nat.mod_add_mod, ← Nat.mul_succ, forall_prop_of_true hbatched]

/-- A frame has a last batch, unless no index of eight bits that the limit leads to is behind the
LEDs. -/
theorem exists_last_iff :
    (∃ n < 256, Last cfg n) ↔ (Batched cfg → ledEnd cfg + cfg.processLimit.gcd 256 ≤ 256) := by
  by_cases hbatched : Batched cfg
  · rw [forall_prop_of_true hbatched, ← exists_le_mul_mod_iff (by decide)]
    constructor
    · rintro ⟨n, -, hlast⟩
      refine ⟨(n + 1) % 256, Nat.mod_lt _ (by decide), ?_⟩
      rwa [Nat.mul_mod_mod, ← last_iff_mul hbatched]
    · rintro ⟨k, -, hk⟩
      refine ⟨(k + 255) % 256, Nat.mod_lt _ (by decide), (last_iff_mul hbatched).2 ?_⟩
      rwa [← Nat.mul_mod_mod, Nat.mod_add_mod, Nat.add_assoc, Nat.add_mod_right, Nat.mul_mod_mod]
  · exact iff_of_true ⟨0, by decide, fun h => absurd h hbatched⟩ fun h => absurd h hbatched

theorem batch_mod {k i : ℕ} : Batch cfg (k % 256) i ↔ Batch cfg k i := by
  rw [Batch, Nat.mul_mod_mod, ← Batch]

theorem last_mod {k : ℕ} : Last cfg (k % 256) ↔ Last cfg k := by
  rw [Last, Nat.mul_mod_mod, ← Last]

end Batches

section Rendering

variable {cfg} {s : State} {effect : ℕ}

theorem renderEffect_fst (hne : effect ≠ 0) (hlt : effect < cfg.effectMax) :
    (renderEffect cfg effect s).1 = false ↔ Last cfg s.params.iter := by
  rw [renderEffect, if_neg hne, if_pos hlt, ← last_iff]
  rfl

theorem renderEffect_snd (hne : effect ≠ 0) (hlt : effect < cfg.effectMax) {i : ℕ}
    (hflags : hasAnyFlags cfg s.params.flags i) :
    (Batch cfg s.params.iter i ∧ (renderEffect cfg effect s).2 i = cfg.effects effect s.view i) ∨
      (¬Batch cfg s.params.iter i ∧ (renderEffect cfg effect s).2 i = s.leds i) := by
  rw [renderEffect, if_neg hne, if_pos hlt, ← batch_iff]
  simp only [effectRunner, hflags, and_true]
  by_cases hi : (getLimits cfg s.params.iter).1 ≤ i ∧ i < (getLimits cfg s.params.iter).2
  · exact .inl ⟨hi, if_pos hi⟩
  · exact .inr ⟨hi, if_neg hi⟩

theorem rgbTaskRender_taskState (hne : effect ≠ 0) (hlt : effect < cfg.effectMax) :
    (Last cfg s.params.iter ∧ (rgbTaskRender cfg effect s).taskState = .flushing) ∨
      (¬Last cfg s.params.iter ∧ (rgbTaskRender cfg effect s).taskState = s.taskState) := by
  have hlast := @renderEffect_fst cfg (renderParams effect s) effect hne hlt
  have hstate : (rgbTaskRender cfg effect s).taskState =
    if (renderEffect cfg effect (renderParams effect s)).1 then s.taskState
    else if !s.isInit effect && effect = 0 then .syncing else .flushing := rfl
  rw [hstate]
  by_cases hdone : Last cfg s.params.iter
  · simp [hdone, hlast.2 hdone, hne]
  · simp [hdone, hlast.not.2 hdone]

end Rendering

section Frames

/-- An effect of the build is on. -/
structure State.Lit (s : State) : Prop where
  awake : s.suspendState = false
  enabled : s.config.enable = true
  mode_ne : s.config.mode ≠ 0
  mode_lt : s.config.mode < cfg.effectMax

/-- Time and keys go by, and the indicators stay within the lamps. -/
def Call.Steady (lamps : Set ℕ) : Call → Prop
  | .task t => t.idle = false ∧ ∀ leds, ∀ i ∉ lamps, t.indicate leds i = leds i
  | .keyEvent _ => True
  | _ => False

/-- The LED has the color of the effect that is seen in the state. -/
def Painted (s : State) (i : ℕ) : Prop :=
  hasAnyFlags cfg s.config.flags i → s.leds i = cfg.effects s.config.mode s.view i

def Frame (lamps : Set ℕ) (s : State) : Prop :=
  match s.taskState with
  | .rendering => ∃ n, s.params.iter = n % 256 ∧ (∀ k < n, ¬Last cfg k) ∧
      (0 < n → s.params.flags = s.config.flags ∧ s.params.init = s.isInit s.config.mode) ∧
      ∀ k < n, ∀ i ∉ lamps, Batch cfg k i → Painted cfg s i
  | .flushing => (∃ n, Last cfg n) ∧ ∀ i ∉ lamps, Mine cfg i → Painted cfg s i
  | _ => True

variable {cfg} {s : State} {lamps : Set ℕ} {c : Call}

theorem State.Lit.effect {t : Tick} (h : s.Lit cfg) (hidle : t.idle = false) :
    s.effect t = s.config.mode := by
  simp only [State.effect, h.awake, hidle, h.enabled, Bool.or_self, Bool.not_true,
    Bool.false_eq_true, if_false]

/-- A LED of the batch is painted, and those of the batches before it still are: they have been
painted with the same flags, and in the same view. -/
theorem painted_rgbTaskRender (hlit : s.Lit cfg) {n i : ℕ} (hiter : s.params.iter = n % 256)
    (hparams : 0 < n → s.params.flags = s.config.flags ∧ s.params.init = s.isInit s.config.mode)
    (hpainted : ∀ k < n, Batch cfg k i → Painted cfg s i) {k : ℕ} (hk : k ≤ n)
    (hi : Batch cfg k i) : Painted cfg (rgbTaskRender cfg s.config.mode s) i := by
  intro hflags
  have hview : (renderParams s.config.mode s).view = (rgbTaskRender cfg s.config.mode s).view := rfl
  rcases renderEffect_snd (s := renderParams s.config.mode s) hlit.mode_ne hlit.mode_lt hflags with
    ⟨-, hcolor⟩ | ⟨hnot, hold⟩
  · rw [hview] at hcolor
    exact hcolor
  · have hiter' : (renderParams s.config.mode s).params.iter = n % 256 := hiter
    rw [hiter', batch_mod] at hnot
    have hlt : k < n := hk.lt_of_ne fun h => hnot (h ▸ hi)
    obtain ⟨hsame, hinit⟩ := hparams (k.zero_le.trans_lt hlt)
    have hleds : (renderParams s.config.mode s).leds = s.leds := if_pos hsame
    have hseen : s.view = (renderParams s.config.mode s).view := by
      simp only [State.view, renderParams, hinit]
    refine hold.trans ?_
    rw [hleds, hpainted k hlt hi hflags, hseen, hview]
    rfl

theorem Frame.render (hlit : s.Lit cfg) (hstate : s.taskState = .rendering)
    (hframe : Frame cfg lamps s) : Frame cfg lamps (rgbTaskRender cfg s.config.mode s) := by
  simp only [Frame, hstate] at hframe
  obtain ⟨n, hiter, hnot, hparams, hpainted⟩ := hframe
  have hpaint : ∀ k ≤ n, ∀ i ∉ lamps, Batch cfg k i →
      Painted cfg (rgbTaskRender cfg s.config.mode s) i := fun k hk i hi =>
    painted_rgbTaskRender hlit hiter hparams (fun j hj => hpainted j hj i hi) hk
  rcases rgbTaskRender_taskState (s := s) hlit.mode_ne hlit.mode_lt with
    ⟨hlast, hnext⟩ | ⟨hgoes, hnext⟩
  · simp only [Frame, hnext]
    refine ⟨⟨_, hlast⟩, fun i hi hmine => ?_⟩
    rw [hiter, last_mod] at hlast
    obtain ⟨k, hk, hbatch⟩ := hlast.cover hmine
    exact hpaint k hk i hi hbatch
  · rw [hstate] at hnext
    rw [hiter, last_mod] at hgoes
    simp only [Frame, hnext]
    refine ⟨n + 1, ?_, ?_, fun _ => ⟨rfl, rfl⟩, fun k hk => hpaint k (Nat.lt_succ_iff.1 hk)⟩
    · have hnext : (rgbTaskRender cfg s.config.mode s).params.iter =
        (s.params.iter + 1) % 256 := rfl
      rw [hnext, hiter, Nat.mod_add_mod]
    · intro k hk
      rcases (Nat.lt_succ_iff.1 hk).lt_or_eq with hlt | rfl
      · exact hnot k hlt
      · exact hgoes

theorem Frame.indicate {leds : Leds} (hsame : ∀ i ∉ lamps, leds i = s.leds i)
    (hframe : Frame cfg lamps s) : Frame cfg lamps { s with leds } := by
  have hpaint : ∀ i ∉ lamps, Painted cfg s i → Painted cfg { s with leds } i :=
    fun i hi h hflags => (hsame i hi).trans (h hflags)
  rcases hstate : s.taskState <;> simp only [Frame, hstate] at hframe ⊢
  · obtain ⟨n, hiter, hnot, hparams, hpainted⟩ := hframe
    exact ⟨n, hiter, hnot, hparams, fun k hk i hi hbatch => hpaint i hi (hpainted k hk i hi hbatch)⟩
  · exact ⟨hframe.1, fun i hi hmine => hpaint i hi (hframe.2 i hi hmine)⟩

theorem Frame.task {t : Tick} (hlit : s.Lit cfg) (hsteady : (Call.task t).Steady lamps)
    (hframe : Frame cfg lamps s) : Frame cfg lamps (rgbMatrixTask cfg t s) := by
  have heffect := hlit.effect hsteady.1
  rcases hstate : s.taskState
  case starting =>
    rw [rgbMatrixTask_starting hstate]
    exact ⟨0, rfl, by simp, by simp, by simp⟩
  case rendering =>
    rw [rgbMatrixTask_rendering hstate, heffect]
    simp only [ne_eq, hlit.mode_ne, not_false_eq_true, if_true]
    have hlit' : (rgbTaskTimers t.now s).Lit cfg := ⟨hlit.1, hlit.2, hlit.3, hlit.4⟩
    exact (Frame.render hlit' hstate hframe).indicate (hsteady.2 _)
  case flushing =>
    rw [rgbMatrixTask_flushing hstate]
    trivial
  case syncing =>
    rw [rgbMatrixTask_syncing hstate, rgbTaskSync]
    split_ifs
    · trivial
    · simp only [Frame, rgbTaskTimers, hstate]

theorem Frame.apply (hlit : s.Lit cfg) (hsteady : c.Steady lamps) (hframe : Frame cfg lamps s) :
    Frame cfg lamps (c.apply cfg s) := by
  cases c with
  | task t => exact hframe.task hlit hsteady
  | keyEvent led => exact hframe
  | _ => exact hsteady.elim

end Frames

section Runs

variable {cfg} {s : State} {lamps : Set ℕ} {c : Call} {calls : List Call}

theorem Call.Steady.config (hsteady : c.Steady lamps) : (c.apply cfg s).config = s.config := by
  cases c with
  | task t => exact rgbMatrixTask_config
  | keyEvent led => rfl
  | _ => exact hsteady.elim

theorem Call.Steady.suspendState (hsteady : c.Steady lamps) :
    (c.apply cfg s).suspendState = s.suspendState := by
  cases c with
  | task t => exact rgbMatrixTask_suspendState
  | keyEvent led => rfl
  | _ => exact hsteady.elim

/-- A call has started a frame, at the time and with the hits. -/
def Begun (cfg : Build) (s : State) (calls : List Call) (time : UInt32) (hits : List Hit) : Prop :=
  ∃ before t, before ++ [.task t] <+: calls ∧ (run cfg before s).taskState = .starting ∧
    t.now = time ∧ (run cfg (before ++ [.task t]) s).lastHitBuffer = hits

theorem Begun.append {time : UInt32} {hits : List Hit} (h : Begun cfg s calls time hits) :
    Begun cfg s (calls ++ [c]) time hits := by
  obtain ⟨before, t, hprefix, hstate⟩ := h
  exact ⟨before, t, hprefix.trans (List.prefix_append _ _), hstate⟩

/-- The LEDs show one picture, from the start of one frame. -/
def Whole (cfg : Build) (lamps : Set ℕ) (s : State) (calls : List Call) (shown : Leds) : Prop :=
  ∃ time hits init, Begun cfg s calls time hits ∧
    ∀ i ∉ lamps, Mine cfg i → hasAnyFlags cfg s.config.flags i →
      shown i = cfg.effects s.config.mode ⟨s.config.hsv, s.config.speed, time, hits, init⟩ i

theorem Whole.append {shown : Leds} (h : Whole cfg lamps s calls shown) :
    Whole cfg lamps s (calls ++ [c]) shown := by
  obtain ⟨time, hits, init, hbegun, hshown⟩ := h
  exact ⟨time, hits, init, hbegun.append, hshown⟩

structure Renders (cfg : Build) (lamps : Set ℕ) (s : State) (calls : List Call) (s' : State) :
    Prop where
  lit : s'.Lit cfg
  config : s'.config = s.config
  frame : Frame cfg lamps s'
  begun : s'.taskState = .rendering ∨ s'.taskState = .flushing →
    Begun cfg s calls s'.rgbTimer s'.lastHitTracker
  shown : s'.shown = s.shown ∨ Whole cfg lamps s calls s'.shown

variable {s' : State}

theorem Renders.begun_task {t : Tick} (hrun : run cfg calls s = s')
    (h : Renders cfg lamps s calls s') (hnext : (rgbMatrixTask cfg t s').taskState = .rendering ∨
      (rgbMatrixTask cfg t s').taskState = .flushing) :
    Begun cfg s (calls ++ [.task t]) (rgbMatrixTask cfg t s').rgbTimer
      (rgbMatrixTask cfg t s').lastHitTracker := by
  rcases hstate : s'.taskState
  case starting =>
    refine ⟨calls, t, List.prefix_refl _, hrun ▸ hstate, ?_, ?_⟩
    · rw [rgbMatrixTask_starting hstate]
      rfl
    · rw [run_append_singleton, hrun, Call.apply, rgbMatrixTask_starting hstate]
      rfl
  case rendering =>
    rw [rgbMatrixTask_rendering hstate]
    exact (h.begun (.inl hstate)).append
  case flushing =>
    rw [rgbMatrixTask_flushing hstate] at hnext
    rcases hnext with hnext | hnext <;> cases hnext
  case syncing =>
    rw [rgbMatrixTask_syncing hstate, rgbTaskSync] at hnext
    split_ifs at hnext <;> simp [rgbTaskTimers, hstate] at hnext

theorem Renders.shown_task {t : Tick} (h : Renders cfg lamps s calls s') :
    (rgbMatrixTask cfg t s').shown = s.shown ∨
      Whole cfg lamps s (calls ++ [.task t]) (rgbMatrixTask cfg t s').shown := by
  have hold : s'.shown = s.shown ∨ Whole cfg lamps s (calls ++ [.task t]) s'.shown :=
    h.shown.imp_right Whole.append
  rcases hstate : s'.taskState
  case starting =>
    rw [rgbMatrixTask_starting hstate]
    exact hold
  case rendering =>
    rw [rgbMatrixTask_rendering hstate]
    exact hold
  case flushing =>
    have hframe := h.frame
    simp only [Frame, hstate] at hframe
    rw [rgbMatrixTask_flushing hstate]
    refine .inr ⟨_, _, s'.params.init, (h.begun (.inr hstate)).append, fun i hi hmine hflags => ?_⟩
    rw [← h.config] at hflags ⊢
    exact hframe.2 i hi hmine hflags
  case syncing =>
    rw [rgbMatrixTask_syncing hstate, rgbTaskSync]
    split_ifs <;> exact hold

theorem Renders.apply (hrun : run cfg calls s = s') (hsteady : c.Steady lamps)
    (h : Renders cfg lamps s calls s') : Renders cfg lamps s (calls ++ [c]) (c.apply cfg s') where
  lit := by
    have hconfig : (c.apply cfg s').config = s'.config := hsteady.config
    have hsuspend : (c.apply cfg s').suspendState = s'.suspendState := hsteady.suspendState
    exact ⟨hsuspend ▸ h.lit.awake, hconfig ▸ h.lit.enabled, hconfig ▸ h.lit.mode_ne,
      hconfig ▸ h.lit.mode_lt⟩
  config := hsteady.config.trans h.config
  frame := h.frame.apply h.lit hsteady
  begun hnext := by
    cases c with
    | task t => exact h.begun_task hrun hnext
    | keyEvent led => exact (h.begun hnext).append
    | _ => exact hsteady.elim
  shown := by
    cases c with
    | task t => exact h.shown_task
    | keyEvent led => exact h.shown.imp_right Whole.append
    | _ => exact hsteady.elim

theorem renders_run (hlit : s.Lit cfg) (hstate : s.taskState = .starting ∨ s.taskState = .syncing)
    (hsteady : ∀ c ∈ calls, c.Steady lamps) : Renders cfg lamps s calls (run cfg calls s) := by
  induction calls using List.reverseRecOn with
  | nil =>
    refine ⟨hlit, rfl, ?_, fun h => ?_, .inl rfl⟩
    · rcases hstate with h | h <;> simp only [run, List.foldl_nil, Frame, h]
    · rcases hstate with hs | hs <;> simp [run, hs] at h
  | append_singleton calls c ih =>
    rw [List.forall_mem_append, List.forall_mem_singleton] at hsteady
    rw [run_append_singleton]
    exact (ih hsteady.1).apply rfl hsteady.2

/-- While an effect is on, the LEDs of the half show what they have shown before, or the effect with
the time and the hits of one call of the task, however the calls and the keys go on while the LEDs
are set. -/
theorem shown_whole (hlit : s.Lit cfg)
    (hstate : s.taskState = .starting ∨ s.taskState = .syncing)
    (hsteady : ∀ c ∈ calls, c.Steady lamps) :
    (run cfg calls s).shown = s.shown ∨ ∃ time hits init, Begun cfg s calls time hits ∧
      ∀ i ∉ lamps, Mine cfg i → hasAnyFlags cfg s.config.flags i →
        (run cfg calls s).shown i =
          cfg.effects s.config.mode ⟨s.config.hsv, s.config.speed, time, hits, init⟩ i :=
  (renders_run hlit hstate hsteady).shown

theorem shown_whole_threeOfFive :
    let calls := [.task ⟨20, false, id⟩, .task ⟨21, false, id⟩, .keyEvent 2, .task ⟨22, false, id⟩,
      .task ⟨23, false, id⟩, .task ⟨24, false, id⟩]
    Whole threeOfFive ∅ .on calls (run threeOfFive calls .on).shown := by
  intro calls
  have hwhole := @shown_whole threeOfFive .on ∅ calls ⟨rfl, rfl, by decide, by decide⟩ (.inr rfl)
    (by simp [calls, Call.Steady])
  have hnew : (run threeOfFive calls .on).shown 2 ≠ State.on.shown 2 := by decide
  exact hwhole.resolve_left fun h => hnew (congrFun h 2)

/-- The state after the calls, which have not finished the first frame. -/
structure Unfinished (cfg : Build) (calls : List Call) (s' : State) : Prop where
  starting : calls.countP Call.isTask = 0 → s'.taskState = .starting
  rendering : 0 < calls.countP Call.isTask → s'.taskState = .rendering ∧
    s'.params.iter = (calls.countP Call.isTask - 1) % 256
  not_last : ∀ k, k + 1 < calls.countP Call.isTask → ¬Last cfg k

theorem Unfinished.task {t : Tick} (hlit : s'.Lit cfg) (hidle : t.idle = false)
    (h : Unfinished cfg calls s') (hnext : (rgbMatrixTask cfg t s').taskState ≠ .flushing) :
    Unfinished cfg (calls ++ [.task t]) (rgbMatrixTask cfg t s') := by
  have hcount : (calls ++ [Call.task t]).countP Call.isTask = calls.countP Call.isTask + 1 := by
    simp [Call.isTask]
  rcases Nat.eq_zero_or_pos (calls.countP Call.isTask) with hzero | hpos
  · have hstate := h.starting hzero
    rw [rgbMatrixTask_starting hstate]
    constructor <;> rw [hcount, hzero]
    · exact fun h => absurd h (by decide)
    · exact fun _ => ⟨rfl, rfl⟩
    · exact fun k hk => absurd hk (by omega)
  · obtain ⟨hstate, hiter⟩ := h.rendering hpos
    rw [rgbMatrixTask_rendering hstate, hlit.effect hidle] at hnext ⊢
    rcases rgbTaskRender_taskState (s := rgbTaskTimers t.now s') hlit.mode_ne hlit.mode_lt with
      ⟨-, hflush⟩ | ⟨hgoes, hrender⟩
    · exact absurd hflush hnext
    · have hgoes' : ¬Last cfg (calls.countP Call.isTask - 1) := by
        rwa [← last_mod, ← hiter]
      constructor <;> rw [hcount]
      · exact fun h => absurd h (Nat.succ_ne_zero _)
      · refine fun _ => ⟨hrender.trans hstate, ?_⟩
        change (s'.params.iter + 1) % 256 = _
        rw [hiter, Nat.mod_add_mod, Nat.sub_add_cancel hpos, Nat.add_sub_cancel]
      · intro k hk
        rcases (Nat.lt_succ_iff.1 hk).lt_or_eq with hlt | heq
        · exact h.not_last k hlt
        · rwa [← Nat.add_sub_cancel (n := k) (m := 1), heq]

theorem unfinished_run (hlit : s.Lit cfg) (hstate : s.taskState = .starting)
    (hsteady : ∀ c ∈ calls, c.Steady lamps)
    (hgoes : ∀ before, before <+: calls → (run cfg before s).taskState ≠ .flushing) :
    Unfinished cfg calls (run cfg calls s) := by
  induction calls using List.reverseRecOn with
  | nil => exact ⟨fun _ => hstate, fun h => absurd h (by decide), fun k hk => absurd hk (by simp)⟩
  | append_singleton calls c ih =>
    rw [List.forall_mem_append, List.forall_mem_singleton] at hsteady
    have h := ih hsteady.1 fun before hbefore =>
      hgoes before (hbefore.trans (List.prefix_append _ _))
    have hnext := hgoes _ (List.prefix_refl _)
    rw [run_append_singleton] at hnext ⊢
    cases c with
    | task t => exact h.task (renders_run hlit (.inl hstate) hsteady.1).lit hsteady.2.1 hnext
    | keyEvent led =>
      have hcount : (calls ++ [Call.keyEvent led]).countP Call.isTask =
          calls.countP Call.isTask := by
        simp [Call.isTask]
      constructor <;> rw [hcount]
      · exact h.starting
      · exact h.rendering
      · exact h.not_last
    | _ => exact hsteady.2.elim

/-- The calls that start a frame also finish it, unless the greatest index that is a multiple of the
limit in eight bits lies before the end of the LEDs. Then no calls do. -/
theorem frame_ends_iff (hlit : s.Lit cfg) (hstate : s.taskState = .starting)
    (hsteady : ∀ c ∈ calls, c.Steady lamps) (hlong : 256 < calls.countP Call.isTask) :
    (∃ before, before <+: calls ∧ (run cfg before s).taskState = .flushing) ↔
      (0 < cfg.processLimit ∧ cfg.processLimit < cfg.ledCount →
        ledEnd cfg + cfg.processLimit.gcd 256 ≤ 256) := by
  refine Iff.trans ?_ exists_last_iff
  constructor
  · rintro ⟨before, hbefore, hflush⟩
    have hframe := (renders_run hlit (.inl hstate) fun c hc => hsteady c (hbefore.subset hc)).frame
    simp only [Frame, hflush] at hframe
    obtain ⟨n, hlast⟩ := hframe.1
    exact ⟨n % 256, Nat.mod_lt _ (by decide), last_mod.2 hlast⟩
  · rintro ⟨n, hn, hlast⟩
    by_contra! hgoes
    exact (unfinished_run hlit hstate hsteady hgoes).not_last n (by omega) hlast

/-- With 64 LEDs at a time, the index of eight bits never gets behind 200 LEDs. -/
theorem frame_ends_iff_never :
    let cfg : Build := { threeOfFive with
      ledCount := 200, processLimit := 64, split := none, leds_ok := by decide }
    let start : State := { State.on with taskState := .starting }
    ¬∃ before, before <+: List.replicate 257 (.task ⟨1, false, id⟩) ∧
      (run cfg before start).taskState = .flushing := by
  intro cfg start
  have hsteady : ∀ c ∈ List.replicate 257 (Call.task ⟨1, false, id⟩), c.Steady ∅ := by
    intro c hc
    obtain rfl := List.eq_of_mem_replicate hc
    exact ⟨rfl, fun _ _ _ => rfl⟩
  rw [@frame_ends_iff cfg start ∅ _ ⟨rfl, rfl, by decide, by decide⟩ rfl hsteady
    (by rw [List.countP_replicate]; decide)]
  decide

end Runs

end Qmk.RgbMatrix
