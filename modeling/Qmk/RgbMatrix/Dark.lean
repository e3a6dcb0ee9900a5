import Mathlib.Data.List.Induction
import Qmk.RgbMatrix

/-! # LEDs that are off

The LEDs are set to black by the first frame in which no effect is on, and are not flushed any more
after that. Whether a frame is the first one is told by the last flush, and a flush takes the LEDs
as they are: when the timeout comes between the last batch of an effect and its flush, or a suspend
behind the first batch since the LEDs were off, they show that effect until they are on again.
-/

namespace Qmk.RgbMatrix

variable {cfg : Build} {s : State} {c : Call} {before calls : List Call}

section Causes

/-- The LEDs are black if no effect has been flushed last. -/
def Dark (s : State) : Prop := s.lastEffect = some 0 → s.shown = setColorAll black

/-- No frame has been started. -/
structure State.Boot (s : State) : Prop where
  lastEffect : s.lastEffect = none
  taskState : s.taskState = .syncing

def Call.Flushes (cfg : Build) (s : State) : Call → Prop
  | .task _ => s.taskState = .flushing
  | .suspend state => cfg.sleep ∧ state = true ∧ s.suspendState = false
  | _ => False

def Call.Renders (s : State) : Call → Prop
  | .task t => s.taskState = .rendering ∧ s.effect t ≠ 0
  | _ => False

/-- A batch of an effect has been rendered since the last flush. -/
def EffectSince (cfg : Build) (s : State) (before : List Call) : Prop :=
  ∃ earlier c after, before = earlier ++ c :: after ∧ c.Renders (run cfg earlier s) ∧
    ∀ mid d, mid ++ [d] <+: after → ¬d.Flushes cfg (run cfg (earlier ++ c :: mid) s)

/-- The call flushes the LEDs of such an effect for those of none: the timeout has come before the
flush, or a suspend finds that no effect has been flushed last and does not set them to black. -/
def Caught (cfg : Build) (s : State) (before : List Call) (c : Call) : Prop :=
  let now := run cfg before s
  EffectSince cfg s before ∧ now.leds ≠ setColorAll black ∧
    match c with
    | .task t => now.taskState = .flushing ∧ t.idle = true
    | .suspend _ => c.Flushes cfg now ∧ now.isInit 0 = false ∧
        now.params.flags = now.config.flags
    | _ => False

end Causes

section Steps

theorem effectSince_of_renders (h : c.Renders (run cfg before s)) :
    EffectSince cfg s (before ++ [c]) :=
  ⟨before, c, [], rfl, h, fun mid d hpre => by simp at hpre⟩

theorem EffectSince.append (h : EffectSince cfg s before)
    (hflush : ¬c.Flushes cfg (run cfg before s)) : EffectSince cfg s (before ++ [c]) := by
  obtain ⟨earlier, first, after, rfl, hrenders, hnone⟩ := h
  refine ⟨earlier, first, after ++ [c], by simp, hrenders, fun mid d hpre => ?_⟩
  rcases List.prefix_concat_iff.mp hpre with heq | hpre
  · obtain ⟨rfl, hd⟩ := List.append_inj' heq rfl
    rwa [List.singleton_inj.mp hd]
  · exact hnone mid d hpre

/-- What a call other than those of the task and of the suspend does. -/
structure Leaves (s s' : State) : Prop where
  leds : s'.leds = s.leds
  shown : s'.shown = s.shown
  lastEffect : s'.lastEffect = s.lastEffect
  taskState : s'.taskState = .starting ∨ s'.taskState = s.taskState ∧
    s'.suspendState = s.suspendState ∧
    (s.config.enable = true → s'.config.enable = true ∧ s'.config.mode = s.config.mode)

theorem Leaves.refl (s : State) : Leaves s s :=
  ⟨rfl, rfl, rfl, .inr ⟨rfl, rfl, fun h => ⟨h, rfl⟩⟩⟩

theorem Leaves.dark {s' : State} (h : Leaves s s') (hdark : Dark s) : Dark s' := by
  rw [Dark, h.lastEffect, h.shown]
  exact hdark

theorem leaves_mode (mode : ℕ) (s : State) : Leaves s (rgbMatrixMode cfg mode s) := by
  unfold rgbMatrixMode
  by_cases hoff : (!s.config.enable) = true
  · rw [if_pos hoff]
    exact .refl s
  · rw [if_neg hoff]
    exact ⟨rfl, rfl, rfl, .inl rfl⟩

theorem leaves_enable (s : State) : Leaves s (rgbMatrixEnable s) := by
  refine ⟨rfl, rfl, rfl, ?_⟩
  unfold rgbMatrixEnable
  cases s.config.enable
  · exact .inl rfl
  · exact .inr ⟨rfl, rfl, fun _ => ⟨rfl, rfl⟩⟩

theorem leaves_sethsv (hsv : Hsv) (s : State) : Leaves s (rgbMatrixSethsv cfg hsv s) := by
  unfold rgbMatrixSethsv
  by_cases hoff : (!s.config.enable) = true
  · rw [if_pos hoff]
    exact .refl s
  · rw [if_neg hoff]
    exact ⟨rfl, rfl, rfl, .inr ⟨rfl, rfl, fun h => ⟨h, rfl⟩⟩⟩

theorem leaves_disable (s : State) : Leaves s (rgbMatrixDisable s) := by
  refine ⟨rfl, rfl, rfl, ?_⟩
  unfold rgbMatrixDisable
  cases s.config.enable
  · exact .inr ⟨rfl, rfl, nofun⟩
  · exact .inl rfl

theorem leaves_reload (stored : RgbConfig) (s : State) :
    Leaves s (rgbMatrixReload cfg stored s) := by
  unfold rgbMatrixReload
  have hdisable := leaves_disable s
  have hmode := @leaves_mode cfg stored.mode { rgbMatrixDisable s with config := stored }
  dsimp only
  by_cases hstored : stored.enable = true
  · rw [if_pos hstored]
    refine ⟨hmode.leds, hmode.shown, hmode.lastEffect, .inl ?_⟩
    simp [rgbMatrixMode, hstored]
  · rw [if_neg hstored]
    refine ⟨rfl, rfl, rfl, hdisable.taskState.imp_right fun h => ⟨h.1, h.2.1, fun hon => ?_⟩⟩
    exact absurd (h.2.2 hon).1 Bool.false_ne_true

theorem leaves_apply (htask : c.isTask = false) (hsuspend : ∀ state, c ≠ .suspend state) :
    Leaves s (c.apply cfg s) := by
  cases c with
  | task t => cases htask
  | suspend state => exact absurd rfl (hsuspend state)
  | toggle => exact ⟨rfl, rfl, rfl, .inl rfl⟩
  | enable => exact leaves_enable s
  | disable => exact leaves_disable s
  | mode mode => exact leaves_mode mode s
  | step => exact leaves_mode _ s
  | stepReverse => exact leaves_mode _ s
  | sethsv hsv => exact leaves_sethsv hsv s
  | reload stored => exact leaves_reload stored s
  | setSpeed speed => exact ⟨rfl, rfl, rfl, .inr ⟨rfl, rfl, fun h => ⟨h, rfl⟩⟩⟩
  | setFlags flags => exact ⟨rfl, rfl, rfl, .inr ⟨rfl, rfl, fun h => ⟨h, rfl⟩⟩⟩
  | keyEvent led => exact ⟨rfl, rfl, rfl, .inr ⟨rfl, rfl, fun h => ⟨h, rfl⟩⟩⟩

/-- `rgb_matrix_none` sets the LEDs to black when it is new, and so does a change of the flags. -/
theorem rgbTaskRender_none_leds :
    (rgbTaskRender cfg 0 s).leds =
      if s.isInit 0 = false ∧ s.params.flags = s.config.flags then s.leds
      else setColorAll black := by
  have hleds : (rgbTaskRender cfg 0 s).leds =
    if s.isInit 0 then setColorAll black else (renderParams 0 s).leds := rfl
  rw [hleds]
  cases s.isInit 0 <;> simp [renderParams]

theorem rgbTaskRender_none_taskState : (rgbTaskRender cfg 0 s).taskState =
    if s.isInit 0 then .flushing else .syncing := by
  have hstate : (rgbTaskRender cfg 0 s).taskState =
    if !s.isInit 0 && (0 : ℕ) = 0 then .syncing else .flushing := rfl
  rw [hstate]
  cases s.isInit 0 <;> rfl

theorem lastEffect_of_not_isInit (h : s.isInit 0 = false) : s.lastEffect = some 0 := by
  simp only [State.isInit, Bool.or_eq_false_iff, bne_eq_false_iff_eq] at h
  exact h.1.symm

theorem effect_ne_zero {t : Tick} (h : s.effect t ≠ 0) :
    s.suspendState = false ∧ s.config.enable = true ∧ s.config.mode ≠ 0 := by
  unfold State.effect at h
  split_ifs at h with hoff
  · exact absurd rfl h
  · simp only [Bool.or_eq_true, Bool.not_eq_true'] at hoff
    refine ⟨?_, ?_, h⟩
    · cases hs : s.suspendState
      · rfl
      · exact absurd (.inl (.inl hs)) hoff
    · cases hs : s.config.enable
      · exact absurd (.inr hs) hoff
      · rfl

end Steps

section Runs

variable {t : Tick}

/-- The LEDs of an effect that has not been flushed can be told by the state of the task, and by the
last flush. -/
structure Tracked (cfg : Build) (s : State) (before : List Call) (now : State) : Prop where
  flushing : now.taskState = .flushing → now.leds ≠ setColorAll black →
    EffectSince cfg s before ∧ now.suspendState = false ∧ now.config.enable = true ∧
      now.config.mode ≠ 0
  none : now.lastEffect = some 0 → now.leds ≠ setColorAll black → EffectSince cfg s before

theorem Tracked.leaves {now next : State} (h : Tracked cfg s before now) (hnext : Leaves now next)
    (hextends : EffectSince cfg s before → EffectSince cfg s (before ++ [c])) :
    Tracked cfg s (before ++ [c]) next where
  flushing hstate hleds := by
    rcases hnext.taskState with hstart | ⟨hsame, hsuspend, hconfig⟩
    · exact absurd (hstart.symm.trans hstate) TaskState.noConfusion
    · obtain ⟨hsince, hawake, hon, hmode⟩ := h.flushing (hsame ▸ hstate) (hnext.leds ▸ hleds)
      refine ⟨hextends hsince, hsuspend.trans hawake, (hconfig hon).1, ?_⟩
      rwa [(hconfig hon).2]
  none hlast hleds := hextends (h.none (hnext.lastEffect ▸ hlast) (hnext.leds ▸ hleds))

theorem Tracked.task (h : Tracked cfg s before (run cfg before s))
    (hdark : Dark (run cfg (before ++ [.task t]) s)) :
    Tracked cfg s (before ++ [.task t]) (run cfg (before ++ [.task t]) s) := by
  have hextends : (run cfg before s).taskState ≠ .flushing → EffectSince cfg s before →
      EffectSince cfg s (before ++ [.task t]) := fun hstate hsince => hsince.append hstate
  rw [run_append_singleton] at hdark ⊢
  generalize hnow : run cfg before s = now at h hdark hextends ⊢
  rcases hstate : now.taskState
  · have hextends := hextends (by simp [hstate])
    rw [Call.apply, rgbMatrixTask_starting hstate]
    exact ⟨(fun hstate => by cases hstate), fun hlast hleds => hextends (h.none hlast hleds)⟩
  · have hextends := hextends (by simp [hstate])
    rw [Call.apply, rgbMatrixTask_rendering hstate]
    by_cases heffect : now.effect t = 0
    · have hleds := @rgbTaskRender_none_leds cfg (rgbTaskTimers t.now now)
      have hnext := @rgbTaskRender_none_taskState cfg (rgbTaskTimers t.now now)
      simp only [heffect, ne_eq, not_true_eq_false, if_false]
      constructor
      · intro hflushing hne
        rw [hleds] at hne
        rw [hnext] at hflushing
        split_ifs at hne hflushing with hinit <;> simp_all
      · intro hlast hne
        rw [hleds] at hne
        split_ifs at hne with hskips
        · exact hextends (h.none hlast hne)
        · exact absurd rfl hne
    · have hsince : EffectSince cfg s (before ++ [.task t]) :=
        effectSince_of_renders (hnow ▸ ⟨hstate, heffect⟩)
      exact ⟨fun _ _ => ⟨hsince, effect_ne_zero heffect⟩, fun _ _ => hsince⟩
  · rw [Call.apply, rgbMatrixTask_flushing hstate] at hdark ⊢
    exact ⟨(fun hstate => by cases hstate), fun hlast hleds => absurd (hdark hlast) hleds⟩
  · have hextends := hextends (by simp [hstate])
    rw [Call.apply, rgbMatrixTask_syncing hstate, rgbTaskSync]
    split_ifs
    · exact ⟨(fun hstate => by cases hstate), fun hlast hleds => hextends (h.none hlast hleds)⟩
    · exact ⟨fun hflushing => absurd (hstate.symm.trans hflushing) TaskState.noConfusion,
        fun hlast hleds => hextends (h.none hlast hleds)⟩

theorem setSuspendState_of_flushes {state : Bool} (h : (Call.suspend state).Flushes cfg s) :
    rgbMatrixSetSuspendState cfg state s =
      { rgbTaskFlush 0 (rgbTaskRender cfg 0 s) with suspendState := true } := by
  obtain ⟨hsleep, rfl, hawake⟩ := h
  simp only [rgbMatrixSetSuspendState, hsleep, hawake, Bool.not_false, Bool.and_self, if_true]

theorem setSuspendState_of_not_flushes {state : Bool}
    (h : ¬(Call.suspend state).Flushes cfg s) :
    ∃ suspendState, rgbMatrixSetSuspendState cfg state s = { s with suspendState } ∧
      (s.suspendState = false → suspendState = false) := by
  unfold rgbMatrixSetSuspendState
  by_cases hsleep : cfg.sleep = true
  · have hkeeps : (state && !s.suspendState) = false := by
      rw [← Bool.not_eq_true]
      intro hboth
      simp only [Bool.and_eq_true, Bool.not_eq_true'] at hboth
      exact h ⟨hsleep, hboth⟩
    rw [if_pos hsleep, hkeeps]
    refine ⟨state, rfl, fun hawake => ?_⟩
    simpa [hawake] using hkeeps
  · rw [if_neg hsleep]
    exact ⟨s.suspendState, rfl, id⟩

theorem Tracked.suspend {state : Bool} (h : Tracked cfg s before (run cfg before s))
    (hdark : Dark (run cfg (before ++ [.suspend state]) s)) :
    Tracked cfg s (before ++ [.suspend state]) (run cfg (before ++ [.suspend state]) s) := by
  by_cases hflush : (Call.suspend state).Flushes cfg (run cfg before s)
  · rw [run_append_singleton, Call.apply, setSuspendState_of_flushes hflush] at hdark ⊢
    exact ⟨(fun hstate => by cases hstate), fun hlast hleds => absurd (hdark hlast) hleds⟩
  · obtain ⟨suspendState, heq, hawake⟩ := setSuspendState_of_not_flushes hflush
    rw [run_append_singleton, Call.apply, heq]
    refine ⟨fun hstate hleds => ?_, fun hlast hleds => (h.none hlast hleds).append hflush⟩
    obtain ⟨hsince, hfalse, hon⟩ := h.flushing hstate hleds
    exact ⟨hsince.append hflush, hawake hfalse, hon⟩

theorem Tracked.append (h : Tracked cfg s before (run cfg before s))
    (hdark : Dark (run cfg (before ++ [c]) s)) :
    Tracked cfg s (before ++ [c]) (run cfg (before ++ [c]) s) := by
  cases c with
  | task t => exact h.task hdark
  | suspend state => exact h.suspend hdark
  | _ =>
    rw [run_append_singleton]
    exact h.leaves (leaves_apply rfl fun state heq => by cases heq) fun hsince => hsince.append id

/-- A call keeps the LEDs black after no effect, unless it catches the LEDs of one. -/
theorem dark_append (h : Tracked cfg s before (run cfg before s))
    (hdark : Dark (run cfg before s)) :
    Dark (run cfg (before ++ [c]) s) ↔ ¬Caught cfg s before c := by
  rw [run_append_singleton]
  cases c with
  | task t =>
    rcases hstate : (run cfg before s).taskState
    · refine iff_of_true ?_ fun hcaught => absurd (hstate.symm.trans hcaught.2.2.1) (by decide)
      rw [Call.apply, rgbMatrixTask_starting hstate]
      exact hdark
    · refine iff_of_true ?_ fun hcaught => absurd (hstate.symm.trans hcaught.2.2.1) (by decide)
      rw [Call.apply, rgbMatrixTask_rendering hstate]
      exact hdark
    · rw [Call.apply, rgbMatrixTask_flushing hstate]
      constructor
      · rintro hnext ⟨-, hleds, -, hidle⟩
        have heffect : (run cfg before s).effect t = 0 := by simp [State.effect, hidle]
        exact hleds (hnext (congrArg some heffect))
      · intro hcaught heffect
        by_contra hleds
        obtain ⟨hsince, hawake, hon, hmode⟩ := h.flushing hstate hleds
        refine hcaught ⟨hsince, hleds, hstate, ?_⟩
        by_contra hidle
        refine hmode ?_
        have hzero : (run cfg before s).effect t = 0 := Option.some_inj.mp heffect
        simpa [State.effect, hawake, hon, hidle] using hzero
    · refine iff_of_true ?_ fun hcaught => absurd (hstate.symm.trans hcaught.2.2.1) (by decide)
      rw [Call.apply, rgbMatrixTask_syncing hstate, rgbTaskSync]
      split_ifs <;> exact hdark
  | suspend state =>
    by_cases hflush : (Call.suspend state).Flushes cfg (run cfg before s)
    · have hshown : Dark (rgbMatrixSetSuspendState cfg state (run cfg before s)) ↔
          (rgbTaskRender cfg 0 (run cfg before s)).leds = setColorAll black := by
        rw [setSuspendState_of_flushes hflush]
        exact forall_prop_of_true rfl
      rw [Call.apply, hshown, rgbTaskRender_none_leds]
      split_ifs with hskips
      · constructor
        · rintro hblack ⟨-, hleds, -⟩
          exact hleds hblack
        · intro hcaught
          by_contra hleds
          have hsince := h.none (lastEffect_of_not_isInit hskips.1) hleds
          exact hcaught ⟨hsince, hleds, hflush, hskips⟩
      · exact iff_of_true rfl fun hcaught => hskips hcaught.2.2.2
    · obtain ⟨suspendState, heq, -⟩ := setSuspendState_of_not_flushes hflush
      refine iff_of_true ?_ fun hcaught => hflush hcaught.2.2.1
      rw [Call.apply, heq]
      exact hdark
  | _ =>
    refine iff_of_true (Leaves.dark (leaves_apply rfl ?_) hdark) fun hcaught => hcaught.2.2
    exact fun state h => by cases h

theorem tracked_run (hboot : s.Boot)
    (hdark : ∀ earlier, earlier <+: before → Dark (run cfg earlier s)) :
    Tracked cfg s before (run cfg before s) := by
  induction before using List.reverseRecOn with
  | nil =>
    refine ⟨fun hstate => absurd (hboot.taskState.symm.trans hstate) (by decide), fun hlast => ?_⟩
    exact absurd (hboot.lastEffect.symm.trans hlast) (by decide)
  | append_singleton before c ih =>
    refine (ih fun earlier hpre => ?_).append (hdark _ (List.prefix_refl _))
    exact hdark _ (hpre.trans (List.prefix_append ..))

/-- In a run, the LEDs are black whenever no effect has been flushed last, as long as no call
catches the LEDs of an effect. -/
theorem dark_run (hboot : s.Boot) :
    (∀ before, before <+: calls → Dark (run cfg before s)) ↔
      ∀ before c, before ++ [c] <+: calls → ¬Caught cfg s before c := by
  constructor
  · intro hdark before c hpre
    have hbefore := (List.prefix_append before [c]).trans hpre
    have htracked := tracked_run hboot fun earlier h => hdark earlier (h.trans hbefore)
    exact (dark_append htracked (hdark _ hbefore)).1 (hdark _ hpre)
  · intro hcaught
    have hall : ∀ before, before <+: calls → ∀ earlier, earlier <+: before →
        Dark (run cfg earlier s) := by
      intro before
      induction before using List.reverseRecOn with
      | nil =>
        intro _ earlier hearlier hlast
        rw [List.prefix_nil.mp hearlier] at hlast
        exact absurd (hboot.lastEffect.symm.trans hlast) (by decide)
      | append_singleton before c ih =>
        intro hpre earlier hearlier
        have hbefore := ih ((List.prefix_append ..).trans hpre)
        rcases List.prefix_concat_iff.mp hearlier with rfl | hearlier
        · exact (dark_append (tracked_run hboot hbefore) (hbefore _ (List.prefix_refl _))).2
            (hcaught _ _ hpre)
        · exact hbefore earlier hearlier
    exact fun before hpre => hall before hpre before (List.prefix_refl _)

/-- The timeout comes with the flush. -/
theorem dark_run_timeout :
    let calls : List Call := [.task ⟨20, false, id⟩, .task ⟨21, false, id⟩, .task ⟨22, false, id⟩,
      .task ⟨23, false, id⟩, .task ⟨24, true, id⟩]
    ¬∀ before, before <+: calls → Dark (run threeOfFive before .on) := by
  intro calls
  rw [dark_run ⟨rfl, rfl⟩]
  intro hcaught
  have hsince : EffectSince threeOfFive .on (calls.take 4) :=
    ⟨calls.take 3, .task ⟨23, false, id⟩, [], rfl, ⟨rfl, by decide⟩, by simp⟩
  refine hcaught (calls.take 4) (.task ⟨24, true, id⟩) (List.prefix_refl _)
    ⟨hsince, fun h => ?_, rfl, rfl⟩
  exact absurd (congrFun h 1) (by decide)

end Runs

section Off

/-- The LEDs are off in the state, and no call switches them. -/
def Call.Off (s : State) : Call → Prop
  | .task t => s.effect t = 0
  | .keyEvent _ | .sethsv _ | .setSpeed _ | .setFlags _ => True
  | _ => False

/-- Nothing is left to flush while the LEDs are off. -/
def Settled (shown : Leds) (s : State) : Prop :=
  s.isInit 0 = false ∧ s.taskState ≠ .flushing ∧ s.shown = shown

/-- The state after some calls of the task, from the start of a frame with the LEDs off. -/
structure OffFor (s : State) (n : ℕ) (s' : State) : Prop where
  effect (t : Tick) : s'.effect t = s.effect t
  step : (n = 0 ∧ s'.taskState = .starting ∧ s'.isInit 0 = s.isInit 0 ∧ s'.shown = s.shown) ∨
    (n = 1 ∧ s'.taskState = .rendering ∧ s'.isInit 0 = s.isInit 0 ∧ s'.shown = s.shown) ∨
    (n = 2 ∧ s'.taskState = .flushing ∧ s.isInit 0 = true ∧ s'.leds = setColorAll black) ∨
    (2 ≤ n ∧ Settled (if s.isInit 0 then setColorAll black else s.shown) s')

variable {s' : State} {n : ℕ} {t : Tick}

theorem isInit_task_of_ne (cfg : Build) (t : Tick) (effect : ℕ) (hstate : s.taskState ≠ .flushing) :
    (rgbMatrixTask cfg t s).isInit effect = s.isInit effect ∧
      (rgbMatrixTask cfg t s).shown = s.shown := by
  rcases h : s.taskState
  · rw [rgbMatrixTask_starting h]
    exact ⟨rfl, rfl⟩
  · rw [rgbMatrixTask_rendering h]
    exact ⟨rfl, rfl⟩
  · exact absurd h hstate
  · rw [rgbMatrixTask_syncing h, rgbTaskSync]
    split_ifs <;> exact ⟨rfl, rfl⟩

theorem Settled.task {shown : Leds} (h : Settled shown s) (heffect : s.effect t = 0) :
    Settled shown (rgbMatrixTask cfg t s) := by
  obtain ⟨hinit, hstate, hshown⟩ := h
  obtain ⟨hinit', hshown'⟩ := isInit_task_of_ne cfg t 0 hstate
  refine ⟨hinit'.trans hinit, ?_, hshown'.trans hshown⟩
  rcases hs : s.taskState
  · rw [rgbMatrixTask_starting hs]
    exact TaskState.noConfusion
  · rw [rgbMatrixTask_rendering hs, heffect]
    have hnext := @rgbTaskRender_none_taskState cfg (rgbTaskTimers t.now s)
    have hinit'' : (rgbTaskTimers t.now s).isInit 0 = false := hinit
    rw [hinit''] at hnext
    simp [hnext]
  · exact absurd hs hstate
  · rw [rgbMatrixTask_syncing hs, rgbTaskSync]
    split_ifs
    · exact TaskState.noConfusion
    · simp [rgbTaskTimers, hs]

theorem OffFor.task (h : OffFor s n s') (hoff : s.effect t = 0) :
    OffFor s (n + 1) (rgbMatrixTask cfg t s') where
  effect t := by
    rw [← h.effect, State.effect, State.effect, rgbMatrixTask_config, rgbMatrixTask_suspendState]
  step := by
    have heffect := (h.effect t).trans hoff
    rcases h.step with ⟨rfl, hstate, hinit, hshown⟩ | ⟨rfl, hstate, hinit, hshown⟩ |
      ⟨rfl, hstate, hinit, hleds⟩ | ⟨hn, hsettled⟩
    · obtain ⟨hinit', hshown'⟩ := isInit_task_of_ne (s := s') cfg t 0 (by simp [hstate])
      refine .inr (.inl ⟨rfl, ?_, hinit'.trans hinit, hshown'.trans hshown⟩)
      rw [rgbMatrixTask_starting hstate]
      rfl
    · have hleds := @rgbTaskRender_none_leds cfg (rgbTaskTimers t.now s')
      have hnext := @rgbTaskRender_none_taskState cfg (rgbTaskTimers t.now s')
      have hinit' : (rgbTaskTimers t.now s').isInit 0 = s.isInit 0 := hinit
      rw [hinit'] at hleds hnext
      rw [rgbMatrixTask_rendering hstate, heffect]
      cases hs : s.isInit 0
      · rw [hs, if_neg Bool.false_ne_true] at hnext
        refine .inr (.inr (.inr ⟨Nat.le_refl 2, hinit.trans hs, ?_, hshown⟩))
        simp [hnext]
      · rw [hs, if_pos rfl] at hnext
        rw [hs, if_neg (by simp)] at hleds
        exact .inr (.inr (.inl ⟨rfl, hnext, rfl, hleds⟩))
    · rw [rgbMatrixTask_flushing hstate, heffect, hinit, if_pos rfl]
      refine .inr (.inr (.inr ⟨by decide, ?_, TaskState.noConfusion, hleds⟩))
      simp [State.isInit, rgbTaskFlush]
    · exact .inr (.inr (.inr ⟨by omega, hsettled.task heffect⟩))

theorem offFor_run (hstate : s.taskState = .starting) (hoff : ∀ c ∈ calls, c.Off s) :
    OffFor s (calls.countP Call.isTask) (run cfg calls s) := by
  induction calls using List.reverseRecOn with
  | nil => exact ⟨fun _ => rfl, .inl ⟨rfl, hstate, rfl, rfl⟩⟩
  | append_singleton calls c ih =>
    rw [List.forall_mem_append, List.forall_mem_singleton] at hoff
    have h := ih hoff.1
    rw [run_append_singleton, List.countP_append]
    cases c with
    | task t => exact h.task hoff.2
    | keyEvent led => exact ⟨h.effect, h.step⟩
    | setSpeed speed => exact ⟨h.effect, h.step⟩
    | setFlags flags => exact ⟨h.effect, h.step⟩
    | sethsv hsv =>
      simp only [Call.apply, rgbMatrixSethsv]
      split_ifs <;> exact ⟨h.effect, h.step⟩
    | _ => exact hoff.2.elim

/-- With the LEDs off, three calls of the task settle what is shown: black, if the last flush has
been one of an effect or the LEDs have been switched since, and what has been shown, if not. -/
theorem off_shown (hstate : s.taskState = .starting) (hoff : ∀ c ∈ calls, c.Off s)
    (hlong : 3 ≤ calls.countP Call.isTask) :
    (run cfg calls s).shown = if s.isInit 0 then setColorAll black else s.shown := by
  rcases (offFor_run hstate hoff).step with h | h | h | ⟨-, -, -, hshown⟩
  · omega
  · omega
  · omega
  · exact hshown

/-- After a timeout that came with the flush, the LEDs show the effect. -/
theorem off_shown_timeout :
    let caught : State := { State.on with
      taskState := .starting, lastEnable := some true, lastEffect := some 0
      shown := fun _ => ⟨21, 0, 1⟩ }
    (run threeOfFive [.task ⟨41, true, id⟩, .setSpeed 9, .task ⟨42, true, id⟩, .task ⟨43, true, id⟩]
      caught).shown = fun _ => ⟨21, 0, 1⟩ :=
  off_shown rfl (by simp [Call.Off, State.effect]) (by decide)

/-- The call does not turn the LEDs on. -/
def Call.KeepsOff : Call → Prop
  | .toggle | .enable => False
  | .reload stored => stored.enable = false
  | _ => True

/-- The state after some calls of the task, since the LEDs have been disabled. -/
def Fades (n : ℕ) (s : State) : Prop :=
  s.config.enable = false ∧ (s.lastEffect = some 0 ∨ n = 0 ∧ s.taskState = .starting ∨
    n = 1 ∧ s.taskState = .rendering ∨ n = 2 ∧ s.taskState = .flushing)

theorem effect_of_disabled (h : s.config.enable = false) (t : Tick) : s.effect t = 0 := by
  simp [State.effect, h]

theorem Fades.task (h : Fades n s) : Fades (n + 1) (rgbMatrixTask cfg t s) := by
  obtain ⟨hoff, hphase⟩ := h
  have heffect := effect_of_disabled hoff t
  refine ⟨by rw [rgbMatrixTask_config, hoff], ?_⟩
  rcases hstate : s.taskState
  · rw [rgbMatrixTask_starting hstate]
    rcases hphase with hlast | ⟨rfl, -⟩ | ⟨-, h⟩ | ⟨-, h⟩
    · exact .inl hlast
    · exact .inr (.inr (.inl ⟨rfl, rfl⟩))
    · exact absurd (hstate.symm.trans h) (by decide)
    · exact absurd (hstate.symm.trans h) (by decide)
  · rw [rgbMatrixTask_rendering hstate, heffect]
    have hnext := @rgbTaskRender_none_taskState cfg (rgbTaskTimers t.now s)
    rcases hphase with hlast | ⟨-, h⟩ | ⟨rfl, -⟩ | ⟨-, h⟩
    · exact .inl hlast
    · exact absurd (hstate.symm.trans h) (by decide)
    · cases hinit : (rgbTaskTimers t.now s).isInit 0
      · exact .inl (lastEffect_of_not_isInit hinit)
      · rw [hinit, if_pos rfl] at hnext
        exact .inr (.inr (.inr ⟨rfl, hnext⟩))
    · exact absurd (hstate.symm.trans h) (by decide)
  · rw [rgbMatrixTask_flushing hstate, heffect]
    exact .inl rfl
  · rw [rgbMatrixTask_syncing hstate, rgbTaskSync]
    rcases hphase with hlast | ⟨-, h⟩ | ⟨-, h⟩ | ⟨-, h⟩
    · left
      split_ifs <;> exact hlast
    all_goals exact absurd (hstate.symm.trans h) (by decide)

theorem Fades.keep (h : Fades n s) (hkeeps : c.KeepsOff) (htask : c.isTask = false) :
    Fades n (c.apply cfg s) := by
  obtain ⟨hoff, hphase⟩ := h
  have hmode : ∀ mode, Fades n (rgbMatrixMode cfg mode s) := by
    intro mode
    have hsame : rgbMatrixMode cfg mode s = s := if_pos (by simp [hoff])
    rw [hsame]
    exact ⟨hoff, hphase⟩
  cases c with
  | task t => cases htask
  | toggle => exact hkeeps.elim
  | enable => exact hkeeps.elim
  | disable => exact ⟨rfl, by simpa [Call.apply, rgbMatrixDisable, hoff] using hphase⟩
  | mode mode => exact hmode mode
  | step => exact hmode _
  | stepReverse => exact hmode _
  | sethsv hsv =>
    have hsame : rgbMatrixSethsv cfg hsv s = s := if_pos (by simp [hoff])
    rw [Call.apply, hsame]
    exact ⟨hoff, hphase⟩
  | setSpeed speed => exact ⟨hoff, hphase⟩
  | setFlags flags => exact ⟨hoff, hphase⟩
  | keyEvent led => exact ⟨hoff, hphase⟩
  | suspend state =>
    rw [Call.apply]
    by_cases hflush : (Call.suspend state).Flushes cfg s
    · rw [setSuspendState_of_flushes hflush]
      exact ⟨hoff, .inl rfl⟩
    · obtain ⟨suspendState, heq, -⟩ := setSuspendState_of_not_flushes hflush
      rw [heq]
      exact ⟨hoff, hphase⟩
  | reload stored =>
    have hstored : stored.enable = false := hkeeps
    simp only [Call.apply, rgbMatrixReload, hstored, Bool.false_eq_true, if_false]
    exact ⟨hstored, by simpa [rgbMatrixDisable, hoff] using hphase⟩

theorem fades_run {rest : List Call} (h : Fades 0 s) (hkeeps : ∀ c ∈ rest, c.KeepsOff) :
    Fades (rest.countP Call.isTask) (run cfg rest s) := by
  induction rest using List.reverseRecOn with
  | nil => exact h
  | append_singleton rest c ih =>
    rw [List.forall_mem_append, List.forall_mem_singleton] at hkeeps
    have hrest := ih hkeeps.1
    rw [run_append_singleton, List.countP_append]
    cases htask : c.isTask
    · simpa [List.countP_cons, htask] using hrest.keep hkeeps.2 htask
    · cases c with
      | task t => exact hrest.task
      | _ => cases htask

/-- If no call catches the LEDs of an effect, they are black three calls of the task after they have
been disabled, until they are enabled. -/
theorem lights_out {rest : List Call} (hboot : s.Boot)
    (hcaught : ∀ before c, before ++ [c] <+: calls ++ .disable :: rest → ¬Caught cfg s before c)
    (hon : (run cfg calls s).config.enable = true) (hkeeps : ∀ c ∈ rest, c.KeepsOff)
    (hlong : 3 ≤ rest.countP Call.isTask) :
    (run cfg (calls ++ .disable :: rest) s).shown = setColorAll black := by
  have hdark := (dark_run hboot).2 hcaught _ (List.prefix_refl _)
  have hsplit : run cfg (calls ++ .disable :: rest) s =
      run cfg rest (run cfg (calls ++ [.disable]) s) := by
    simp only [run, List.foldl_append, List.foldl_cons, List.foldl_nil]
  have hstart : Fades 0 (run cfg (calls ++ [.disable]) s) := by
    rw [run_append_singleton]
    exact ⟨rfl, .inr (.inl ⟨rfl, if_pos hon⟩)⟩
  rw [hsplit] at hdark ⊢
  rcases (fades_run hstart hkeeps).2 with hlast | ⟨h, -⟩ | ⟨h, -⟩ | ⟨h, -⟩
  · exact hdark hlast
  all_goals omega

theorem lights_out_threeOfFive :
    (run threeOfFive ([.task ⟨20, false, id⟩] ++ .disable :: [.task ⟨21, false, id⟩,
      .task ⟨22, false, id⟩, .suspend true, .task ⟨23, false, id⟩]) .on).shown 1 = black := by
  refine congrFun (lights_out ⟨rfl, rfl⟩ (fun before c hbefore hcaught => ?_) rfl
    (by simp [Call.KeepsOff]) (by decide)) 1
  have hinit : (run threeOfFive [.task ⟨20, false, id⟩, .disable, .task ⟨21, false, id⟩,
      .task ⟨22, false, id⟩] .on).isInit 0 = true := by
    decide
  rcases before with _ | ⟨_, _ | ⟨_, _ | ⟨_, _ | ⟨_, _ | ⟨_, _ | ⟨_, before⟩⟩⟩⟩⟩⟩ <;>
    simp only [List.nil_append, List.cons_append, List.cons_prefix_cons] at hbefore
  · obtain ⟨rfl, -⟩ := hbefore
    exact Bool.false_ne_true hcaught.2.2.2
  · obtain ⟨rfl, rfl, -⟩ := hbefore
    exact hcaught.2.2
  · obtain ⟨rfl, rfl, rfl, -⟩ := hbefore
    exact Bool.false_ne_true hcaught.2.2.2
  · obtain ⟨rfl, rfl, rfl, rfl, -⟩ := hbefore
    exact Bool.false_ne_true hcaught.2.2.2
  · obtain ⟨rfl, rfl, rfl, rfl, rfl, -⟩ := hbefore
    exact Bool.false_ne_true (hcaught.2.2.2.1.symm.trans hinit)
  · obtain ⟨rfl, rfl, rfl, rfl, rfl, rfl, -⟩ := hbefore
    exact Bool.false_ne_true hcaught.2.2.2
  · simp at hbefore

end Off

end Qmk.RgbMatrix
