import Qmk.AutoMouse.Tracker

/-! # The clock of the auto mouse

A task is skipped soon after a stamp. A stamp of `0` stands for no stamp, yet it is compared like
the others, so tasks are skipped whenever the clock has just wrapped around.
-/

namespace Qmk.AutoMouse

open MouseKeys (Report timerElapsed)

variable {κ : Type*} {w : ℕ}

section Times

def Call.time? : Call κ w → Option ℕ
  | .key _ now => some now
  | .task _ now => some now
  | .layers _ _ => none

/-- The clock does not run backwards. -/
def InOrder (calls : List (Call κ w)) : Prop := (calls.filterMap Call.time?).Pairwise (· ≤ ·)

instance (calls : List (Call κ w)) : Decidable (InOrder calls) := by
  unfold InOrder
  infer_instance

/-- A stamp makes a task at the time `now` be skipped, although nothing has happened for longer than
`limit`: the clock has wrapped around. -/
def Stamp.Blocks (limit now : ℕ) : Stamp → Prop
  | .zero => now % 2 ^ 16 ≤ limit
  | .readAt t => 2 ^ 16 ≤ now - t ∧ (now - t) % 2 ^ 16 ≤ limit

instance (limit now : ℕ) : ∀ stamp : Stamp, Decidable (stamp.Blocks limit now)
  | .zero => inferInstanceAs (Decidable (_ ≤ _))
  | .readAt _ => inferInstanceAs (Decidable (_ ∧ _))

theorem timerElapsed_zero (now : ℕ) : timerElapsed now Stamp.zero.value = now % 2 ^ 16 := by
  simp only [timerElapsed, Stamp.value]
  omega

theorem timerElapsed_readAt {t now : ℕ} (h : t ≤ now) :
    timerElapsed now (Stamp.readAt t).value = (now - t) % 2 ^ 16 := by
  simp only [timerElapsed, Stamp.value]
  omega

/-- When the last read of a running timer is longer ago than `limit`, the task is skipped exactly
if the stamp blocks it. -/
theorem timerElapsed_le_iff {stamp : Stamp} {limit now : ℕ}
    (h : ∀ t, stamp = .readAt t → t ≤ now ∧ limit < now - t) :
    timerElapsed now stamp.value ≤ limit ↔ stamp.Blocks limit now := by
  match stamp, h with
  | .zero, _ => rw [timerElapsed_zero, Stamp.Blocks]
  | .readAt t, h =>
    obtain ⟨hle, hlimit⟩ := h t rfl
    rw [timerElapsed_readAt hle, Stamp.Blocks]
    constructor
    · intro helapsed
      refine ⟨?_, helapsed⟩
      by_contra hshort
      rw [Nat.mod_eq_of_lt (not_le.mp hshort)] at helapsed
      omega
    · exact And.right

end Times

section Stamps

variable {c : Config w} {s s' : State w} {last now : ℕ}

/-- A running timer has been read at a refresh or at a trigger, and not in the future. -/
structure Stamped (now : ℕ) (s : State w) : Prop where
  active : ∀ t, s.active = .readAt t → .refresh t ∈ s.effects
  delay : ∀ t, s.delay = .readAt t → .resetTrigger t ∈ s.effects
  refresh_le : ∀ t, .refresh t ∈ s.effects → t ≤ now
  resetTrigger_le : ∀ t, .resetTrigger t ∈ s.effects → t ≤ now

/-- What a call at the time `now` does to the stamps. -/
structure Advances (now : ℕ) (s s' : State w) (new : List Effect) : Prop where
  effects : s'.effects = s.effects ++ new
  refresh_eq : ∀ t, .refresh t ∈ new → t = now
  resetTrigger_eq : ∀ t, .resetTrigger t ∈ new → t = now
  active : ∀ t, s'.active = .readAt t → s.active = .readAt t ∨ .refresh t ∈ new
  delay : ∀ t, s'.delay = .readAt t → s.delay = .readAt t ∨ .resetTrigger t ∈ new

theorem Stamped.advance {new : List Effect} (h : Stamped last s) (hle : last ≤ now)
    (hadvances : Advances now s s' new) : Stamped now s' where
  active := by
    intro t ht
    rw [hadvances.effects, List.mem_append]
    exact (hadvances.active t ht).imp_left (h.active t)
  delay := by
    intro t ht
    rw [hadvances.effects, List.mem_append]
    exact (hadvances.delay t ht).imp_left (h.delay t)
  refresh_le := by
    intro t ht
    rw [hadvances.effects, List.mem_append] at ht
    rcases ht with ht | ht
    · exact (h.refresh_le t ht).trans hle
    · exact (hadvances.refresh_eq t ht).le
  resetTrigger_le := by
    intro t ht
    rw [hadvances.effects, List.mem_append] at ht
    rcases ht with ht | ht
    · exact (h.resetTrigger_le t ht).trans hle
    · exact (hadvances.resetTrigger_eq t ht).le

theorem advances_kept (heffects : s'.effects = s.effects) (hactive : s'.active = s.active)
    (hdelay : s'.delay = s.delay ∨ s'.delay = .zero) : Advances now s s' [] where
  effects := by rw [heffects, List.append_nil]
  refresh_eq := fun _ h => absurd h List.not_mem_nil
  resetTrigger_eq := fun _ h => absurd h List.not_mem_nil
  active := fun _ h => Or.inl (hactive.symm.trans h)
  delay := by
    intro t ht
    rcases hdelay with h | h
    · exact Or.inl (h.symm.trans ht)
    · exact absurd (h.symm.trans ht) (by simp)

theorem advances_resetTrigger (c : Config w) (s : State w) (pressed : Bool) (now : ℕ) :
    ∃ new, Advances now s (autoMouseResetTrigger c s pressed now) new := by
  unfold autoMouseResetTrigger
  cases pressed with
  | false =>
    exact ⟨[.resetTrigger now], rfl, by simp, by simp, fun t h => Or.inl h,
      fun t h => Or.inr (by simpa [eq_comm] using h)⟩
  | true =>
    by_cases hon : TargetOn c s
    · refine ⟨[.layerOff c.layer, .resetTrigger now], ?_, by simp, by simp, ?_,
        fun t h => Or.inr (by simpa [eq_comm] using h)⟩
      · simp [autoMouseReset, State.layerOff, hon]
      · simp [autoMouseReset]
    · refine ⟨[.resetTrigger now], ?_, by simp, by simp, ?_,
        fun t h => Or.inr (by simpa [eq_comm] using h)⟩
      · simp [autoMouseReset, hon]
      · simp [autoMouseReset]

theorem advances_processCases (c : Config w) (s : State w) (keycode : UInt16) (record : Keyrecord)
    (now : ℕ) : ∃ new, Advances now s (processCases c s keycode record now) new := by
  have hkept : ∀ s' : State w, s'.effects = s.effects → s'.active = s.active →
      (s'.delay = s.delay ∨ s'.delay = .zero) → ∃ new, Advances now s s' new :=
    fun s' heffects hactive hdelay => ⟨[], advances_kept heffects hactive hdelay⟩
  have hsame := hkept s rfl rfl (Or.inl rfl)
  have hkeyevent := hkept (autoMouseKeyevent s record.pressed) rfl rfl (Or.inr rfl)
  obtain hs | hs | hs | hs | hs := @processCases_cases _ c s _ keycode record now rfl
  all_goals rw [hs]
  · exact hsame
  · exact hkept _ rfl rfl (Or.inr rfl)
  · exact hkeyevent
  · unfold processTapToggle
    split_ifs <;> exact hkept _ rfl rfl (Or.inr rfl)
  · unfold processDefault
    split_ifs
    · exact hsame
    · exact hkeyevent
    · exact advances_resetTrigger c s record.pressed now
    · exact hsame

theorem advances_processAutoMouse (c : Config w) (s : State w) (keycode : UInt16)
    (record : Keyrecord) (now : ℕ) :
    ∃ new, Advances now s (processAutoMouse c s keycode record now) new := by
  unfold processAutoMouse
  dsimp only
  obtain ⟨new, h⟩ := advances_processCases c s keycode record now
  split_ifs
  · exact ⟨new, h.effects, h.refresh_eq, h.resetTrigger_eq, h.active, h.delay⟩
  · exact ⟨new, h⟩
  · exact ⟨[], advances_kept rfl rfl (Or.inl rfl)⟩

theorem advances_refresh (c : Config w) (s : State w) (now : ℕ) :
    ∃ new, Advances now s (refresh c s now) new := by
  unfold refresh
  dsimp only
  split_ifs
  · exact ⟨[.refresh now], rfl, by simp, by simp, fun t h => Or.inr (by simpa [eq_comm] using h),
      by simp⟩
  · exact ⟨[.refresh now, .layerOn c.layer], by simp [State.layerOn], by simp, by simp,
      fun t h => Or.inr (by simpa [State.layerOn, eq_comm] using h), by simp [State.layerOn]⟩

theorem advances_task (c : Config w) (s : State w) (r : Report) (now : ℕ) :
    ∃ new, Advances now s (pointingDeviceTaskAutoMouse c s r now) new := by
  unfold pointingDeviceTaskAutoMouse updateAutoMouse
  dsimp only
  split_ifs
  · exact ⟨[], advances_kept rfl rfl (Or.inl rfl)⟩
  · obtain ⟨new, h⟩ := advances_refresh c (activate c s r) now
    exact ⟨new, h.effects, h.refresh_eq, h.resetTrigger_eq, h.active, h.delay⟩
  · exact ⟨[.layerOff c.layer], rfl, by simp, by simp, by simp [expire],
      fun t h => Or.inl h⟩
  · exact ⟨[], advances_kept rfl rfl (Or.inl rfl)⟩

end Stamps

section Runs

variable {c : Config w} {calls : List (Call κ w)}

theorem inOrder_append {call : Call κ w} (h : InOrder (calls ++ [call])) :
    InOrder calls ∧ ∀ now, call.time? = some now →
      ∀ t ∈ calls.filterMap Call.time?, t ≤ now := by
  unfold InOrder at h ⊢
  rw [List.filterMap_append, List.pairwise_append] at h
  refine ⟨h.1, fun now hnow t ht => h.2.2 t ht now ?_⟩
  simp [hnow]

theorem stamped_run (horder : InOrder calls) {now : ℕ}
    (hlast : ∀ t ∈ calls.filterMap Call.time?, t ≤ now) : Stamped now (run c calls) := by
  induction calls using List.reverseRecOn generalizing now with
  | nil => exact ⟨by simp [run], by simp [run], by simp [run], by simp [run]⟩
  | append_singleton calls call ih =>
    obtain ⟨hcalls, htime⟩ := inOrder_append horder
    rw [List.filterMap_append] at hlast
    have hadvance : ∀ at', call.time? = some at' → (∃ new, Advances at' (run c calls)
        (step c (run c calls) call) new) → Stamped now (run c (calls ++ [call])) := by
      rintro at' hat ⟨new, h⟩
      have hle : at' ≤ now := hlast at' (List.mem_append_right _ (by simp [hat]))
      have hstamped := (ih hcalls (htime at' hat)).advance le_rfl h
      rw [run_append]
      exact ⟨hstamped.active, hstamped.delay, fun t ht => (hstamped.refresh_le t ht).trans hle,
        fun t ht => (hstamped.resetTrigger_le t ht).trans hle⟩
    cases call with
    | key e at' => exact hadvance at' rfl (advances_processAutoMouse c _ _ _ at')
    | task r at' => exact hadvance at' rfl (advances_task c _ r at')
    | layers layerState oneshotLayer =>
      have hstamped := ih hcalls fun t ht => hlast t (List.mem_append_left _ ht)
      rw [run_append]
      exact ⟨hstamped.active, hstamped.delay, hstamped.refresh_le, hstamped.resetTrigger_le⟩

theorem targetOn_layerOn (hlayer : c.layer < w) (s : State w) : TargetOn c (s.layerOn c) := by
  have hbit : (Qmk.layerOn c.layer s.layerState).getLsbD c.layer = true := by
    simp [getLsbD_layerOn, hlayer]
  have hmask : (Qmk.layerOn c.layer s.layerState &&& bitMask w c.layer).getLsbD c.layer = true := by
    rw [BitVec.getLsbD_and, hbit, getLsbD_layerMask]
    simp [hlayer]
  have hne : ∀ x : BitVec w, x.getLsbD c.layer = true → x ≠ 0 := by
    rintro x hx rfl
    exact Bool.false_ne_true (BitVec.getLsbD_zero.symm.trans hx)
  unfold TargetOn layerStateIs State.layerOn
  dsimp only
  rw [if_neg (hne _ hbit)]
  exact hne _ hmask

theorem targetOn_refresh (hlayer : c.layer < w) (s : State w) (now : ℕ) :
    TargetOn c (refresh c s now) := by
  unfold refresh
  dsimp only
  split_ifs with hon
  · exact hon
  · exact targetOn_layerOn hlayer _

theorem targetOn_updateAutoMouse (hlayer : c.layer < w) (s : State w) {r : Report}
    (hbuttons : r.buttons ≠ 0) (now : ℕ) : TargetOn c (updateAutoMouse c s r now) := by
  have hbutton : (r.buttons != 0) = true := bne_iff_ne.mpr hbuttons
  have hactive : isAutoMouseActive c (activate c s r) = true := by
    simp only [isAutoMouseActive, activate, autoMouseActivation, hbutton, Bool.or_true,
      Bool.true_or]
  unfold updateAutoMouse
  dsimp only
  rw [if_pos hactive]
  exact targetOn_refresh hlayer _ now

/-- Long after the last trigger and the last refresh, a task with a button leaves the layer on
exactly if it is on already or neither stamp blocks the task. -/
theorem targetOn_iff (c : Config w) (henabled : c.isEnabled) (hlayer : c.layer < w)
    (calls : List (Call κ w)) (r : Report) (now : ℕ) (horder : InOrder (calls ++ [.task r now]))
    (hbuttons : r.buttons ≠ 0)
    (htrigger : ∀ t, .resetTrigger t ∈ (run c calls).effects → c.delay < now - t)
    (hrefresh : ∀ t, .refresh t ∈ (run c calls).effects → c.debounce < now - t) :
    TargetOn c (run c (calls ++ [.task r now])) ↔
      TargetOn c (run c calls) ∨
        ¬ (run c calls).active.Blocks c.debounce now ∧
          ¬ (run c calls).delay.Blocks c.delay now := by
  obtain ⟨hcalls, htime⟩ := inOrder_append horder
  have hstamped := stamped_run (c := c) hcalls (htime now rfl)
  have hactive : timerElapsed now (run c calls).active.value ≤ c.debounce ↔
      (run c calls).active.Blocks c.debounce now := timerElapsed_le_iff fun t ht =>
    ⟨hstamped.refresh_le t (hstamped.active t ht), hrefresh t (hstamped.active t ht)⟩
  have hdelay : timerElapsed now (run c calls).delay.value ≤ c.delay ↔
      (run c calls).delay.Blocks c.delay now := timerElapsed_le_iff fun t ht =>
    ⟨hstamped.resetTrigger_le t (hstamped.delay t ht), htrigger t (hstamped.delay t ht)⟩
  rw [run_append, step, pointingDeviceTaskAutoMouse, ← hactive, ← hdelay]
  by_cases hskip : timerElapsed now (run c calls).active.value ≤ c.debounce ∨
      timerElapsed now (run c calls).delay.value ≤ c.delay
  · rw [if_pos (Or.inr hskip), ← not_or, or_iff_left (not_not.mpr hskip)]
  · rw [if_neg (by simp [henabled, hskip])]
    exact iff_of_true (targetOn_updateAutoMouse hlayer _ hbuttons now)
      (Or.inr (not_or.mp hskip))

end Runs

section Wrapped

def noMotion : Report := ⟨0, fun _ => 0⟩

def firstButton : Report := ⟨1, fun _ => 0⟩

def turnedOff : List (Call ℕ 16) := [.task firstButton 1000, .task noMotion 2000]

theorem effects_turnedOff : (run {} turnedOff).effects =
    [.refresh 1000, .layerOn 1, .layerOff 1] := by
  decide

theorem quiet_turnedOff :
    (∀ t, .resetTrigger t ∈ (run {} turnedOff).effects → 200 < 65600 - t) ∧
      ∀ t, .refresh t ∈ (run {} turnedOff).effects → 25 < 65600 - t := by
  rw [effects_turnedOff]
  constructor
  · simp
  · simp

theorem targetOn_iff_turnedOff :
    let c : Config 16 := {}
    TargetOn c (run c (turnedOff ++ [.task firstButton 65600])) ↔
      TargetOn c (run c turnedOff) ∨
        ¬ (run c turnedOff).active.Blocks c.debounce 65600 ∧
          ¬ (run c turnedOff).delay.Blocks c.delay 65600 :=
  targetOn_iff {} rfl (by decide) turnedOff firstButton 65600 (by decide) (by decide)
    quiet_turnedOff.1 quiet_turnedOff.2

/-- 64 ms after the clock has wrapped around, a button does not turn the layer on. -/
theorem turnedOff_not_targetOn : ¬ ∀ (c : Config 16) (calls : List (Call ℕ 16)) (r : Report)
    (now : ℕ), c.isEnabled → c.layer < 16 → InOrder (calls ++ [.task r now]) → r.buttons ≠ 0 →
      (∀ t, .resetTrigger t ∈ (run c calls).effects → c.delay < now - t) →
      (∀ t, .refresh t ∈ (run c calls).effects → c.debounce < now - t) →
      TargetOn c (run c (calls ++ [.task r now])) := by
  intro h
  have hon := h {} turnedOff firstButton 65600 rfl (by decide) (by decide) (by decide)
    quiet_turnedOff.1 quiet_turnedOff.2
  revert hon
  decide

end Wrapped

end Qmk.AutoMouse
