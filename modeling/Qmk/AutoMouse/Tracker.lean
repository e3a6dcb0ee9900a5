import Mathlib.Data.List.Induction
import Qmk.AutoMouse
import Qmk.HeldKeys

/-! # The keys that hold the auto mouse layer

`mouse_key_tracker` is the number of the keys that are down and hold the target layer, as long as
this number fits in an `int8_t`.
-/

namespace Qmk.AutoMouse

open HeldKeys

variable {κ : Type*} {w : ℕ}

section Runs

abbrev Key := UInt16 × ℕ

/-- An event of a key, a task, and a change of the layers by other code. -/
inductive Call (κ : Type*) (w : ℕ)
  | key (e : Event κ Key) (now : ℕ)
  | task (r : MouseKeys.Report) (now : ℕ)
  | layers (layerState : BitVec w) (oneshotLayer : ℕ)

variable (c : Config w)

def step (s : State w) : Call κ w → State w
  | .key e now => processAutoMouse c s e.what.1 ⟨e.pressed, e.what.2, false⟩ now
  | .task r now => pointingDeviceTaskAutoMouse c s r now
  | .layers layerState oneshotLayer =>
    { s with layerState := layerState, oneshotLayer := oneshotLayer }

def run (calls : List (Call κ w)) : State w := calls.foldl (step c) {}

def Call.event? : Call κ w → Option (Event κ Key)
  | .key e _ => some e
  | _ => none

def keyEvents (calls : List (Call κ w)) : List (Event κ Key) := calls.filterMap Call.event?

/-- A mouse key, or a key for the target layer that holds it. -/
def Holds (k : Key) : Prop :=
  IsMousekey k.1 ∨
    InRange 0x5220 0x523F k.1 ∧ getLayer k.1 = c.layer ∨
    InRange 0x5000 0x51FF k.1 ∧ layerModGetLayer k.1 = c.layer ∨
    InRange 0x4000 0x4FFF k.1 ∧ layerTapGetLayer k.1 = c.layer ∧ k.2 = 0 ∨
    InRange 0x52C0 0x52DF k.1 ∧ getLayer k.1 = c.layer ∧ k.2 ≠ c.tappingToggle

instance (k : Key) : Decidable (Holds c k) := by
  unfold Holds
  infer_instance

/-- A tap toggle whose tap count is a `TAPPING_TOGGLE` of 0, where the correction is left out. -/
def Uncorrected (k : Key) : Prop :=
  InRange 0x52C0 0x52DF k.1 ∧ getLayer k.1 = c.layer ∧ k.2 = 0 ∧ c.tappingToggle = 0

instance (k : Key) : Decidable (Uncorrected c k) := by
  unfold Uncorrected
  infer_instance

def holdWeight (k : Key) : ℕ := if Holds c k then 1 else 0

/-- How many of the keys that are down hold the target layer. -/
def holding [DecidableEq κ] (calls : List (Call κ w)) : ℕ :=
  weight (holdWeight c) (held (keyEvents calls))

/-- The target layer is turned off between two states. -/
def TurnsOff (s s' : State w) : Prop := .layerOff c.layer ∈ s'.effects.drop s.effects.length

end Runs

section Steps

variable {c : Config w} {s : State w} {keycode : UInt16} {record : Keyrecord} {now : ℕ}

theorem inRange_iff {lo hi : UInt16} :
    InRange lo hi keycode ↔ lo.toNat ≤ keycode.toNat ∧ keycode.toNat ≤ hi.toNat := by
  rw [InRange, UInt16.le_iff_toNat_le, UInt16.le_iff_toNat_le]

/-- The end of `process_auto_mouse`, for the tracker. -/
def notNegative (tracker : Int8) : Int8 := if tracker < 0 then 0 else tracker

/-- The tracker before it is kept from being negative. -/
def counted (c : Config w) (k : Key) (pressed : Bool) (tracker : Int8) : Int8 :=
  if Holds c k ∨ Uncorrected c k then if pressed then tracker + 1 else tracker - 1 else tracker

theorem isAutoMouseActive_of_tracker (h : s.mouseKeyTracker ≠ 0) :
    isAutoMouseActive c s = true := by
  simp [isAutoMouseActive, h]

theorem tracker_of_not_active (h : isAutoMouseActive c s = false) : s.mouseKeyTracker = 0 := by
  by_contra hne
  rw [isAutoMouseActive_of_tracker hne] at h
  exact Bool.noConfusion h

theorem mouseKeyTracker_resetTrigger (h : isAutoMouseActive c s = false) (pressed : Bool) :
    (autoMouseResetTrigger c s pressed now).mouseKeyTracker = s.mouseKeyTracker := by
  cases pressed with
  | true => exact (tracker_of_not_active h).symm
  | false => rfl

theorem mouseKeyTracker_processDefault (hevent : record.isNoevent = false) :
    (processDefault c s keycode record now).mouseKeyTracker =
      if IsMousekey keycode then
        if record.pressed then s.mouseKeyTracker + 1 else s.mouseKeyTracker - 1
      else s.mouseKeyTracker := by
  unfold processDefault
  rw [if_neg (by simp [hevent])]
  by_cases hmouse : IsMousekey keycode
  · have hrecord : isMouseRecord keycode record := hmouse
    rw [if_pos hrecord, if_pos hmouse]
    rfl
  · have hrecord : ¬ isMouseRecord keycode record := hmouse
    rw [if_neg hrecord, if_neg hmouse]
    by_cases hactive : isAutoMouseActive c s
    · rw [if_neg (by simp [hactive])]
    · rw [if_pos (by simpa using hactive)]
      exact mouseKeyTracker_resetTrigger (by simpa using hactive) _

theorem mouseKeyTracker_processTapToggle :
    (processTapToggle c s record).mouseKeyTracker =
      if c.tappingToggle ≠ 0 ∧ record.tapCount = c.tappingToggle then s.mouseKeyTracker
      else if record.pressed then s.mouseKeyTracker + 1 else s.mouseKeyTracker - 1 := by
  unfold processTapToggle
  by_cases htoggle : c.tappingToggle ≠ 0 ∧ record.tapCount = c.tappingToggle
  · rw [if_pos htoggle, if_pos htoggle]
    cases hpressed : record.pressed with
    | true => exact Int8.add_sub_cancel _ _
    | false => exact Int8.sub_add_cancel _ _
  · rw [if_neg htoggle, if_neg htoggle]
    rfl

theorem counted_of_pos {k : Key} {pressed : Bool} {tracker : Int8}
    (h : Holds c k ∨ Uncorrected c k) :
    counted c k pressed tracker = if pressed then tracker + 1 else tracker - 1 := if_pos h

theorem counted_of_neg {k : Key} {pressed : Bool} {tracker : Int8}
    (h : ¬ (Holds c k ∨ Uncorrected c k)) : counted c k pressed tracker = tracker := if_neg h

theorem counted_iff {tapCount : ℕ} :
    Holds c (keycode, tapCount) ∨ Uncorrected c (keycode, tapCount) ↔
      IsMousekey keycode ∨
      InRange 0x5220 0x523F keycode ∧ getLayer keycode = c.layer ∨
      InRange 0x5000 0x51FF keycode ∧ layerModGetLayer keycode = c.layer ∨
      InRange 0x4000 0x4FFF keycode ∧ layerTapGetLayer keycode = c.layer ∧ tapCount = 0 ∨
      InRange 0x52C0 0x52DF keycode ∧ getLayer keycode = c.layer ∧
        ¬ (c.tappingToggle ≠ 0 ∧ tapCount = c.tappingToggle) := by
  have htoggle : tapCount ≠ c.tappingToggle ∨ tapCount = 0 ∧ c.tappingToggle = 0 ↔
      ¬ (c.tappingToggle ≠ 0 ∧ tapCount = c.tappingToggle) := by
    omega
  rw [← htoggle, Holds, Uncorrected]
  simp only [or_assoc, ← and_or_left]

theorem mouseKeyTracker_processCases (hevent : record.isNoevent = false) :
    (processCases c s keycode record now).mouseKeyTracker =
      counted c (keycode, record.tapCount) record.pressed s.mouseKeyTracker := by
  have hnot : ¬ (Holds c (keycode, record.tapCount) ∨ Uncorrected c (keycode, record.tapCount)) →
      s.mouseKeyTracker = counted c (keycode, record.tapCount) record.pressed s.mouseKeyTracker :=
    fun h => (counted_of_neg h).symm
  have hkeyevent : Holds c (keycode, record.tapCount) ∨ Uncorrected c (keycode, record.tapCount) →
      (autoMouseKeyevent s record.pressed).mouseKeyTracker =
        counted c (keycode, record.tapCount) record.pressed s.mouseKeyTracker :=
    fun h => (counted_of_pos h).symm
  simp only [counted_iff, IsMousekey, inRange_iff, UInt16.toNat_ofNat] at hnot hkeyevent
  unfold processCases
  split_ifs with hmods hto _ hmomentary htarget hdefault hmod htarget htoggle htarget htap htarget
    hmodTap
  all_goals simp only [inRange_iff, UInt16.toNat_ofNat] at *
  · exact hnot (by omega)
  · exact hnot (by omega)
  · exact hnot (by omega)
  · exact hkeyevent (by omega)
  · exact hnot (by omega)
  · exact hnot (by omega)
  · exact hkeyevent (by omega)
  · exact hnot (by omega)
  · rw [mouseKeyTracker_processTapToggle]
    by_cases hcount : c.tappingToggle ≠ 0 ∧ record.tapCount = c.tappingToggle
    · rw [if_pos hcount]
      exact hnot (by omega)
    · rw [if_neg hcount]
      exact hkeyevent (by omega)
  · exact hnot (by omega)
  · exact hkeyevent (by omega)
  · exact hnot (by omega)
  · exact hnot (by omega)
  · rw [mouseKeyTracker_processDefault hevent]
    by_cases hmouse : IsMousekey keycode
    · rw [if_pos hmouse]
      simp only [IsMousekey, inRange_iff, UInt16.toNat_ofNat] at hmouse
      exact hkeyevent (by omega)
    · rw [if_neg hmouse]
      simp only [IsMousekey, inRange_iff, UInt16.toNat_ofNat] at hmouse
      exact hnot (by omega)

theorem mouseKeyTracker_processAutoMouse (henabled : c.isEnabled)
    (hevent : record.isNoevent = false) :
    (processAutoMouse c s keycode record now).mouseKeyTracker =
      notNegative (counted c (keycode, record.tapCount) record.pressed s.mouseKeyTracker) := by
  have hcases : (processCases c s keycode record now).mouseKeyTracker =
      counted c (keycode, record.tapCount) record.pressed s.mouseKeyTracker :=
    mouseKeyTracker_processCases hevent
  unfold processAutoMouse notNegative
  rw [if_neg (by simp [henabled]), ← hcases]
  dsimp only
  split_ifs <;> rfl

end Steps

section Layers

variable {c : Config w} {s s' : State w} {keycode : UInt16} {record : Keyrecord} {now : ℕ}

/-- The target layer is turned off only while the tracker is 0. -/
structure KeepsLayer (c : Config w) (s s' : State w) (new : List Effect) : Prop where
  effects : s'.effects = s.effects ++ new
  tracker_zero : .layerOff c.layer ∈ new → s.mouseKeyTracker = 0 ∧ s'.mouseKeyTracker = 0

theorem KeepsLayer.not_turnsOff {new : List Effect} (h : KeepsLayer c s s' new)
    (hoff : TurnsOff c s s') : s.mouseKeyTracker = 0 ∧ s'.mouseKeyTracker = 0 := by
  rw [TurnsOff, h.effects, List.drop_left] at hoff
  exact h.tracker_zero hoff

theorem keepsLayer_of_effects (h : s'.effects = s.effects) : KeepsLayer c s s' [] where
  effects := by rw [h, List.append_nil]
  tracker_zero := fun hmem => absurd hmem List.not_mem_nil

theorem keepsLayer_resetTrigger (h : isAutoMouseActive c s = false) (pressed : Bool) :
    ∃ new, KeepsLayer c s (autoMouseResetTrigger c s pressed now) new := by
  have hzero := tracker_of_not_active h
  have hzero' : (autoMouseResetTrigger c s pressed now).mouseKeyTracker = 0 :=
    (mouseKeyTracker_resetTrigger h pressed).trans hzero
  have heffects : ∃ new, (autoMouseResetTrigger c s pressed now).effects = s.effects ++ new := by
    cases pressed with
    | false => exact ⟨_, rfl⟩
    | true =>
      by_cases hon : TargetOn c s
      · refine ⟨[.layerOff c.layer, .resetTrigger now], ?_⟩
        simp [autoMouseResetTrigger, autoMouseReset, State.layerOff, hon]
      · refine ⟨[.resetTrigger now], ?_⟩
        simp [autoMouseResetTrigger, autoMouseReset, hon]
  obtain ⟨new, hnew⟩ := heffects
  exact ⟨new, hnew, fun _ => ⟨hzero, hzero'⟩⟩

theorem keepsLayer_processCases (c : Config w) (s : State w) (keycode : UInt16)
    (record : Keyrecord) (now : ℕ) :
    ∃ new, KeepsLayer c s (processCases c s keycode record now) new := by
  have hkept : ∀ s' : State w, s'.effects = s.effects → ∃ new, KeepsLayer c s s' new :=
    fun s' h => ⟨[], keepsLayer_of_effects h⟩
  obtain hs | hs | hs | hs | hs := @processCases_cases _ c s _ keycode record now rfl
  all_goals rw [hs]
  · exact hkept _ rfl
  · exact hkept _ rfl
  · exact hkept _ rfl
  · refine hkept _ ?_
    unfold processTapToggle
    split_ifs <;> rfl
  · unfold processDefault
    split_ifs with hnoevent hrecord hactive
    · exact hkept _ rfl
    · exact hkept _ rfl
    · exact keepsLayer_resetTrigger (by simpa using hactive) _
    · exact hkept _ rfl

theorem keepsLayer_processAutoMouse :
    ∃ new, KeepsLayer c s (processAutoMouse c s keycode record now) new := by
  unfold processAutoMouse
  dsimp only
  obtain ⟨new, heffects, hzero⟩ := keepsLayer_processCases c s keycode record now
  split_ifs
  · exact ⟨new, heffects, fun hoff => ⟨(hzero hoff).1, rfl⟩⟩
  · exact ⟨new, heffects, hzero⟩
  · exact ⟨[], keepsLayer_of_effects rfl⟩

theorem mouseKeyTracker_refresh : (refresh c s now).mouseKeyTracker = s.mouseKeyTracker := by
  unfold refresh
  dsimp only
  split_ifs <;> rfl

theorem keepsLayer_refresh : ∃ new, KeepsLayer c s (refresh c s now) new := by
  unfold refresh
  dsimp only
  split_ifs
  · exact ⟨[.refresh now], rfl, by simp⟩
  · exact ⟨[.refresh now, .layerOn c.layer], by simp [State.layerOn], by simp⟩

theorem mouseKeyTracker_task (r : MouseKeys.Report) :
    (pointingDeviceTaskAutoMouse c s r now).mouseKeyTracker = s.mouseKeyTracker := by
  unfold pointingDeviceTaskAutoMouse updateAutoMouse
  dsimp only
  split_ifs
  · rfl
  · exact mouseKeyTracker_refresh
  · rfl
  · rfl

theorem keepsLayer_task (r : MouseKeys.Report) :
    ∃ new, KeepsLayer c s (pointingDeviceTaskAutoMouse c s r now) new := by
  unfold pointingDeviceTaskAutoMouse updateAutoMouse
  dsimp only
  split_ifs with hskip hactive hoff
  · exact ⟨[], keepsLayer_of_effects rfl⟩
  · have hrefresh : ∃ new, KeepsLayer c (activate c s r) (refresh c (activate c s r) now) new :=
      keepsLayer_refresh
    obtain ⟨new, heffects, hzero⟩ := hrefresh
    exact ⟨new, heffects, hzero⟩
  · have hzero : s.mouseKeyTracker = 0 :=
      tracker_of_not_active (c := c) (s := activate c s r) (by simpa using hactive)
    exact ⟨[.layerOff c.layer], rfl, fun _ => ⟨hzero, hzero⟩⟩
  · exact ⟨[], keepsLayer_of_effects rfl⟩

end Layers

section Counter

variable {tracker : Int8} {n : ℕ}

theorem notNegative_eq (h : tracker.toInt = n) : notNegative tracker = tracker := by
  refine if_neg ?_
  rw [Int8.lt_iff_toInt_lt, h, Int8.toInt_zero]
  omega

theorem toInt_add_one (h : tracker.toInt = n) (hle : n + 1 ≤ 127) :
    (notNegative (tracker + 1)).toInt = (n + 1 : ℕ) := by
  have hnext : (tracker + 1).toInt = (n + 1 : ℕ) := by
    rw [Int8.toInt_add, h, Int8.toInt_one, Int.bmod_eq_of_le (by omega) (by omega)]
    rfl
  rwa [notNegative_eq hnext]

theorem toInt_sub_one (h : tracker.toInt = (n + 1 : ℕ)) :
    (notNegative (tracker - 1)).toInt = n := by
  have hlt := tracker.toInt_lt
  have hnext : (tracker - 1).toInt = n := by
    rw [Int8.toInt_sub, h, Int8.toInt_one, Int.bmod_eq_of_le (by omega) (by omega)]
    omega
  rwa [notNegative_eq hnext]

theorem toInt_add_one_ne (h : tracker.toInt = n) : (notNegative (tracker + 1)).toInt ≠ n := by
  by_cases hle : n + 1 ≤ 127
  · rw [toInt_add_one h hle]
    omega
  · have hlt := tracker.toInt_lt
    have hmax : tracker.toInt = 127 := by omega
    have hnext : (tracker + 1).toInt = -128 := by
      rw [Int8.toInt_add, hmax, Int8.toInt_one]
      rfl
    have hzero : notNegative (tracker + 1) = 0 := by
      refine if_pos ?_
      rw [Int8.lt_iff_toInt_lt, hnext, Int8.toInt_zero]
      omega
    rw [hzero, Int8.toInt_zero]
    omega

end Counter

section Counting

variable {c : Config w} {calls : List (Call κ w)} {call : Call κ w}

@[simp]
theorem run_append : run c (calls ++ [call]) = step c (run c calls) call := by
  simp [run]

theorem keyEvents_append : keyEvents (calls ++ [call]) = keyEvents calls ++ call.event?.toList := by
  cases call <;> simp [keyEvents, Call.event?]

variable {e : Event κ Key} {now : ℕ}

theorem tracker_key (henabled : c.isEnabled) :
    (run c (calls ++ [.key e now])).mouseKeyTracker =
      notNegative (counted c e.what e.pressed (run c calls).mouseKeyTracker) := by
  rw [run_append]
  exact mouseKeyTracker_processAutoMouse henabled rfl

variable [DecidableEq κ]

/-- The tracker is the number of the keys that hold the layer. -/
def Tracks (c : Config w) (calls : List (Call κ w)) : Prop :=
  (run c calls).mouseKeyTracker.toInt = holding c calls

theorem tracks_nil : Tracks c ([] : List (Call κ w)) := rfl

/-- A call that is no event of a key changes neither the tracker nor the keys. -/
theorem Tracks.other (h : Tracks c calls) (hcall : call.event? = none) :
    Tracks c (calls ++ [call]) := by
  have hholding : holding c (calls ++ [call]) = holding c calls := by
    simp only [holding, keyEvents_append, hcall, Option.toList_none, List.append_nil]
  unfold Tracks
  rw [run_append, hholding]
  match call, hcall with
  | .task r now, _ => exact (congrArg Int8.toInt (mouseKeyTracker_task r)).trans h
  | .layers layerState oneshotLayer, _ => exact h

theorem holding_key : holding c (calls ++ [.key e now]) =
    weight (holdWeight c) (heldAfter (held (keyEvents calls)) e) := by
  rw [holding, keyEvents_append, Call.event?, Option.toList_some, held_append]

theorem Tracks.uncounted (henabled : c.isEnabled) (h : Tracks c calls)
    (hfollows : Follows (held (keyEvents calls)) e)
    (hnot : ¬ (Holds c e.what ∨ Uncorrected c e.what)) : Tracks c (calls ++ [.key e now]) := by
  have hholding : holding c (calls ++ [.key e now]) = holding c calls := by
    rw [holding_key]
    have hweight : holdWeight c e.what = 0 := if_neg fun h => hnot (Or.inl h)
    by_cases hpressed : e.pressed
    · rw [weight_press hpressed, hweight, Nat.zero_add]
      rfl
    · have hrelease := weight_release (w := holdWeight c) hfollows hpressed
      rw [hweight, Nat.zero_add] at hrelease
      exact hrelease
  rw [Tracks, tracker_key henabled, hholding, counted_of_neg hnot, notNegative_eq h]
  exact h

theorem Tracks.counted (henabled : c.isEnabled) (h : Tracks c calls)
    (hfollows : Follows (held (keyEvents calls)) e) (hholds : Holds c e.what)
    (hle : holding c (calls ++ [.key e now]) ≤ 127) : Tracks c (calls ++ [.key e now]) := by
  have hweight : holdWeight c e.what = 1 := if_pos hholds
  rw [Tracks, tracker_key henabled, counted_of_pos (Or.inl hholds)]
  by_cases hpressed : e.pressed
  · have hnext : holding c (calls ++ [.key e now]) = holding c calls + 1 := by
      rw [holding_key, weight_press hpressed, hweight, Nat.add_comm]
      rfl
    rw [hnext] at hle
    rw [if_pos hpressed, hnext]
    exact toInt_add_one h hle
  · have hnext : holding c calls = holding c (calls ++ [.key e now]) + 1 := by
      rw [holding_key, Nat.add_comm, ← hweight]
      exact (weight_release hfollows hpressed).symm
    rw [if_neg hpressed]
    refine toInt_sub_one ?_
    rw [← hnext]
    exact h

theorem not_tracks_uncorrected (henabled : c.isEnabled) (h : Tracks c calls) (hpressed : e.pressed)
    (huncorrected : Uncorrected c e.what) : ¬ Tracks c (calls ++ [.key e now]) := by
  have hnot : ¬ Holds c e.what := by
    simp only [Holds, Uncorrected, IsMousekey, inRange_iff, UInt16.toNat_ofNat] at *
    omega
  have hholding : holding c (calls ++ [.key e now]) = holding c calls := by
    rw [holding_key, weight_press hpressed, holdWeight, if_neg hnot, Nat.zero_add]
    rfl
  rw [Tracks, tracker_key henabled, hholding, counted_of_pos (Or.inr huncorrected),
    if_pos hpressed]
  exact toInt_add_one_ne h

/-- At most 127 keys hold the layer at any time, and no tap toggle is left uncorrected. -/
def Countable (c : Config w) (calls : List (Call κ w)) : Prop :=
  (∀ before, before <+: calls → holding c before ≤ 127) ∧
    ∀ e ∈ keyEvents calls, ¬ Uncorrected c e.what

theorem tracks_run (henabled : c.isEnabled) (halt : Alternates (keyEvents calls))
    (hcountable : Countable c calls) : Tracks c calls := by
  induction calls using List.reverseRecOn with
  | nil => exact tracks_nil
  | append_singleton calls call ih =>
    obtain ⟨hle, hcorrected⟩ := hcountable
    rw [keyEvents_append] at halt hcorrected
    have hprefix : calls <+: calls ++ [call] := List.prefix_append calls [call]
    cases hevent : call.event? with
    | none =>
      rw [hevent, Option.toList_none, List.append_nil] at halt hcorrected
      exact (ih halt ⟨fun before h => hle before (h.trans hprefix), hcorrected⟩).other hevent
    | some e =>
      obtain ⟨now, rfl⟩ : ∃ now, call = .key e now := by
        cases call <;> simp_all [Call.event?]
      rw [hevent, Option.toList_some] at halt hcorrected
      obtain ⟨halt, hfollows⟩ := alternates_append.mp halt
      have htracks := ih halt ⟨fun before h => hle before (h.trans hprefix),
        fun e' he' => hcorrected e' (List.mem_append_left _ he')⟩
      have hcorrected : ¬ Uncorrected c e.what := hcorrected e (by simp)
      by_cases hholds : Holds c e.what
      · exact htracks.counted henabled hfollows hholds (hle _ (List.prefix_refl _))
      · exact htracks.uncounted henabled hfollows (not_or.mpr ⟨hholds, hcorrected⟩)

omit [DecidableEq κ] in
theorem keepsLayer_step (s : State w) (call : Call κ w) :
    ∃ new, KeepsLayer c s (step c s call) new := by
  match call with
  | .key e now => exact keepsLayer_processAutoMouse
  | .task r now => exact keepsLayer_task r
  | .layers layerState oneshotLayer => exact ⟨[], keepsLayer_of_effects rfl⟩

theorem Tracks.holding_eq_zero (h : Tracks c calls) (hzero : (run c calls).mouseKeyTracker = 0) :
    holding c calls = 0 := by
  have hcount : ((0 : Int8).toInt : ℤ) = holding c calls := by rw [← hzero]; exact h
  rw [Int8.toInt_zero] at hcount
  omega

/-- The tracker is the number of held keys in every state of a run, and the target layer is not
turned off while there are any, exactly if the number stays in the range of the tracker. -/
theorem tracks_iff (c : Config w) (henabled : c.isEnabled) (calls : List (Call κ w))
    (halt : Alternates (keyEvents calls)) :
    ((∀ before, before <+: calls → Tracks c before) ∧
      ∀ before call, before ++ [call] <+: calls →
        TurnsOff c (run c before) (run c (before ++ [call])) →
          holding c before = 0 ∧ holding c (before ++ [call]) = 0) ↔
      (∀ before, before <+: calls → holding c before ≤ 127) ∧
        ∀ e ∈ keyEvents calls, ¬ Uncorrected c e.what := by
  have hevents : ∀ before, before <+: calls → keyEvents before <+: keyEvents calls :=
    fun before h => h.filterMap _
  constructor
  · rintro ⟨htracks, -⟩
    refine ⟨fun before hbefore => ?_, fun e he huncorrected => ?_⟩
    · have hlt := (run c before).mouseKeyTracker.toInt_lt
      have hcount : (run c before).mouseKeyTracker.toInt = holding c before :=
        htracks before hbefore
      omega
    · obtain ⟨e', he', hpressed, hwhat⟩ := exists_press_of_mem halt he
      obtain ⟨call, hcall, hevent⟩ := List.mem_filterMap.mp he'
      obtain ⟨now, rfl⟩ : ∃ now, call = .key e' now := by
        cases call <;> simp_all [Call.event?]
      obtain ⟨before, after, hsplit⟩ := List.append_of_mem hcall
      have hbefore : before ++ [.key e' now] <+: calls := ⟨after, by rw [hsplit]; simp⟩
      rw [← hwhat] at huncorrected
      exact not_tracks_uncorrected henabled
        (htracks before ((List.prefix_append before _).trans hbefore)) hpressed huncorrected
        (htracks _ hbefore)
  · rintro ⟨hle, hcorrected⟩
    have htracks : ∀ before, before <+: calls → Tracks c before := by
      intro before hbefore
      refine tracks_run henabled (halt.of_prefix (hevents before hbefore)) ⟨?_, ?_⟩
      · exact fun p hp => hle p (hp.trans hbefore)
      · exact fun e he => hcorrected e ((hevents before hbefore).subset he)
    refine ⟨htracks, fun before call hcall hoff => ?_⟩
    obtain ⟨new, hkeeps⟩ := keepsLayer_step (c := c) (run c before) call
    rw [← run_append] at hkeeps
    obtain ⟨hzero, hzero'⟩ := hkeeps.not_turnsOff hoff
    exact ⟨(htracks before ((List.prefix_append before _).trans hcall)).holding_eq_zero hzero,
      (htracks _ hcall).holding_eq_zero hzero'⟩

def buttonOverTapToggle : List (Call ℕ 16) :=
  [.key ⟨0, (0x00D1, 0), true⟩ 5, .key ⟨1, (0x52C1, 0), true⟩ 9, .key ⟨0, (0x00D1, 0), false⟩ 12]

theorem tracks_iff_buttonOverTapToggle :
    let c : Config 16 := {}
    ((∀ before, before <+: buttonOverTapToggle → Tracks c before) ∧
      ∀ before call, before ++ [call] <+: buttonOverTapToggle →
        TurnsOff c (run c before) (run c (before ++ [call])) →
          holding c before = 0 ∧ holding c (before ++ [call]) = 0) ↔
      (∀ before, before <+: buttonOverTapToggle → holding c before ≤ 127) ∧
        ∀ e ∈ keyEvents buttonOverTapToggle, ¬ Uncorrected c e.what :=
  tracks_iff {} rfl buttonOverTapToggle (by decide)

/-- 128 keys for the first mouse button are pressed. -/
def manyButtons : List (Call ℕ 16) :=
  (List.range 128).map fun i => .key ⟨i, (0x00D1, 0), true⟩ i

/-- The tracker cannot be the number of 128 held keys. -/
theorem manyButtons_not_tracked : ¬ ∀ (c : Config 16) (calls : List (Call ℕ 16)), c.isEnabled →
    Alternates (keyEvents calls) → ∀ before, before <+: calls → Tracks c before := by
  intro h
  have htracks : (run {} manyButtons).mouseKeyTracker.toInt = holding {} manyButtons :=
    h {} manyButtons rfl (by decide +kernel) manyButtons (List.prefix_refl _)
  have hheld : holding {} manyButtons = 128 := by decide +kernel
  have hlt := (run {} manyButtons).mouseKeyTracker.toInt_lt
  omega

end Counting

end Qmk.AutoMouse
