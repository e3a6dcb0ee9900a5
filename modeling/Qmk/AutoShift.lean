import Mathlib.Logic.Function.Basic
import Mathlib.Data.BitVec
import Qmk.Monitor

/-! # Auto Shift

`process_auto_shift.c` with the default functions for its keys, without `RETRO_SHIFT`,
`AUTO_SHIFT_MODIFIERS` and Caps Word, where no key is one-shot. A key waits in `autoshift_lastkey`
until it is released, until another one is pressed or until the timeout. What Auto Shift passes on
goes to `process_action`.
-/

namespace Qmk.AutoShift

abbrev Keycode := BitVec 16

/-- The build: the macros, `GET_TAPPING_TERM`, and what `process_action` does to `real_mods` for the
keys that are not spelled out here. -/
structure Config where
  autoShiftRepeat : Bool := false
  autoShiftNoAutoRepeat : Bool := false
  autoShiftDisabledAtStartup : Bool := false
  autoShiftTimeout : BitVec 16 := 175
  getTappingTerm : Keycode → BitVec 16 := fun _ => 200
  otherMods : Keycode → Bool → BitVec 8 → BitVec 8 := fun _ _ mods => mods

/-- The statics of `process_auto_shift.c`, and `real_mods`. -/
structure State where
  autoshiftTime : BitVec 16 := 0
  autoshiftTimeout : BitVec 16
  autoshiftLastkey : Keycode := 0
  autoshiftShiftStates : BitVec 8 → Bool := fun _ => false
  enabled : Bool
  lastshifted : Bool := false
  inProgress : Bool := false
  holdingShift : Bool := false
  cancellingLshift : Bool := false
  cancellingRshift : Bool := false
  realMods : BitVec 8 := 0

/-- What happens in an event. It begins with the key and whether Auto Shift is enabled, and ends
with `handled`. -/
inductive Call
  | arrives (keycode : Keycode) (pressed enabled : Bool)
  | autoshiftPressUser (keycode : Keycode) (shifted : Bool)
  | autoshiftReleaseUser (keycode : Keycode) (shifted : Bool)
  | registerCode (code : BitVec 8)
  | unregisterCode (code : BitVec 8)
  | autoshiftTimerReport (timeout : BitVec 16)
  | passOn (keycode : Keycode) (pressed : Bool)
  | handled (keycode : Keycode) (pressed : Bool)
  deriving DecidableEq

/-- The state in an event, with the calls so far. -/
structure Processing extends State where
  calls : List Call := []

def Processing.call (c : Call) (s : Processing) : Processing := { s with calls := s.calls ++ [c] }

section Keycodes

/-- `MOD_BIT(KC_LSFT)`. -/
def lshift : BitVec 8 := 0x02

/-- `MOD_BIT(KC_RSFT)`. -/
def rshift : BitVec 8 := 0x20

def kcLsft : Keycode := 0xE1

def kcRsft : Keycode := 0xE5

def IsBasic (keycode : Keycode) : Prop := 0x04 ≤ keycode ∧ keycode ≤ 0xA4

def IsModifier (keycode : Keycode) : Prop := 0xE0 ≤ keycode ∧ keycode ≤ 0xE7

def IsModTap (keycode : Keycode) : Prop := 0x2000 ≤ keycode ∧ keycode ≤ 0x3FFF

def IsLayerTap (keycode : Keycode) : Prop := 0x4000 ≤ keycode ∧ keycode ≤ 0x4FFF

def IsRetro (keycode : Keycode) : Prop := IsModTap keycode ∨ IsLayerTap keycode

/-- `get_auto_shifted_key`: letters, digits, `KC_TAB` and symbols. -/
def GetAutoShiftedKey (keycode : Keycode) : Prop :=
  (0x04 ≤ keycode ∧ keycode ≤ 0x1D) ∨ (0x1E ≤ keycode ∧ keycode ≤ 0x27) ∨ keycode = 0x2B ∨
    (0x2D ≤ keycode ∧ keycode ≤ 0x38) ∨ keycode = 0x64

instance (keycode : Keycode) : Decidable (IsBasic keycode) := inferInstanceAs (Decidable (_ ∧ _))

instance (keycode : Keycode) : Decidable (IsModifier keycode) :=
  inferInstanceAs (Decidable (_ ∧ _))

instance (keycode : Keycode) : Decidable (IsModTap keycode) := inferInstanceAs (Decidable (_ ∧ _))

instance (keycode : Keycode) : Decidable (IsLayerTap keycode) :=
  inferInstanceAs (Decidable (_ ∧ _))

instance (keycode : Keycode) : Decidable (IsRetro keycode) := inferInstanceAs (Decidable (_ ∨ _))

instance (keycode : Keycode) : Decidable (GetAutoShiftedKey keycode) :=
  inferInstanceAs (Decidable (_ ∨ _))

def modBit (keycode : Keycode) : BitVec 8 := 1 <<< (keycode &&& 0x07).toNat

/-- The modifiers of a mod-tap key: the fifth bit tells the hand. -/
def modTapMods (keycode : Keycode) : BitVec 8 :=
  let mods := (keycode >>> 8).setWidth 8 &&& 0x0F
  if keycode.getLsbD 12 then mods <<< 4 else mods

def lowByte (keycode : Keycode) : BitVec 8 := keycode.setWidth 8

def asDown : Keycode := 0x7C10

def asUp : Keycode := 0x7C11

def asRpt : Keycode := 0x7C12

def asOn : Keycode := 0x7C13

def asOff : Keycode := 0x7C14

def asTogg : Keycode := 0x7C15

end Keycodes

section ProcessAction

def addMods (mods : BitVec 8) (s : Processing) : Processing :=
  { s with realMods := s.realMods ||| mods }

def delMods (mods : BitVec 8) (s : Processing) : Processing :=
  { s with realMods := s.realMods &&& ~~~mods }

inductive Action
  | basic (code : BitVec 8)
  | mods (mods : BitVec 8)
  | none
  | other
  deriving DecidableEq

/-- `action_for_keycode`, with the tap count of the record. The mod-taps of `MODS_ONESHOT` and
`MODS_TAP_TOGGLE` are among the other keys. -/
def actionFor (keycode : Keycode) (tapCount : ℕ) : Action :=
  if IsBasic keycode then .basic (lowByte keycode)
  else if IsModifier keycode then .mods (modBit keycode)
  else if IsModTap keycode ∧ 1 < lowByte keycode then
    if tapCount = 0 then .mods (modTapMods keycode)
    else .basic (lowByte keycode)
  else if asDown ≤ keycode ∧ keycode ≤ asTogg then .none
  else .other

def processAction (cfg : Config) (keycode : Keycode) (pressed : Bool) (tapCount : ℕ)
    (s : Processing) : Processing :=
  match actionFor keycode tapCount with
  | .basic code => s.call (if pressed then .registerCode code else .unregisterCode code)
  | .mods mods => if pressed then addMods mods s else delMods mods s
  | .none => s
  | .other => { s with realMods := cfg.otherMods keycode pressed s.realMods }

end ProcessAction

section AutoShift

variable (cfg : Config)

def autoshiftPressUser (keycode : Keycode) (shifted : Bool) (s : Processing) : Processing :=
  (s.call (.autoshiftPressUser keycode shifted)).call (.registerCode (lowByte keycode))

def autoshiftReleaseUser (keycode : Keycode) (shifted : Bool) (s : Processing) : Processing :=
  (s.call (.autoshiftReleaseUser keycode shifted)).call (.unregisterCode (lowByte keycode))

def setAutoshiftShiftState (keycode : Keycode) (shifted : Bool) (s : Processing) : Processing :=
  { s with
    autoshiftShiftStates := Function.update s.autoshiftShiftStates (lowByte keycode) shifted }

def getAutoshiftShiftState (keycode : Keycode) (s : Processing) : Bool :=
  s.autoshiftShiftStates (lowByte keycode)

def autoshiftFlushShift (s : Processing) : Processing :=
  let s := { s with holdingShift := false }
  let s :=
    if s.cancellingLshift then addMods lshift { s with cancellingLshift := false } else s
  if s.cancellingRshift then addMods rshift { s with cancellingRshift := false } else s

/-- A held shift is removed while a key is down, in `autoshift_press` and in `autoshift_end`. -/
def cancelShift (s : Processing) : Processing :=
  let s :=
    if s.realMods &&& lshift ≠ 0 then delMods lshift { s with cancellingLshift := true } else s
  if s.realMods &&& rshift ≠ 0 then delMods rshift { s with cancellingRshift := true } else s

/-- `autoshift_press`, which does not let the record be processed further. -/
def autoshiftPress (keycode : Keycode) (now : BitVec 16) (s : Processing) : Processing :=
  if s.realMods &&& ~~~lshift ≠ 0 then
    autoshiftPressUser keycode false
      (setAutoshiftShiftState keycode false { s with autoshiftLastkey := 0 })
  else if cfg.autoShiftRepeat ∧ keycode = s.autoshiftLastkey ∧
      (cfg.autoShiftNoAutoRepeat ∨ ¬ s.lastshifted) ∧
      now - s.autoshiftTime < cfg.getTappingTerm s.autoshiftLastkey then
    let s := cancelShift s
    autoshiftPressUser s.autoshiftLastkey s.lastshifted s
  else
    { s with
      lastshifted := decide (s.realMods &&& lshift ≠ 0)
      autoshiftLastkey := keycode
      autoshiftTime := now
      inProgress := true }

def TimedOut (now : BitVec 16) (s : Processing) : Prop :=
  s.autoshiftTimeout ≤ now - s.autoshiftTime

instance (now : BitVec 16) (s : Processing) : Decidable (TimedOut now s) :=
  inferInstanceAs (Decidable (_ ≤ _))

def autoshiftEnd (keycode : Keycode) (now : BitVec 16) (matrixTrigger : Bool) (s : Processing) :
    Processing :=
  if s.inProgress ∧ (keycode = s.autoshiftLastkey ∨ keycode = 0) then
    let s := { s with
      inProgress := false
      lastshifted := s.lastshifted || decide (TimedOut now s) }
    let s := setAutoshiftShiftState s.autoshiftLastkey s.lastshifted s
    let s := cancelShift s
    let s := autoshiftPressUser s.autoshiftLastkey s.lastshifted s
    -- the key repeats, and is released later
    if cfg.autoShiftRepeat ∧ ¬ cfg.autoShiftNoAutoRepeat ∧ matrixTrigger then s
    else
      let s := autoshiftReleaseUser s.autoshiftLastkey s.lastshifted s
      let s := autoshiftFlushShift s
      { s with autoshiftTime := now }
  else
    let s := autoshiftReleaseUser keycode (getAutoshiftShiftState keycode s) s
    let s := if keycode = s.autoshiftLastkey then autoshiftFlushShift s else s
    { s with autoshiftTime := now }

def autoshiftMatrixScan (now : BitVec 16) (s : Processing) : Processing :=
  if s.inProgress ∧ TimedOut now s then autoshiftEnd cfg s.autoshiftLastkey now true s else s

def autoshiftToggle (s : Processing) : Processing :=
  autoshiftFlushShift { s with enabled := !s.enabled }

def autoshiftEnable (s : Processing) : Processing := { s with enabled := true }

def autoshiftDisable (s : Processing) : Processing :=
  autoshiftFlushShift { s with enabled := false }

/-- The `switch` of `process_auto_shift`. -/
def modeKey (keycode : Keycode) (s : Processing) : Processing :=
  if keycode = asTogg then autoshiftToggle s
  else if keycode = asOn then autoshiftEnable s
  else if keycode = asOff then autoshiftDisable s
  else if keycode = asUp then { s with autoshiftTimeout := s.autoshiftTimeout + 5 }
  else if keycode = asDown then { s with autoshiftTimeout := s.autoshiftTimeout - 5 }
  else if keycode = asRpt then s.call (.autoshiftTimerReport s.autoshiftTimeout)
  else s

/-- The press of a key in `process_auto_shift`, with whether it is passed on. -/
def pressed (keycode : Keycode) (now : BitVec 16) (s : Processing) : Bool × Processing :=
  let s := if s.inProgress then autoshiftEnd cfg 0 now false s else s
  let s := modeKey keycode s
  if IsRetro keycode then (true, { s with autoshiftLastkey := 0 })
  else if ¬ s.enabled then (true, s)
  else if GetAutoShiftedKey keycode then (false, autoshiftPress cfg keycode now s)
  else (true, { s with autoshiftLastkey := 0 })

/-- The release of a key in `process_auto_shift`, with whether it is passed on. -/
def released (keycode : Keycode) (now : BitVec 16) (s : Processing) : Bool × Processing :=
  if ¬ (keycode = kcLsft ∨ keycode = kcRsft) ∧ IsRetro keycode then (true, s)
  else
    let s :=
      if keycode = kcLsft then { s with cancellingLshift := false }
      else if keycode = kcRsft then { s with cancellingRshift := false }
      else s
    if ¬ s.enabled then (true, s)
    else if GetAutoShiftedKey keycode then (false, autoshiftEnd cfg keycode now false s)
    else (true, s)

def processAutoShift (keycode : Keycode) (press : Bool) (now : BitVec 16) (s : Processing) :
    Bool × Processing :=
  if press then pressed cfg keycode now s else released cfg keycode now s

end AutoShift

section Runs

/-- An event of a key with the tap count of its record, or a call of `autoshift_matrix_scan`, at a
time. -/
inductive Event
  | key (keycode : Keycode) (pressed : Bool) (tapCount : ℕ) (now : BitVec 16)
  | scan (now : BitVec 16)
  deriving DecidableEq

variable (cfg : Config)

def step (e : Event) (s : State) : Processing :=
  match e with
  | .key keycode press tapCount now =>
    let s := Processing.call (.arrives keycode press s.enabled) { toState := s }
    let (further, s) := processAutoShift cfg keycode press now s
    let s :=
      if further then processAction cfg keycode press tapCount (s.call (.passOn keycode press))
      else s
    s.call (.handled keycode press)
  | .scan now => autoshiftMatrixScan cfg now { toState := s }

def start : State where
  autoshiftTimeout := cfg.autoShiftTimeout
  enabled := !cfg.autoShiftDisabledAtStartup

def run (s : State) (events : List Event) : State :=
  events.foldl (fun s e => (step cfg e s).toState) s

/-- The calls of a run. -/
def trace (s : State) : List Event → List Call
  | [] => []
  | e :: events => (step cfg e s).calls ++ trace (step cfg e s).toState events

def downAfter (down : Keycode → Bool) : Event → Keycode → Bool
  | .key keycode press _ _ => Function.update down keycode press
  | .scan _ => down

/-- The presses and releases of each keycode alternate. -/
def Alternating (down : Keycode → Bool) : List Event → Prop
  | [] => True
  | e :: events =>
    (match e with
      | .key keycode press _ _ => down keycode = !press
      | .scan _ => True) ∧
    Alternating (downAfter down e) events

end Runs

section Keys

variable {s t : Processing} {keycode : Keycode}

/-- The key that waits is down, and Auto Shift is enabled. -/
def Waits (down : Keycode → Bool) (s : State) : Prop :=
  s.inProgress = true → s.enabled = true ∧ GetAutoShiftedKey s.autoshiftLastkey ∧
    down s.autoshiftLastkey = true

theorem waits_of_idle {down : Keycode → Bool} {s : State} (h : s.inProgress = false) :
    Waits down s :=
  fun hin => absurd hin (ne_true_of_eq_false h)

theorem GetAutoShiftedKey.isBasic (h : GetAutoShiftedKey keycode) : IsBasic keycode := by
  unfold GetAutoShiftedKey at h
  unfold IsBasic
  bv_omega

theorem GetAutoShiftedKey.lt (h : GetAutoShiftedKey keycode) : keycode < 0xE0 := by
  have hbasic := h.isBasic
  unfold IsBasic at hbasic
  bv_omega

theorem GetAutoShiftedKey.ne_zero (h : GetAutoShiftedKey keycode) : keycode ≠ 0 := by
  rintro rfl
  exact absurd h.isBasic (by decide)

theorem GetAutoShiftedKey.not_isRetro (h : GetAutoShiftedKey keycode) : ¬ IsRetro keycode := by
  have hlt := h.lt
  unfold IsRetro IsModTap IsLayerTap
  bv_omega

theorem GetAutoShiftedKey.ne_mode (h : GetAutoShiftedKey keycode) : keycode < asDown := by
  have hlt := h.lt
  unfold asDown
  bv_omega

theorem update_true (down : Keycode → Bool) (keycode k : Keycode) :
    Function.update down keycode true k = (down k || decide (keycode = k)) := by
  by_cases heq : keycode = k
  · rw [heq, Function.update_self, decide_eq_true rfl, Bool.or_true]
  · rw [Function.update_of_ne (Ne.symm heq), decide_eq_false heq, Bool.or_false]

theorem update_false (down : Keycode → Bool) (keycode k : Keycode) :
    Function.update down keycode false k = (down k && !decide (keycode = k)) := by
  by_cases heq : keycode = k
  · rw [heq, Function.update_self, decide_eq_true rfl, Bool.not_true, Bool.and_false]
  · rw [Function.update_of_ne (Ne.symm heq), decide_eq_false heq, Bool.not_false, Bool.and_true]

theorem update_true_of_down {down : Keycode → Bool} {k : Keycode} (keycode : Keycode)
    (h : down k = true) : Function.update down keycode true k = true := by
  rw [update_true, h, Bool.true_or]

theorem actionFor_autoShifted (h : GetAutoShiftedKey keycode) (tapCount : ℕ) :
    actionFor keycode tapCount = .basic (lowByte keycode) := if_pos h.isBasic

/-- What the handling of the held shift leaves alone. -/
structure SameKeys (s t : Processing) : Prop where
  calls : t.calls = s.calls
  enabled : t.enabled = s.enabled
  inProgress : t.inProgress = s.inProgress
  lastkey : t.autoshiftLastkey = s.autoshiftLastkey

theorem sameKeys_autoshiftFlushShift (s : Processing) : SameKeys s (autoshiftFlushShift s) := by
  unfold autoshiftFlushShift addMods
  dsimp only
  split_ifs <;> exact ⟨rfl, rfl, rfl, rfl⟩

theorem sameKeys_cancelShift (s : Processing) : SameKeys s (cancelShift s) := by
  unfold cancelShift delMods
  dsimp only
  split_ifs <;> exact ⟨rfl, rfl, rfl, rfl⟩

def pressCalls (keycode : Keycode) (shifted : Bool) : List Call :=
  [.autoshiftPressUser keycode shifted, .registerCode (lowByte keycode)]

def releaseCalls (keycode : Keycode) (shifted : Bool) : List Call :=
  [.autoshiftReleaseUser keycode shifted, .unregisterCode (lowByte keycode)]

theorem calls_autoshiftPressUser (shifted : Bool) (s : Processing) :
    (autoshiftPressUser keycode shifted s).calls = s.calls ++ pressCalls keycode shifted :=
  List.append_assoc _ _ _

theorem calls_autoshiftReleaseUser (shifted : Bool) (s : Processing) :
    (autoshiftReleaseUser keycode shifted s).calls = s.calls ++ releaseCalls keycode shifted :=
  List.append_assoc _ _ _

/-- The shift state that the key that waits would get now. -/
def Processing.shiftedAt (now : BitVec 16) (s : Processing) : Bool :=
  s.lastshifted || decide (TimedOut now s)

theorem lastshifted_cancelShift (s : Processing) :
    (cancelShift s).lastshifted = s.lastshifted := by
  unfold cancelShift delMods
  dsimp only
  split_ifs <;> rfl

theorem autoshiftEnd_waiting (cfg : Config) (now : BitVec 16) (trigger : Bool)
    (h : s.inProgress ∧ (keycode = s.autoshiftLastkey ∨ keycode = 0)) :
    (autoshiftEnd cfg keycode now trigger s).enabled = s.enabled ∧
    (autoshiftEnd cfg keycode now trigger s).inProgress = false ∧
    (autoshiftEnd cfg keycode now trigger s).autoshiftLastkey = s.autoshiftLastkey ∧
    (autoshiftEnd cfg keycode now trigger s).calls =
      s.calls ++ pressCalls s.autoshiftLastkey (s.shiftedAt now) ++
        if cfg.autoShiftRepeat ∧ ¬ cfg.autoShiftNoAutoRepeat ∧ trigger then []
        else releaseCalls s.autoshiftLastkey (s.shiftedAt now) := by
  rw [autoshiftEnd, if_pos h]
  extract_lets u v w x y z
  have hw : SameKeys v w := sameKeys_cancelShift v
  have hz : SameKeys y z := sameKeys_autoshiftFlushShift y
  have hshifted : w.lastshifted = s.shiftedAt now := lastshifted_cancelShift v
  have hx : x.calls = s.calls ++ pressCalls s.autoshiftLastkey (s.shiftedAt now) := by
    rw [calls_autoshiftPressUser, hw.calls, hw.lastkey, hshifted]
    rfl
  by_cases hrepeats : cfg.autoShiftRepeat ∧ ¬ cfg.autoShiftNoAutoRepeat ∧ trigger
  · simp only [if_pos hrepeats]
    refine ⟨hw.enabled, hw.inProgress, hw.lastkey, ?_⟩
    rw [hx, List.append_nil]
  · simp only [if_neg hrepeats]
    refine ⟨hz.enabled.trans hw.enabled, hz.inProgress.trans hw.inProgress,
      hz.lastkey.trans hw.lastkey, ?_⟩
    rw [hz.calls, calls_autoshiftReleaseUser, hx]
    change _ ++ releaseCalls w.autoshiftLastkey w.lastshifted = _
    rw [hw.lastkey, hshifted]
    rfl

theorem autoshiftEnd_other (cfg : Config) (now : BitVec 16) (trigger : Bool)
    (h : ¬ (s.inProgress ∧ (keycode = s.autoshiftLastkey ∨ keycode = 0))) :
    (autoshiftEnd cfg keycode now trigger s).enabled = s.enabled ∧
    (autoshiftEnd cfg keycode now trigger s).inProgress = s.inProgress ∧
    (autoshiftEnd cfg keycode now trigger s).autoshiftLastkey = s.autoshiftLastkey ∧
    ∃ shifted, (autoshiftEnd cfg keycode now trigger s).calls =
      s.calls ++ releaseCalls keycode shifted := by
  rw [autoshiftEnd, if_neg h]
  extract_lets u v
  have hv : SameKeys u v := by
    unfold v
    split_ifs
    · exact sameKeys_autoshiftFlushShift u
    · exact ⟨rfl, rfl, rfl, rfl⟩
  refine ⟨hv.enabled, hv.inProgress, hv.lastkey, getAutoshiftShiftState keycode s, ?_⟩
  change v.calls = _
  rw [hv.calls, calls_autoshiftReleaseUser]

theorem released_autoShifted (cfg : Config) (now : BitVec 16) (hkey : GetAutoShiftedKey keycode) :
    released cfg keycode now s =
      if s.enabled then (false, autoshiftEnd cfg keycode now false s) else (true, s) := by
  have hlt := hkey.lt
  have hleft : keycode ≠ kcLsft := by
    rintro rfl
    exact absurd hlt (by decide)
  have hright : keycode ≠ kcRsft := by
    rintro rfl
    exact absurd hlt (by decide)
  rw [released, if_neg fun hretro => hkey.not_isRetro hretro.2]
  dsimp only
  rw [if_neg hleft, if_neg hright, if_pos hkey]
  cases s.enabled <;> rfl

theorem released_other (cfg : Config) (now : BitVec 16) (hkey : ¬ GetAutoShiftedKey keycode)
    (s : Processing) :
    keycode = kcLsft ∧ released cfg keycode now s = (true, { s with cancellingLshift := false }) ∨
    keycode = kcRsft ∧ released cfg keycode now s = (true, { s with cancellingRshift := false }) ∨
    keycode ≠ kcLsft ∧ released cfg keycode now s = (true, s) := by
  by_cases hretro : ¬ (keycode = kcLsft ∨ keycode = kcRsft) ∧ IsRetro keycode
  · exact Or.inr (Or.inr ⟨fun heq => hretro.1 (Or.inl heq), if_pos hretro⟩)
  · rw [released, if_neg hretro]
    simp only [if_neg hkey, ite_self]
    split_ifs with hleft hright
    · exact Or.inl ⟨hleft, rfl⟩
    · exact Or.inr (Or.inl ⟨hright, rfl⟩)
    · exact Or.inr (Or.inr ⟨hleft, rfl⟩)

theorem modeKey_of_lt (h : keycode < asDown) (s : Processing) : modeKey keycode s = s := by
  unfold asDown at h
  have hne (mode : Keycode) (hmode : 0x7C10 ≤ mode) : keycode ≠ mode := by bv_omega
  rw [modeKey, if_neg (hne asTogg (by decide)), if_neg (hne asOn (by decide)),
    if_neg (hne asOff (by decide)), if_neg (hne asUp (by decide)), if_neg (hne asDown (by decide)),
    if_neg (hne asRpt (by decide))]

theorem modeKey_keys (keycode : Keycode) (s : Processing) :
    (modeKey keycode s).inProgress = s.inProgress ∧
    (modeKey keycode s).autoshiftLastkey = s.autoshiftLastkey ∧
    ((modeKey keycode s).calls = s.calls ∨
      (modeKey keycode s).calls = s.calls ++ [.autoshiftTimerReport s.autoshiftTimeout]) := by
  unfold modeKey autoshiftToggle autoshiftDisable autoshiftEnable
  have htoggle := sameKeys_autoshiftFlushShift { s with enabled := !s.enabled }
  have hdisable := sameKeys_autoshiftFlushShift { s with enabled := false }
  split_ifs
  · exact ⟨htoggle.inProgress, htoggle.lastkey, Or.inl htoggle.calls⟩
  · exact ⟨rfl, rfl, Or.inl rfl⟩
  · exact ⟨hdisable.inProgress, hdisable.lastkey, Or.inl hdisable.calls⟩
  · exact ⟨rfl, rfl, Or.inl rfl⟩
  · exact ⟨rfl, rfl, Or.inl rfl⟩
  · exact ⟨rfl, rfl, Or.inr rfl⟩
  · exact ⟨rfl, rfl, Or.inl rfl⟩

def Processing.settled (cfg : Config) (now : BitVec 16) (s : Processing) : Processing :=
  if s.inProgress then autoshiftEnd cfg 0 now false s else s

theorem inProgress_settled (cfg : Config) (now : BitVec 16) (s : Processing) :
    (s.settled cfg now).inProgress = false := by
  unfold Processing.settled
  split_ifs with hin
  · exact (autoshiftEnd_waiting cfg now false ⟨hin, Or.inr rfl⟩).2.1
  · exact eq_false_of_ne_true hin

theorem enabled_settled (cfg : Config) (now : BitVec 16) (s : Processing) :
    (s.settled cfg now).enabled = s.enabled := by
  unfold Processing.settled
  split_ifs with hin
  · exact (autoshiftEnd_waiting cfg now false ⟨hin, Or.inr rfl⟩).1
  · rfl

theorem pressed_autoShifted (cfg : Config) (now : BitVec 16) (hkey : GetAutoShiftedKey keycode) :
    pressed cfg keycode now s =
      if s.enabled then (false, autoshiftPress cfg keycode now (s.settled cfg now))
      else (true, s.settled cfg now) := by
  have hmode := modeKey_of_lt hkey.ne_mode (s.settled cfg now)
  rw [Processing.settled] at hmode
  rw [← enabled_settled cfg now s, Processing.settled, pressed, hmode, if_neg hkey.not_isRetro,
    if_pos hkey]
  generalize (if s.inProgress then autoshiftEnd cfg 0 now false s else s) = u
  cases u.enabled <;> rfl

theorem pressed_other (cfg : Config) (now : BitVec 16) (hkey : ¬ GetAutoShiftedKey keycode)
    (s : Processing) : ∃ last, pressed cfg keycode now s =
      (true, { modeKey keycode (s.settled cfg now) with autoshiftLastkey := last }) := by
  unfold pressed Processing.settled
  dsimp only
  generalize modeKey keycode (if s.inProgress then autoshiftEnd cfg 0 now false s else s) = v
  by_cases hretro : IsRetro keycode
  · exact ⟨0, if_pos hretro⟩
  · rw [if_neg hretro, if_neg hkey]
    by_cases henabled : v.enabled = true
    · exact ⟨0, if_neg (not_not.mpr henabled)⟩
    · exact ⟨v.autoshiftLastkey, if_pos henabled⟩

theorem processAction_keys (cfg : Config) (keycode : Keycode) (press : Bool) (tapCount : ℕ)
    (s : Processing) :
    (processAction cfg keycode press tapCount s).enabled = s.enabled ∧
    (processAction cfg keycode press tapCount s).inProgress = s.inProgress ∧
    (processAction cfg keycode press tapCount s).autoshiftLastkey = s.autoshiftLastkey := by
  unfold processAction
  split
  · exact ⟨rfl, rfl, rfl⟩
  · split_ifs <;> exact ⟨rfl, rfl, rfl⟩
  · exact ⟨rfl, rfl, rfl⟩
  · exact ⟨rfl, rfl, rfl⟩

theorem processAction_calls (cfg : Config) (keycode : Keycode) (press : Bool) (tapCount : ℕ)
    (s : Processing) :
    (∃ code, (GetAutoShiftedKey keycode → code = lowByte keycode) ∧
      (processAction cfg keycode press tapCount s).calls =
        s.calls ++ [if press then .registerCode code else .unregisterCode code]) ∨
    (¬ GetAutoShiftedKey keycode ∧
      (processAction cfg keycode press tapCount s).calls = s.calls) := by
  have hnone {action : Action} (haction : actionFor keycode tapCount = action)
      (hne : action ≠ .basic (lowByte keycode)) : ¬ GetAutoShiftedKey keycode :=
    fun hkey => hne (haction.symm.trans (actionFor_autoShifted hkey tapCount))
  unfold processAction
  cases haction : actionFor keycode tapCount with
  | basic code =>
    refine Or.inl ⟨code, fun hkey => ?_, rfl⟩
    rw [actionFor_autoShifted hkey] at haction
    exact (Action.basic.inj haction).symm
  | mods mods => exact Or.inr ⟨hnone haction (by simp), by cases press <;> rfl⟩
  | none => exact Or.inr ⟨hnone haction (by simp), rfl⟩
  | other => exact Or.inr ⟨hnone haction (by simp), rfl⟩

end Keys

end Qmk.AutoShift
