import Mathlib.Data.List.Induction
import Mathlib.Logic.Function.Basic
import Qmk.Monitor

/-! # Tap dances

`process_tap_dance.c` for any table of tap dances. The user callbacks may set the
`finished` flag of their dance and are a parameter; a null pointer is a callback that
does nothing. `on_dance_finished` finds the flag set, and what `on_reset` sets is
cleared, so their choices do not matter. Calls of callbacks and changes of the modifiers
are collected in a trace.
-/

namespace Qmk.TapDance

structure DanceState where
  interruptingKeycode : UInt16 := 0
  count : UInt8 := 0
  weakMods : UInt8 := 0
  oneshotMods : UInt8 := 0
  pressed : Bool := false
  finished : Bool := false
  interrupted : Bool := false
  deriving DecidableEq, Repr

/-- What a tap dance does: calls of the callbacks of an action, with their choice to finish the
dance, and changes of the modifiers and of the report. -/
inductive Effect
  | eachTap (index : UInt8) (finishes : Bool)
  | eachRelease (index : UInt8) (finishes : Bool)
  | danceFinished (index : UInt8)
  | reset (index : UInt8)
  | addWeakMods (mods : UInt8)
  | addMods (mods : UInt8)
  | delWeakMods (mods : UInt8)
  | delMods (mods : UInt8)
  | clearWeakMods
  | sendKeyboardReport
  deriving DecidableEq, Repr

/-- The choices of the user callbacks to set `finished`. -/
structure Callbacks where
  onEachTap : List Effect → UInt8 → DanceState → Bool
  onEachRelease : List Effect → UInt8 → DanceState → Bool

/-- The states of `tap_dance_actions`, the static variables, and the trace, oldest first. -/
structure State where
  actions : UInt8 → DanceState := fun _ => {}
  activeTd : UInt16 := 0
  lastTapTime : UInt16 := 0
  effects : List Effect := []

/-- `QK_TAP_DANCE ... QK_TAP_DANCE_MAX`. -/
def isTapDance (keycode : UInt16) : Bool := 0x5700 ≤ keycode ∧ keycode ≤ 0x57FF

def tapDanceGetIndex (keycode : UInt16) : UInt8 := (keycode &&& 0xFF).toUInt8

def State.emits (s : State) (es : List Effect) : State := { s with effects := s.effects ++ es }

def State.set (s : State) (i : UInt8) (a : DanceState) : State :=
  { s with actions := Function.update s.actions i a }

variable (cb : Callbacks)

/-- `process_tap_dance_action_on_each_tap`; the modifiers are those that are set at that time. -/
def onEachTap (i : UInt8) (mods weakMods oneshotMods : UInt8) (s : State) : State :=
  let a := s.actions i
  let a := { a with
    count := a.count + 1, weakMods := mods ||| weakMods, oneshotMods := oneshotMods }
  let finishes := cb.onEachTap s.effects i a
  (s.set i { a with finished := a.finished || finishes }).emits [.eachTap i finishes]

/-- `process_tap_dance_action_on_each_release`. -/
def onEachRelease (i : UInt8) (s : State) : State :=
  let a := s.actions i
  let finishes := cb.onEachRelease s.effects i a
  (s.set i { a with finished := a.finished || finishes }).emits [.eachRelease i finishes]

/-- `process_tap_dance_action_on_reset`. -/
def onReset (i : UInt8) (s : State) : State :=
  (s.set i {}).emits [.reset i, .delWeakMods (s.actions i).weakMods,
    .delMods (s.actions i).oneshotMods, .sendKeyboardReport]

def onDanceFinished (i : UInt8) (s : State) : State :=
  let a := s.actions i
  let s := if a.finished then s
    else (s.set i { a with finished := true }).emits [.addWeakMods a.weakMods,
      .addMods a.oneshotMods, .sendKeyboardReport, .danceFinished i]
  let s := { s with activeTd := 0 }
  if (s.actions i).pressed then s else onReset i s

/-- `preprocess_tap_dance`; the result tells whether the keymap has to be looked up again. -/
def preprocessTapDance (keycode : UInt16) (pressed : Bool) (s : State) : Bool × State :=
  if ¬ pressed then (false, s)
  else if s.activeTd = 0 ∨ keycode = s.activeTd then (false, s)
  else
    let i := tapDanceGetIndex s.activeTd
    let s := s.set i { s.actions i with interrupted := true, interruptingKeycode := keycode }
    (true, (onDanceFinished i s).emits [.clearWeakMods])

/-- `process_tap_dance` for a press at the time `now`. -/
def tapDancePressed (keycode : UInt16) (mods weakMods oneshotMods : UInt8) (now : UInt16)
    (s : State) : State :=
  if isTapDance keycode then
    let i := tapDanceGetIndex keycode
    let s := s.set i { s.actions i with pressed := true }
    let s := onEachTap cb i mods weakMods oneshotMods { s with lastTapTime := now }
    { s with activeTd := if (s.actions i).finished then 0 else keycode }
  else s

def tapDanceReleased (keycode : UInt16) (s : State) : State :=
  if isTapDance keycode then
    let i := tapDanceGetIndex keycode
    let s := s.set i { s.actions i with pressed := false }
    let s := onEachRelease cb i s
    if (s.actions i).finished then
      let s := onReset i s
      if s.activeTd = keycode then { s with activeTd := 0 } else s
    else s
  else s

def tapDanceTask (now tappingTerm : UInt16) (s : State) : State :=
  if s.activeTd = 0 ∨ now - s.lastTapTime ≤ tappingTerm then s
  else
    let i := tapDanceGetIndex s.activeTd
    if (s.actions i).interrupted then s else onDanceFinished i s

/-- A press or a release, or the task. A press carries the keycode of the first lookup and the one
of the lookup that is made again, and the modifiers that are set. -/
inductive Input
  | press (cb : Callbacks) (keycode again : UInt16) (mods weakMods oneshotMods : UInt8)
      (now : UInt16)
  | release (cb : Callbacks) (keycode : UInt16)
  | task (now tappingTerm : UInt16)

def processedKeycode (keycode again : UInt16) (s : State) : UInt16 :=
  if (preprocessTapDance keycode true s).1 then again else keycode

/-- One input, as `process_record_quantum` and the main loop pass it. -/
def step (s : State) : Input → State
  | .press cb keycode again mods weakMods oneshotMods now =>
    tapDancePressed cb (processedKeycode keycode again s) mods weakMods oneshotMods now
      (preprocessTapDance keycode true s).2
  | .release cb keycode => tapDanceReleased cb keycode s
  | .task now tappingTerm => tapDanceTask now tappingTerm s

def run (s : State) (inputs : List Input) : State := inputs.foldl step s

section Specification

/-- The state with the tap-dance keycodes that are down. -/
structure Watched where
  state : State := {}
  down : UInt16 → Bool := fun _ => false

/-- The runs in which each tap-dance keycode alternates press and release. -/
def alternating : Monitor Input Watched where
  next q i :=
    { state := step q.state i
      down := match i with
        | .press _ keycode again _ _ _ _ =>
          Function.update q.down (processedKeycode keycode again q.state) true
        | .release _ keycode => Function.update q.down keycode false
        | .task .. => q.down }
  ok q
    | .press _ keycode again _ _ _ _ =>
      isTapDance (processedKeycode keycode again q.state) = true →
        q.down (processedKeycode keycode again q.state) = false
    | .release _ keycode => isTapDance keycode = true → q.down keycode = true
    | .task .. => True

/-- The runs in which no dance is tapped so often that its count overflows. -/
def countsTaps : Monitor Input State where
  next := step
  ok s
    | .press _ keycode _ _ _ _ _ =>
      keycode = s.activeTd → s.activeTd ≠ 0 → (s.actions (tapDanceGetIndex keycode)).count ≠ 255
    | _ => True

inductive Stage
  | idle | running | finished
  deriving DecidableEq, Repr

/-- A dance starts with a tap, is finished once, by a callback that says so or ahead of
`on_dance_finished`, and then reset once. -/
def stages : Monitor Effect (UInt8 → Stage) where
  next q
    | .eachTap i finishes => Function.update q i (if finishes then .finished else .running)
    | .eachRelease i finishes => Function.update q i (if finishes then .finished else q i)
    | .danceFinished i => Function.update q i .finished
    | .reset i => Function.update q i .idle
    | _ => q
  ok q
    | .eachTap i _ => q i ≠ .finished
    | .eachRelease i _ => q i ≠ .idle
    | .danceFinished i => q i = .running
    | .reset i => q i = .finished
    | _ => True

def stagesOf (s : State) : UInt8 → Stage := stages.after (fun _ => .idle) s.effects

/-- The active dance is unfinished and tapped, every other one is untapped or finished and still
held; each dance goes through its stages in order; and a dance whose key is up is reset, at the
latest when its term has passed. -/
structure Lifecycle (inputs : List Input) : Prop where
  active : (run {} inputs).activeTd ≠ 0 →
    ((run {} inputs).actions (tapDanceGetIndex (run {} inputs).activeTd)).finished = false ∧
      0 < ((run {} inputs).actions (tapDanceGetIndex (run {} inputs).activeTd)).count
  others : ∀ i, ((run {} inputs).activeTd ≠ 0 →
      i ≠ tapDanceGetIndex (run {} inputs).activeTd) →
    ((run {} inputs).actions i).count = 0 ∨
      ((run {} inputs).actions i).finished = true ∧ ((run {} inputs).actions i).pressed = true
  stages : stages.Accepts (fun _ => .idle) (run {} inputs).effects
  resets : ∀ keycode now tappingTerm, isTapDance keycode = true →
    (alternating.after {} inputs).down keycode = false →
    tappingTerm < now - (run {} inputs).lastTapTime →
    stagesOf (run {} (inputs ++ [.task now tappingTerm])) (tapDanceGetIndex keycode) = .idle

end Specification

section Invariant

def tapDanceKeycode (i : UInt8) : UInt16 := 0x5700 + i.toUInt16

/-- How a dance stands at its stage; `down` is whether its key is down, and `active` whether it is
the active dance. -/
inductive Fits : Stage → Bool → Bool → DanceState → Prop
  | rest : Fits .idle false false {}
  | running {a : DanceState} (hcount : 0 < a.count) (hfinished : a.finished = false)
      (hinterrupted : a.interrupted = false) : Fits .running a.pressed true a
  | held {a : DanceState} (hfinished : a.finished = true) (hpressed : a.pressed = true) :
      Fits .finished true false a

structure Sound (down : UInt16 → Bool) (s : State) : Prop where
  accepts : stages.Accepts (fun _ => .idle) s.effects
  active : s.activeTd = 0 ∨ ∃ i, s.activeTd = tapDanceKeycode i
  fits : ∀ i, Fits (stagesOf s i) (down (tapDanceKeycode i))
    (decide (s.activeTd = tapDanceKeycode i)) (s.actions i)

section Keycodes

variable {i j : UInt8} {keycode : UInt16}

theorem toNat_tapDanceKeycode (i : UInt8) : (tapDanceKeycode i).toNat = 0x5700 + i.toNat := by
  have := i.toNat_lt
  simp only [tapDanceKeycode, UInt16.toNat_add, UInt8.toNat_toUInt16]
  simp
  omega

theorem tapDanceKeycode_inj : tapDanceKeycode i = tapDanceKeycode j ↔ i = j := by
  constructor
  · intro h
    have := congrArg UInt16.toNat h
    rw [toNat_tapDanceKeycode, toNat_tapDanceKeycode] at this
    exact UInt8.toNat_inj.mp (by omega)
  · rintro rfl
    rfl

theorem tapDanceKeycode_ne_zero (i : UInt8) : tapDanceKeycode i ≠ 0 := by
  intro h
  have := congrArg UInt16.toNat h
  rw [toNat_tapDanceKeycode] at this
  simp at this

theorem tapDanceGetIndex_tapDanceKeycode (i : UInt8) :
    tapDanceGetIndex (tapDanceKeycode i) = i := by
  have := i.toNat_lt
  apply UInt8.toNat_inj.mp
  simp only [tapDanceGetIndex, UInt16.toNat_toUInt8, UInt16.toNat_and, toNat_tapDanceKeycode]
  have hmask : (0xFF : UInt16).toNat = 2 ^ 8 - 1 := rfl
  rw [hmask, Nat.and_two_pow_sub_one_eq_mod]
  omega

theorem isTapDance_tapDanceKeycode (i : UInt8) : isTapDance (tapDanceKeycode i) = true := by
  have := i.toNat_lt
  simp only [isTapDance, UInt16.le_iff_toNat_le, toNat_tapDanceKeycode, decide_eq_true_eq]
  simp
  omega

theorem exists_of_isTapDance (h : isTapDance keycode = true) :
    ∃ i, keycode = tapDanceKeycode i := by
  refine ⟨tapDanceGetIndex keycode, UInt16.toNat_inj.mp ?_⟩
  simp only [isTapDance, UInt16.le_iff_toNat_le, decide_eq_true_eq] at h
  simp at h
  have hmask : (0xFF : UInt16).toNat = 2 ^ 8 - 1 := rfl
  simp only [toNat_tapDanceKeycode, tapDanceGetIndex, UInt16.toNat_toUInt8, UInt16.toNat_and,
    hmask, Nat.and_two_pow_sub_one_eq_mod]
  omega

end Keycodes

section Stages

variable {s : State} {i j : UInt8}

@[simp] theorem stagesOf_emits (es : List Effect) :
    stagesOf (s.emits es) = stages.after (stagesOf s) es := by
  simp [stagesOf, State.emits]

@[simp] theorem stagesOf_set (a : DanceState) : stagesOf (s.set i a) = stagesOf s := rfl

@[simp] theorem actions_set_self (a : DanceState) : (s.set i a).actions i = a := by
  simp [State.set]

theorem actions_set_of_ne (h : j ≠ i) (a : DanceState) : (s.set i a).actions j = s.actions j := by
  simp [State.set, Function.update_of_ne h]

@[simp] theorem actions_emits (es : List Effect) : (s.emits es).actions = s.actions := rfl

@[simp] theorem activeTd_set (a : DanceState) : (s.set i a).activeTd = s.activeTd := rfl

@[simp] theorem activeTd_emits (es : List Effect) : (s.emits es).activeTd = s.activeTd := rfl

variable {st : Stage} {a : DanceState} {down active : Bool}

theorem Fits.of_active (h : Fits st down active a) (hactive : active = true) :
    st = .running ∧ down = a.pressed ∧ 0 < a.count ∧ a.finished = false ∧
      a.interrupted = false := by
  cases h with
  | rest => cases hactive
  | running hcount hfinished hinterrupted => exact ⟨rfl, rfl, hcount, hfinished, hinterrupted⟩
  | held => cases hactive

theorem Fits.of_inactive (h : Fits st down active a) (hactive : active = false) :
    if down then st = .finished ∧ a.finished = true ∧ a.pressed = true
      else st = .idle ∧ a = {} := by
  cases h with
  | rest => exact ⟨rfl, rfl⟩
  | running => cases hactive
  | held hfinished hpressed => exact ⟨rfl, hfinished, hpressed⟩

end Stages

section OneDance

variable {s : State} {i : UInt8} {down : UInt16 → Bool}

/-- The invariant while an input changes the dance `i`: it holds of the others. -/
structure Loose (i : UInt8) (down : UInt16 → Bool) (s : State) : Prop where
  accepts : stages.Accepts (fun _ => .idle) s.effects
  active : s.activeTd = 0 ∨ ∃ j, s.activeTd = tapDanceKeycode j
  fits : ∀ j ≠ i, Fits (stagesOf s j) (down (tapDanceKeycode j))
    (decide (s.activeTd = tapDanceKeycode j)) (s.actions j)

theorem Sound.loose (h : Sound down s) (i : UInt8) : Loose i down s :=
  ⟨h.accepts, h.active, fun j _ => h.fits j⟩

theorem Loose.sound {d : Bool} (h : Loose i down s)
    (hi : Fits (stagesOf s i) d (decide (s.activeTd = tapDanceKeycode i)) (s.actions i)) :
    Sound (Function.update down (tapDanceKeycode i) d) s := by
  refine ⟨h.accepts, h.active, fun j => ?_⟩
  rcases eq_or_ne j i with rfl | hj
  · rwa [Function.update_self]
  · rw [Function.update_of_ne (mt tapDanceKeycode_inj.mp hj)]
    exact h.fits j hj

theorem Loose.set (h : Loose i down s) (a : DanceState) : Loose i down (s.set i a) := by
  refine ⟨h.accepts, h.active, fun j hj => ?_⟩
  rw [stagesOf_set, actions_set_of_ne hj]
  exact h.fits j hj

theorem Loose.emits (h : Loose i down s) {es : List Effect}
    (haccepts : stages.Accepts (stagesOf s) es)
    (hother : ∀ j ≠ i, stages.after (stagesOf s) es j = stagesOf s j) :
    Loose i down (s.emits es) := by
  refine ⟨(stages.accepts_append _ _ _).mpr ⟨h.accepts, haccepts⟩, h.active, fun j hj => ?_⟩
  rw [stagesOf_emits, hother j hj]
  exact h.fits j hj

theorem active_ne {activeTd : UInt16} (hactive : activeTd = 0 ∨ activeTd = tapDanceKeycode i)
    {j : UInt8} (hj : j ≠ i) : activeTd ≠ tapDanceKeycode j := by
  rcases hactive with rfl | rfl
  · exact (tapDanceKeycode_ne_zero j).symm
  · exact fun heq => hj (tapDanceKeycode_inj.mp heq).symm

theorem Loose.withActive (h : Loose i down s)
    (hactive : s.activeTd = 0 ∨ s.activeTd = tapDanceKeycode i) {keycode : UInt16}
    (hkeycode : keycode = 0 ∨ keycode = tapDanceKeycode i) :
    Loose i down { s with activeTd := keycode } := by
  refine ⟨h.accepts, hkeycode.imp_right fun heq => ⟨i, heq⟩, fun j hj => ?_⟩
  have := h.fits j hj
  rw [decide_eq_false (active_ne hactive hj)] at this
  rwa [decide_eq_false (active_ne hkeycode hj)]

variable (cb : Callbacks)

theorem Loose.eachTap (h : Loose i down s) (hstage : stagesOf s i ≠ .finished)
    (mods weakMods oneshotMods : UInt8) : ∃ finishes : Bool,
      Loose i down (onEachTap cb i mods weakMods oneshotMods s) ∧
      stagesOf (onEachTap cb i mods weakMods oneshotMods s) i =
        (if finishes then .finished else .running) ∧
      (onEachTap cb i mods weakMods oneshotMods s).actions i = { s.actions i with
        count := (s.actions i).count + 1
        weakMods := mods ||| weakMods
        oneshotMods := oneshotMods
        finished := (s.actions i).finished || finishes } := by
  refine ⟨cb.onEachTap s.effects i { s.actions i with
    count := (s.actions i).count + 1
    weakMods := mods ||| weakMods
    oneshotMods := oneshotMods }, (h.set _).emits ?_ ?_, ?_, ?_⟩
  · simpa [stages] using hstage
  · intro j hj
    simp [stages, Function.update_of_ne hj]
  · simp [onEachTap, stages]
  · simp [onEachTap]

theorem Loose.eachRelease (h : Loose i down s) (hstage : stagesOf s i ≠ .idle) :
    ∃ finishes : Bool, Loose i down (onEachRelease cb i s) ∧
      stagesOf (onEachRelease cb i s) i = (if finishes then .finished else stagesOf s i) ∧
      (onEachRelease cb i s).actions i =
        { s.actions i with finished := (s.actions i).finished || finishes } := by
  refine ⟨cb.onEachRelease s.effects i (s.actions i), (h.set _).emits ?_ ?_, ?_, ?_⟩
  · simpa [stages] using hstage
  · intro j hj
    simp [stages, Function.update_of_ne hj]
  · simp [onEachRelease, stages]
  · simp [onEachRelease]

theorem Loose.reset (h : Loose i down s) (hstage : stagesOf s i = .finished) :
    Loose i down (onReset i s) ∧ stagesOf (onReset i s) i = .idle ∧
      (onReset i s).actions i = {} := by
  refine ⟨(h.set _).emits ?_ ?_, ?_, ?_⟩
  · simpa [stages] using hstage
  · intro j hj
    simp [stages, Function.update_of_ne hj]
  · simp [onReset, stages]
  · simp [onReset]

theorem Loose.finish (h : Loose i down s) (hactive : s.activeTd = tapDanceKeycode i)
    (hstage : stagesOf s i = .running)
    (hfinished : (s.actions i).finished = false) :
    Sound (Function.update down (tapDanceKeycode i) (s.actions i).pressed) (onDanceFinished i s) ∧
      (onDanceFinished i s).activeTd = 0 := by
  set a := s.actions i with ha
  set u := (s.set i { a with finished := true }).emits [.addWeakMods a.weakMods,
    .addMods a.oneshotMods, .sendKeyboardReport, .danceFinished i] with hu
  set t : State := { u with activeTd := 0 } with ht
  have hloose : Loose i down t := by
    refine Loose.withActive (s := u) ?_ (Or.inr hactive) (Or.inl rfl)
    apply (h.set _).emits
    · simpa [stages] using hstage
    · intro j hj
      simp [stages, Function.update_of_ne hj]
  have hstaged : stagesOf t i = .finished := by
    change stagesOf u i = _
    simp [hu, stages]
  have hactions : t.actions i = { a with finished := true } := by
    change u.actions i = _
    simp [hu]
  have hnone : (0 : UInt16) ≠ tapDanceKeycode i := (tapDanceKeycode_ne_zero i).symm
  have heq : onDanceFinished i s = if a.pressed then t else onReset i t := by
    simp only [onDanceFinished, ← ha, hfinished, Bool.false_eq_true, if_false]
    rw [← hu, ← ht, hactions]
  cases hpressed : a.pressed with
  | true =>
    rw [heq, if_pos hpressed]
    refine ⟨hloose.sound ?_, rfl⟩
    rw [hstaged, hactions, decide_eq_false hnone]
    exact .held rfl hpressed
  | false =>
    rw [heq, if_neg (by simp [hpressed])]
    obtain ⟨hreset, hidle, hrest⟩ := hloose.reset hstaged
    refine ⟨hreset.sound ?_, rfl⟩
    have hinactive : (onReset i t).activeTd = 0 := rfl
    rw [hidle, hrest, hinactive, decide_eq_false hnone]
    exact .rest

end OneDance

section Inputs

variable {s : State} {i : UInt8} {down : UInt16 → Bool} {keycode : UInt16}

theorem sound_nil : Sound (fun _ => false) {} :=
  ⟨trivial, Or.inl rfl, fun i => by
    rw [decide_eq_false (tapDanceKeycode_ne_zero i).symm]
    exact .rest⟩

theorem Sound.congr {down' : UInt16 → Bool} (h : Sound down s)
    (hdown : ∀ i, down' (tapDanceKeycode i) = down (tapDanceKeycode i)) : Sound down' s :=
  ⟨h.accepts, h.active, fun i => by
    rw [hdown]
    exact h.fits i⟩

theorem Sound.running (h : Sound down s) (hactive : s.activeTd = tapDanceKeycode i) :
    stagesOf s i = .running ∧ down (tapDanceKeycode i) = (s.actions i).pressed ∧
      0 < (s.actions i).count ∧ (s.actions i).finished = false ∧
      (s.actions i).interrupted = false :=
  (h.fits i).of_active (decide_eq_true hactive)

theorem Sound.finish (h : Sound down s) (hactive : s.activeTd = tapDanceKeycode i) {a : DanceState}
    (hpressed : a.pressed = (s.actions i).pressed) (hfinished : a.finished = false) :
    Sound down (onDanceFinished i (s.set i a)) ∧
      (onDanceFinished i (s.set i a)).activeTd = 0 := by
  obtain ⟨hstage, hdown, -, -, -⟩ := h.running hactive
  obtain ⟨hsound, hnone⟩ := ((h.loose i).set a).finish hactive (by simpa using hstage)
    (by simpa using hfinished)
  refine ⟨hsound.congr fun j => ?_, hnone⟩
  rw [actions_set_self, hpressed, ← hdown, Function.update_eq_self]

theorem Sound.task (h : Sound down s) (now tappingTerm : UInt16) :
    Sound down (tapDanceTask now tappingTerm s) ∧
      (tappingTerm < now - s.lastTapTime → (tapDanceTask now tappingTerm s).activeTd = 0) := by
  unfold tapDanceTask
  by_cases hquiet : s.activeTd = 0 ∨ now - s.lastTapTime ≤ tappingTerm
  · rw [if_pos hquiet]
    exact ⟨h, fun hlt => hquiet.resolve_right (UInt16.not_le.mpr hlt)⟩
  · rcases h.active with h0 | ⟨i, hactive⟩
    · exact absurd (Or.inl h0) hquiet
    · obtain ⟨-, -, -, hfinished, hinterrupted⟩ := h.running hactive
      have hself : s.set i (s.actions i) = s := by
        simp [State.set]
      have := h.finish hactive rfl hfinished
      rw [hself] at this
      rw [if_neg hquiet]
      simp only [hactive, tapDanceGetIndex_tapDanceKeycode, hinterrupted, Bool.false_eq_true,
        if_false]
      exact ⟨this.1, fun _ => this.2⟩

theorem Sound.clearWeakMods (h : Sound down s) : Sound down (s.emits [.clearWeakMods]) := by
  refine ⟨(stages.accepts_append _ _ _).mpr ⟨h.accepts, trivial, trivial⟩, h.active, ?_⟩
  intro j
  rw [stagesOf_emits]
  exact h.fits j

/-- After `preprocess_tap_dance` there is no active dance but the one of the key. -/
theorem Sound.preprocess (h : Sound down s) (keycode : UInt16) :
    Sound down (preprocessTapDance keycode true s).2 ∧
      ((preprocessTapDance keycode true s).2.activeTd = 0 ∨
        preprocessTapDance keycode true s = (false, s) ∧ keycode = s.activeTd) := by
  unfold preprocessTapDance
  by_cases hquiet : s.activeTd = 0 ∨ keycode = s.activeTd
  · simp only [hquiet, not_true_eq_false, if_false, if_true]
    exact ⟨h, hquiet.imp_right fun hkeycode => ⟨trivial, hkeycode⟩⟩
  · simp only [hquiet, not_true_eq_false, if_false]
    rcases h.active with h0 | ⟨i, hactive⟩
    · exact absurd (Or.inl h0) hquiet
    · obtain ⟨-, -, -, hfinished, -⟩ := h.running hactive
      rw [hactive, tapDanceGetIndex_tapDanceKeycode]
      obtain ⟨hsound, hnone⟩ := h.finish hactive
        (a := { s.actions i with interrupted := true, interruptingKeycode := keycode }) rfl
        hfinished
      exact ⟨hsound.clearWeakMods, Or.inl hnone⟩

/-- A tap-dance key that is up is pressed, when no other dance is active. -/
theorem Sound.press (h : Sound down s) (cb : Callbacks) (mods weakMods oneshotMods : UInt8)
    (now : UInt16) (hactive : s.activeTd = 0 ∨ s.activeTd = tapDanceKeycode i)
    (hup : down (tapDanceKeycode i) = false)
    (hcount : s.activeTd = tapDanceKeycode i → (s.actions i).count ≠ 255) :
    Sound (Function.update down (tapDanceKeycode i) true)
      (tapDancePressed cb (tapDanceKeycode i) mods weakMods oneshotMods now s) := by
  have hbefore : stagesOf s i ≠ .finished ∧ (s.actions i).finished = false ∧
      (s.actions i).interrupted = false ∧ (s.actions i).count ≠ 255 := by
    rcases hactive with h0 | hi
    · have hrest := (h.fits i).of_inactive
        (decide_eq_false (by rw [h0]; exact (tapDanceKeycode_ne_zero i).symm))
      rw [hup, if_neg Bool.false_ne_true] at hrest
      simp [hrest.1, hrest.2]
    · obtain ⟨hstage, -, -, hfinished, hinterrupted⟩ := h.running hi
      exact ⟨by simp [hstage], hfinished, hinterrupted, hcount hi⟩
  obtain ⟨hstage, hfinished, hinterrupted, hcount⟩ := hbefore
  have hpos : 0 < (s.actions i).count + 1 := by
    have hlt := (s.actions i).count.toNat_lt
    have hne : (s.actions i).count.toNat ≠ 255 := fun heq => hcount (UInt8.toNat_inj.mp heq)
    rw [UInt8.lt_iff_toNat_lt, UInt8.toNat_add]
    simp
    omega
  set t : State := { s.set i { s.actions i with pressed := true } with lastTapTime := now } with ht
  have hloose : Loose i down t :=
    let hset := (h.loose i).set { s.actions i with pressed := true }
    ⟨hset.accepts, hset.active, hset.fits⟩
  have hsame : t.actions i = { s.actions i with pressed := true } := by
    simp [ht, State.set]
  obtain ⟨finishes, hu, hstaged, hactions⟩ :=
    hloose.eachTap cb hstage mods weakMods oneshotMods
  set u := onEachTap cb i mods weakMods oneshotMods t with hudef
  have heq : tapDancePressed cb (tapDanceKeycode i) mods weakMods oneshotMods now s =
      { u with activeTd := if (u.actions i).finished then 0 else tapDanceKeycode i } := by
    simp only [tapDancePressed, isTapDance_tapDanceKeycode, if_true,
      tapDanceGetIndex_tapDanceKeycode]
    rfl
  have hflag : (u.actions i).finished = finishes := by
    rw [hactions, hsame, hfinished]
    exact Bool.false_or finishes
  rw [heq, hflag]
  cases finishes with
  | true =>
    refine (hu.withActive hactive (Or.inl rfl)).sound ?_
    rw [decide_eq_false (tapDanceKeycode_ne_zero i).symm]
    change Fits (stagesOf u i) true false (u.actions i)
    rw [hstaged]
    exact .held hflag (by rw [hactions, hsame])
  | false =>
    refine (hu.withActive hactive (Or.inr rfl)).sound ?_
    have hpressed : (u.actions i).pressed = true := by rw [hactions, hsame]
    rw [decide_eq_true rfl]
    change Fits (stagesOf u i) true true (u.actions i)
    have hfits := Fits.running (a := u.actions i) (by rw [hactions, hsame]; exact hpos) hflag
      (by rw [hactions, hsame]; exact hinterrupted)
    rw [hpressed] at hfits
    rwa [hstaged]

theorem Sound.release (h : Sound down s) (cb : Callbacks)
    (hdown : down (tapDanceKeycode i) = true) :
    Sound (Function.update down (tapDanceKeycode i) false)
      (tapDanceReleased cb (tapDanceKeycode i) s) := by
  have hbefore : if (s.actions i).finished then
      stagesOf s i = .finished ∧ s.activeTd ≠ tapDanceKeycode i
      else stagesOf s i = .running ∧ s.activeTd = tapDanceKeycode i ∧ 0 < (s.actions i).count ∧
        (s.actions i).interrupted = false := by
    by_cases hactive : s.activeTd = tapDanceKeycode i
    · obtain ⟨hstage, -, hcount, hfinished, hinterrupted⟩ := h.running hactive
      simp [hfinished, hstage, hactive, hcount, hinterrupted]
    · have hheld := (h.fits i).of_inactive (decide_eq_false hactive)
      rw [hdown, if_pos rfl] at hheld
      simp [hheld.1, hheld.2.1, hactive]
  set t := s.set i { s.actions i with pressed := false } with ht
  have hsame : t.actions i = { s.actions i with pressed := false } := by
    simp [ht]
  have hstage : stagesOf t i ≠ .idle := by
    change stagesOf s i ≠ .idle
    cases hfinished : (s.actions i).finished <;> simp_all
  obtain ⟨finishes, hu, hstaged, hactions⟩ := ((h.loose i).set _).eachRelease cb hstage
  rw [← ht, hsame] at hactions
  rw [← ht] at hu hstaged
  change stagesOf _ i = if finishes then .finished else stagesOf s i at hstaged
  set u := onEachRelease cb i t with hudef
  have heq : tapDanceReleased cb (tapDanceKeycode i) s = if (u.actions i).finished then
      (if s.activeTd = tapDanceKeycode i then { onReset i u with activeTd := 0 } else onReset i u)
      else u := by
    simp only [tapDanceReleased, isTapDance_tapDanceKeycode, if_true,
      tapDanceGetIndex_tapDanceKeycode]
    rfl
  have hflag : (u.actions i).finished = ((s.actions i).finished || finishes) := by
    rw [hactions]
  rw [heq]
  cases hfinished : (u.actions i).finished with
  | true =>
    have hdone : stagesOf u i = .finished := by
      cases finishes with
      | true => exact hstaged
      | false =>
        rw [hfinished, Bool.or_false] at hflag
        rw [← hflag, if_pos rfl] at hbefore
        rw [hstaged]
        exact hbefore.1
    obtain ⟨hreset, hidle, hrest⟩ := hu.reset hdone
    rw [if_pos rfl]
    split_ifs with hactive
    · refine (hreset.withActive (Or.inr hactive) (Or.inl rfl)).sound ?_
      rw [decide_eq_false (tapDanceKeycode_ne_zero i).symm]
      change Fits (stagesOf (onReset i u) i) false false ((onReset i u).actions i)
      rw [hidle, hrest]
      exact .rest
    · apply hreset.sound
      rw [hidle, hrest, decide_eq_false (show (onReset i u).activeTd ≠ _ from hactive)]
      exact .rest
  | false =>
    rw [hfinished] at hflag
    obtain ⟨hopen, hkept⟩ := Bool.or_eq_false_iff.mp hflag.symm
    rw [hopen, if_neg Bool.false_ne_true] at hbefore
    obtain ⟨hrunning, hactive, hcount, hinterrupted⟩ := hbefore
    rw [hkept, if_neg Bool.false_ne_true, hrunning] at hstaged
    rw [if_neg Bool.false_ne_true]
    apply hu.sound
    have hfits := Fits.running (a := u.actions i) (by rw [hactions]; exact hcount) hfinished
      (by rw [hactions]; exact hinterrupted)
    have hpressed : (u.actions i).pressed = false := by rw [hactions]
    rw [hpressed] at hfits
    rwa [hstaged, decide_eq_true (show u.activeTd = _ from hactive)]

end Inputs

section Runs

theorem Sound.step {q : Watched} (h : Sound q.down q.state) (i : Input) (hok : alternating.ok q i)
    (hcounts : countsTaps.ok q.state i) :
    Sound (alternating.next q i).down (alternating.next q i).state := by
  -- a keycode that is no tap dance does nothing, and the invariant does not ask for its key
  have hother : ∀ {s : State} {keycode : UInt16} {d : Bool}, Sound q.down s →
      ¬ isTapDance keycode → Sound (Function.update q.down keycode d) s := by
    intro s keycode d hs hno
    refine hs.congr fun j => Function.update_of_ne (fun heq => hno ?_) _ _
    rw [← heq]
    exact isTapDance_tapDanceKeycode j
  cases i with
  | task now tappingTerm => exact (h.task now tappingTerm).1
  | release cb keycode =>
    simp only [alternating, TapDance.step] at hok ⊢
    by_cases htap : isTapDance keycode
    · obtain ⟨i, rfl⟩ := exists_of_isTapDance htap
      exact h.release cb (hok htap)
    · rw [tapDanceReleased, if_neg htap]
      exact hother h htap
  | press cb keycode again mods weakMods oneshotMods now =>
    simp only [alternating, countsTaps, TapDance.step] at hok hcounts ⊢
    obtain ⟨ht, hactive⟩ := h.preprocess keycode
    by_cases htap : isTapDance (processedKeycode keycode again q.state)
    · obtain ⟨i, hi⟩ := exists_of_isTapDance htap
      have hup := hok htap
      rw [hi] at hup ⊢
      -- the dance that is still active is that of the key, which is not looked up again
      have hsame : (preprocessTapDance keycode true q.state).2.activeTd ≠ 0 →
          (preprocessTapDance keycode true q.state).2 = q.state ∧ keycode = tapDanceKeycode i ∧
            q.state.activeTd = tapDanceKeycode i := by
        intro hne
        obtain ⟨heq, hkeycode⟩ := hactive.resolve_left hne
        rw [processedKeycode, heq, if_neg Bool.false_ne_true] at hi
        exact ⟨by rw [heq], hi, by rw [← hkeycode, hi]⟩
      refine ht.press cb mods weakMods oneshotMods now ?_ hup ?_
      · by_cases hnone : (preprocessTapDance keycode true q.state).2.activeTd = 0
        · exact Or.inl hnone
        · obtain ⟨heq, -, hi⟩ := hsame hnone
          exact Or.inr (by rw [heq, hi])
      · intro hi
        obtain ⟨heq, hkeycode, hactive⟩ := hsame (by rw [hi]; exact tapDanceKeycode_ne_zero i)
        rw [hkeycode, hactive, tapDanceGetIndex_tapDanceKeycode] at hcounts
        rw [heq]
        exact hcounts rfl (tapDanceKeycode_ne_zero i)
    · rw [tapDancePressed, if_neg htap]
      exact hother ht htap

theorem Sound.run {inputs : List Input} {q : Watched} (h : Sound q.down q.state)
    (halternating : alternating.Accepts q inputs) (hcounts : countsTaps.Accepts q.state inputs) :
    Sound (alternating.after q inputs).down (run q.state inputs) := by
  induction inputs generalizing q with
  | nil => exact h
  | cons i inputs ih => exact ih (h.step i halternating.1 hcounts.1) halternating.2 hcounts.2

/-- Every dance goes through its life in order, when no dance is tapped 256 times. -/
theorem lifecycle (inputs : List Input) (halternating : alternating.Accepts {} inputs)
    (hcounts : countsTaps.Accepts {} inputs) : Lifecycle inputs := by
  have h := Sound.run (q := {}) sound_nil halternating hcounts
  refine ⟨fun hne => ?_, fun i hi => ?_, h.accepts, fun keycode now tappingTerm htap hup hlt => ?_⟩
  · obtain ⟨i, hactive⟩ := h.active.resolve_left hne
    obtain ⟨-, -, hcount, hfinished, -⟩ := h.running hactive
    change (run {} inputs).activeTd = _ at hactive
    rw [hactive, tapDanceGetIndex_tapDanceKeycode]
    exact ⟨hfinished, hcount⟩
  · have hinactive : (run {} inputs).activeTd ≠ tapDanceKeycode i := by
      intro heq
      rw [heq, tapDanceGetIndex_tapDanceKeycode] at hi
      exact hi (tapDanceKeycode_ne_zero i) rfl
    have hfits := (h.fits i).of_inactive (decide_eq_false hinactive)
    split_ifs at hfits with hdown
    · exact Or.inr hfits.2
    · refine Or.inl ?_
      rw [show (run {} inputs).actions i = {} from hfits.2]
  · obtain ⟨i, rfl⟩ := exists_of_isTapDance htap
    rw [tapDanceGetIndex_tapDanceKeycode]
    have hrun : run {} (inputs ++ [.task now tappingTerm]) =
        tapDanceTask now tappingTerm (run {} inputs) := by
      simp [TapDance.run, TapDance.step]
    obtain ⟨htask, hnone⟩ := h.task now tappingTerm
    have hfits := (htask.fits i).of_inactive
      (decide_eq_false (by rw [hnone hlt]; exact (tapDanceKeycode_ne_zero i).symm))
    rw [hup, if_neg Bool.false_ne_true] at hfits
    rw [hrun]
    exact hfits.1

end Runs

end Invariant

section Overflow

/-- The callbacks that leave the dance alone. -/
def noCallbacks : Callbacks where
  onEachTap _ _ _ := false
  onEachRelease _ _ _ := false

/-- One tap of the first tap dance. -/
def tap : List Input :=
  [.press noCallbacks 0x5700 0x5700 0 0 0 0, .release noCallbacks 0x5700]

/-- A dance that is held while another key interrupts it, and released after that. -/
theorem lifecycle_interrupted : Lifecycle [.press noCallbacks 0x5700 0x5700 0 0 0 10,
    .press noCallbacks 0x0004 0x0005 0 0 0 20, .release noCallbacks 0x5700] :=
  lifecycle _ ⟨fun _ => rfl, fun _ => rfl, fun _ => rfl, trivial⟩
    ⟨fun _ h => absurd rfl h, fun h => absurd h (by decide), trivial, trivial⟩

theorem after_tap {q : Watched} {count : UInt8}
    (hactive : q.state.activeTd = 0 ∨ q.state.activeTd = 0x5700)
    (hactions : q.state.actions 0 = { count }) (hup : q.down 0x5700 = false) :
    alternating.Accepts q tap ∧ (alternating.after q tap).state.activeTd = 0x5700 ∧
      (alternating.after q tap).state.actions 0 = { count := count + 1 } ∧
      (alternating.after q tap).down 0x5700 = false := by
  have hquiet : preprocessTapDance 0x5700 true q.state = (false, q.state) := by
    rcases hactive with h | h <;> simp [preprocessTapDance, h]
  have hindex : tapDanceGetIndex 0x5700 = 0 := by decide
  have htap : isTapDance 0x5700 = true := by decide
  simp [tap, alternating, step, processedKeycode, hquiet, hup, htap, tapDancePressed, hindex,
    onEachTap, noCallbacks, tapDanceReleased, onEachRelease, hactions]

theorem after_taps (n : ℕ) :
    alternating.Accepts {} (List.replicate (n + 1) tap).flatten ∧
      (alternating.after {} (List.replicate (n + 1) tap).flatten).state.activeTd = 0x5700 ∧
      (alternating.after {} (List.replicate (n + 1) tap).flatten).state.actions 0 =
        { count := UInt8.ofNat (n + 1) } ∧
      (alternating.after {} (List.replicate (n + 1) tap).flatten).down 0x5700 = false := by
  induction n with
  | zero => simpa using after_tap (q := {}) (Or.inl rfl) rfl rfl
  | succ n ih =>
    obtain ⟨haccepts, hactive, hactions, hup⟩ := ih
    have := after_tap (Or.inr hactive) hactions hup
    rw [List.replicate_succ', List.flatten_append]
    simpa [haccepts] using this

theorem state_after (q : Watched) (inputs : List Input) :
    (alternating.after q inputs).state = run q.state inputs := by
  induction inputs generalizing q with
  | nil => rfl
  | cons i inputs ih => exact ih _

theorem not_lifecycle_taps {n : ℕ} (hn : UInt8.ofNat (n + 1) = 0) :
    ¬ Lifecycle (List.replicate (n + 1) tap).flatten := by
  intro h
  obtain ⟨-, hactive, hactions, -⟩ := after_taps n
  rw [state_after] at hactive hactions
  have hcount := (h.active (by rw [hactive]; decide)).2
  rw [hactive, show tapDanceGetIndex 0x5700 = 0 by decide, hactions, hn] at hcount
  exact absurd hcount (by decide)

/-- After 256 taps the dance is active with a count of zero. -/
theorem taps_overflow : alternating.Accepts {} (List.replicate 256 tap).flatten ∧
    ¬ Lifecycle (List.replicate 256 tap).flatten :=
  ⟨(after_taps 255).1, not_lifecycle_taps (n := 255) (by decide)⟩

end Overflow

end Qmk.TapDance
