import Qmk.Monitor
import Qmk.Tapping.Engine

/-! # Achordion

`process_achordion.c` holds back the press of a tap-hold key until it is settled as
tapped or held, and then plumbs events for it. The callbacks are a parameter, and
what leaves Achordion is collected in a trace. `process_record` gets a pointer to the
stored record and may write to it: with `HOLD_ON_OTHER_KEY_PRESS` the tap press becomes
a hold on the way, and its release is plumbed as that of a hold.
-/

namespace Qmk.Achordion

open Tapping (Keyrecord Keyevent timerDiff16)

inductive Status
  | unsettled | released | tapping | holding | recursing
  deriving DecidableEq, Repr

/-- What leaves Achordion: records that it plumbs for its tap-hold key, records that it lets through
to the default handling or processes again, and changes of the modifiers. -/
inductive Effect
  | plumb (keycode : UInt16) (record : Keyrecord)
  | handle (keycode : UInt16) (record : Keyrecord)
  | registerMods (mods : UInt8)
  | unregisterMods (mods : UInt8)
  | sendKeyboardReport
  deriving DecidableEq, Repr

/-- The answers of the callbacks and of `mod_config`, and how `process_action` takes a press:
`holdOnOtherKeyPress` says that it gets to the default case for mod-tap keys in a build with
`HOLD_ON_OTHER_KEY_PRESS`, where the callback agrees if it is built in, and `doReleaseOneshot` that
the press ends a one-shot layer. -/
structure Decisions where
  achordionTimeout : UInt16 → UInt16
  achordionEagerMod : UInt8 → Bool
  achordionChord : UInt16 → Keyrecord → UInt16 → Keyrecord → Bool
  modConfig : UInt8 → UInt8
  holdOnOtherKeyPress : UInt16 → Keyrecord → Bool
  doReleaseOneshot : UInt16 → Keyrecord → Bool

/-- The static variables and the trace, oldest first. -/
structure State where
  tapHoldRecord : Keyrecord := .none
  tapHoldKeycode : UInt16 := 0
  holdTimer : UInt16 := 0
  eagerMods : UInt8 := 0
  achordionState : Status := .released
  effects : List Effect := []

def isModTap (keycode : UInt16) : Bool := 0x2000 ≤ keycode ∧ keycode ≤ 0x3FFF

def isLayerTap (keycode : UInt16) : Bool := 0x4000 ≤ keycode ∧ keycode ≤ 0x4FFF

def modTapGetMods (keycode : UInt16) : UInt8 := ((keycode >>> 8) &&& 0x1F).toUInt8

def timerExpired (current future : UInt16) : Bool := timerDiff16 current future < 32767

def isKeyevent (e : Keyevent) : Bool := e.type = .key

def Keyrecord.withPressed (r : Keyrecord) (pressed : Bool) : Keyrecord :=
  { r with event := { r.event with pressed := pressed } }

def State.emit (s : State) (effect : Effect) : State := { s with effects := s.effects ++ [effect] }

/-- `recursively_process_record`. The nested call of `process_achordion` finds the state recursing
and lets the record through. -/
def recursivelyProcessRecord (effect : Effect) (status : Status) (s : State) : State :=
  { ({ s with achordionState := .recursing } : State).emit effect with achordionState := status }

def clearEagerMods (s : State) : State :=
  { s.emit (.unregisterMods s.eagerMods) with eagerMods := 0 }

variable (d : Decisions)

/-- `process_action` takes the press of an interrupted tap as a hold. -/
def cancelsTap (keycode : UInt16) (record : Keyrecord) : Bool :=
  record.event.pressed ∧ 0 < record.tap.count ∧ record.tap.interrupted ∧
    d.holdOnOtherKeyPress keycode record

def processRecord (keycode : UInt16) (record : Keyrecord) : Keyrecord :=
  let record := if cancelsTap d keycode record then record.withCount 0 else record
  if record.event.pressed ∧ d.doReleaseOneshot keycode record then
    Keyrecord.withPressed record false
  else record

def plumbTapHold (status : Status) (s : State) : State :=
  let s := recursivelyProcessRecord (.plumb s.tapHoldKeycode s.tapHoldRecord) status s
  { s with tapHoldRecord := processRecord d s.tapHoldKeycode s.tapHoldRecord }

def settleAsHold (s : State) : State := plumbTapHold d .holding (clearEagerMods s)

def Keyrecord.tapped (r : Keyrecord) : Keyrecord :=
  { r with tap := { count := 1, interrupted := true } }

def settleAsTap (s : State) : State :=
  let s := clearEagerMods s
  let s := plumbTapHold d .tapping { s with tapHoldRecord := Keyrecord.tapped s.tapHoldRecord }
  let s := s.emit .sendKeyboardReport
  plumbTapHold d .tapping { s with tapHoldRecord := Keyrecord.withPressed s.tapHoldRecord false }

/-- A tap-hold key is pressed while Achordion is inactive. -/
def startUnsettled (keycode : UInt16) (record : Keyrecord) (timeout : UInt16) (s : State) : State :=
  let s := { s with
    achordionState := .unsettled
    tapHoldKeycode := keycode
    tapHoldRecord := record
    holdTimer := record.event.time + timeout }
  if isModTap keycode then
    let mod := d.modConfig (modTapGetMods keycode)
    if d.achordionEagerMod mod then
      let s := { s with eagerMods := if mod &&& 0x10 = 0 then mod else mod <<< 4 }
      s.emit (.registerMods s.eagerMods)
    else s
  else s

def releaseTapHold (keycode : UInt16) (s : State) : State :=
  let s := if s.achordionState = .holding then
      plumbTapHold d .released
        { s with tapHoldRecord := Keyrecord.withPressed s.tapHoldRecord false }
    else if isModTap keycode then clearEagerMods s
    else s
  { s with achordionState := .released }

def pressHolds (keycode : UInt16) (record : Keyrecord) (s : State) : Bool :=
  let isTapHold := isModTap keycode || isLayerTap keycode
  ¬ isKeyevent record.event ∨ (isTapHold ∧ record.tap.count = 0) ∨
    d.achordionChord s.tapHoldKeycode s.tapHoldRecord keycode record

/-- Another key is pressed while the tap-hold key is unsettled. -/
def settleByPress (keycode : UInt16) (record : Keyrecord) (s : State) : State :=
  let s := if pressHolds d keycode record s then settleAsHold d s else settleAsTap d s
  recursivelyProcessRecord (.handle keycode record) s.achordionState s

/-- `process_achordion`; the result tells whether the default handling follows. -/
def processAchordion (keycode : UInt16) (record : Keyrecord) (s : State) : Bool × State :=
  if s.achordionState = .recursing then (true, s)
  else if s.achordionState = .released then
    if (isModTap keycode || isLayerTap keycode) ∧ record.tap.count = 0 ∧ record.event.pressed ∧
        isKeyevent record.event then
      let timeout := d.achordionTimeout keycode
      if 0 < timeout then (false, startUnsettled d keycode record timeout s) else (true, s)
    else (true, s)
  else if keycode = s.tapHoldKeycode ∧ ¬ record.event.pressed then
    (false, releaseTapHold d keycode s)
  else if s.achordionState = .unsettled ∧ record.event.pressed then
    (false, settleByPress d keycode record s)
  else (true, s)

def achordionTask (now : UInt16) (s : State) : State :=
  if s.achordionState = .unsettled ∧ timerExpired now s.holdTimer then settleAsHold d s else s

/-- An event of the key that stands for `keycode`, or the task. -/
inductive Input
  | event (d : Decisions) (keycode : UInt16) (record : Keyrecord)
  | task (d : Decisions) (now : UInt16)

def step (s : State) : Input → State
  | .event d keycode record =>
    let r := processAchordion d keycode record s
    if r.1 then r.2.emit (.handle keycode record) else r.2
  | .task d now => achordionTask d now s

def run (s : State) (inputs : List Input) : State := inputs.foldl step s

section Views

/-- The events among the inputs, with the keycodes of their keys. -/
def arrived (inputs : List Input) : List (UInt16 × Keyrecord) :=
  inputs.filterMap fun
    | .event _ keycode record => some (keycode, record)
    | .task _ _ => none

/-- The records that are plumbed for tap-hold keys. -/
def plumbed (effects : List Effect) : List (UInt16 × Keyrecord) :=
  effects.filterMap fun
    | .plumb keycode record => some (keycode, record)
    | _ => none

/-- All records that reach the handlers behind Achordion. -/
def handled (effects : List Effect) : List (UInt16 × Keyrecord) :=
  effects.filterMap fun
    | .plumb keycode record | .handle keycode record => some (keycode, record)
    | _ => none

/-- Each keycode alternates press and release, and a release carries the tap count of its press; the
state says which counts the open presses have. -/
def pairs : Monitor (UInt16 × Keyrecord) (UInt16 → Option ℕ) where
  next q x := Function.update q x.1 (if x.2.event.pressed then some x.2.tap.count else none)
  ok q x := if x.2.event.pressed then q x.1 = none else q x.1 = some x.2.tap.count

instance (q : UInt16 → Option ℕ) (x : UInt16 × Keyrecord) : Decidable (pairs.ok q x) :=
  inferInstanceAs (Decidable (ite _ _ _))

/-- Eager modifiers are applied once, and are gone when their key is plumbed. -/
def eager : Monitor Effect UInt8 where
  next mods
    | .registerMods m => m
    | .unregisterMods m => if m = mods then 0 else mods
    | _ => mods
  ok mods
    | .registerMods _ | .plumb _ _ => mods = 0
    | _ => True

end Views

/-- The input settles the unsettled key as tapped only if `process_action` takes its press as a
tap. -/
def KeepsTap (s : State) : Input → Prop
  | .event d keycode record =>
    s.achordionState = .unsettled → record.event.pressed = true →
      pressHolds d keycode record s = false →
      cancelsTap d s.tapHoldKeycode (Keyrecord.tapped s.tapHoldRecord) = false
  | .task _ _ => True

instance (s : State) (i : Input) : Decidable (KeepsTap s i) :=
  match i with
  | .event .. => inferInstanceAs (Decidable (_ → _ → _ → _))
  | .task .. => isTrue trivial

/-- The runs in which no tap is taken as a hold. -/
def keptTaps : Monitor Input State where
  next := step
  ok := KeepsTap

instance (s : State) (i : Input) : Decidable (keptTaps.ok s i) :=
  inferInstanceAs (Decidable (KeepsTap s i))

/-- No key is open. -/
def closed : UInt16 → Option ℕ := fun _ => none

/-- The events that are plumbed are balanced, and so are all that are handled; what is open of a key
is closed when the key is up; eager modifiers are applied only while the key is unsettled; and the
release of the active key makes Achordion inactive. -/
structure Balanced (inputs : List Input) : Prop where
  plumbed : pairs.Accepts closed (plumbed (run {} inputs).effects)
  handled : pairs.Accepts closed (handled (run {} inputs).effects)
  closes : ∀ k, pairs.after closed (arrived inputs) k = none →
    pairs.after closed (Achordion.plumbed (run {} inputs).effects) k = none ∧
      pairs.after closed (Achordion.handled (run {} inputs).effects) k = none
  eager : eager.Accepts 0 (run {} inputs).effects
  settled : (run {} inputs).achordionState ≠ .unsettled → (run {} inputs).eagerMods = 0 ∧
    Achordion.eager.after 0 (run {} inputs).effects = 0
  released : ∀ pre d keycode record, inputs = pre ++ [.event d keycode record] →
    record.event.pressed = false → (run {} pre).achordionState ≠ .released →
    (run {} pre).tapHoldKeycode = keycode →
    (run {} inputs).achordionState = .released ∧ (run {} inputs).eagerMods = 0

section Traces

/-- The trace is accepted; `P` and `H` are what is open of the plumbed and of the handled records,
and `mods` are the eager modifiers that are applied. -/
structure Traces (es : List Effect) (P H : UInt16 → Option ℕ) (mods : UInt8) : Prop where
  plumbed : pairs.Accepts closed (plumbed es) ∧ pairs.after closed (Achordion.plumbed es) = P
  handled : pairs.Accepts closed (handled es) ∧ pairs.after closed (Achordion.handled es) = H
  eager : eager.Accepts 0 es ∧ Achordion.eager.after 0 es = mods

variable {es : List Effect} {P H : UInt16 → Option ℕ} {mods : UInt8} {k : UInt16} {r : Keyrecord}

@[simp] theorem plumbed_append (es es' : List Effect) :
    plumbed (es ++ es') = plumbed es ++ plumbed es' :=
  List.filterMap_append

@[simp] theorem handled_append (es es' : List Effect) :
    handled (es ++ es') = handled es ++ handled es' :=
  List.filterMap_append

@[simp] theorem emit_effects (s : State) (e : Effect) : (s.emit e).effects = s.effects ++ [e] := rfl

theorem traces_nil : Traces [] closed closed 0 :=
  ⟨⟨trivial, rfl⟩, ⟨trivial, rfl⟩, ⟨trivial, rfl⟩⟩

theorem Traces.note (h : Traces es P H mods) {e : Effect} (hp : Achordion.plumbed [e] = [])
    (hh : Achordion.handled [e] = []) (hok : Achordion.eager.ok mods e) :
    Traces (es ++ [e]) P H (Achordion.eager.next mods e) := by
  obtain ⟨hplumbed, hhandled, hmods, rfl⟩ := h
  refine ⟨?_, ?_, (Monitor.accepts_append _ _ _ _).mpr ⟨hmods, hok, trivial⟩,
    Monitor.after_append _ _ _ _⟩
  · rwa [plumbed_append, hp, List.append_nil]
  · rwa [handled_append, hh, List.append_nil]

theorem Traces.clear (h : Traces es P H mods) : Traces (es ++ [.unregisterMods mods]) P H 0 := by
  have hnote := h.note (e := .unregisterMods mods) rfl rfl trivial
  simpa [Achordion.eager] using hnote

theorem Traces.plumb (h : Traces es P H 0) (hP : pairs.ok P (k, r)) (hH : pairs.ok H (k, r)) :
    Traces (es ++ [.plumb k r]) (pairs.next P (k, r)) (pairs.next H (k, r)) 0 := by
  obtain ⟨⟨hplumbed, rfl⟩, ⟨hhandled, rfl⟩, hmods, hzero⟩ := h
  have hone : Achordion.plumbed [.plumb k r] = [(k, r)] := rfl
  have hone' : Achordion.handled [.plumb k r] = [(k, r)] := rfl
  refine ⟨?_, ?_, (Monitor.accepts_append _ _ _ _).mpr ⟨hmods, hzero, trivial⟩, ?_⟩
  · rw [plumbed_append, hone, Monitor.accepts_append, Monitor.after_append]
    exact ⟨⟨hplumbed, hP, trivial⟩, rfl⟩
  · rw [handled_append, hone', Monitor.accepts_append, Monitor.after_append]
    exact ⟨⟨hhandled, hH, trivial⟩, rfl⟩
  · rw [Monitor.after_append]
    exact hzero

theorem Traces.handle (h : Traces es P H mods) (hH : pairs.ok H (k, r)) :
    Traces (es ++ [.handle k r]) P (pairs.next H (k, r)) mods := by
  obtain ⟨hplumbed, ⟨hhandled, rfl⟩, hmods, rfl⟩ := h
  have hone : Achordion.handled [.handle k r] = [(k, r)] := rfl
  refine ⟨?_, ?_, (Monitor.accepts_append _ _ _ _).mpr ⟨hmods, trivial, trivial⟩, ?_⟩
  · have hnone : Achordion.plumbed [.handle k r] = [] := rfl
    rwa [plumbed_append, hnone, List.append_nil]
  · rw [handled_append, hone, Monitor.accepts_append, Monitor.after_append]
    exact ⟨⟨hhandled, hH, trivial⟩, rfl⟩
  · rw [Monitor.after_append]
    rfl

end Traces

section Invariant

/-- What is open of the plumbed records: the hold of the active key. -/
def State.held (s : State) : UInt16 → Option ℕ :=
  if s.achordionState = .holding then Function.update closed s.tapHoldKeycode (some 0) else closed

/-- What is open of the handled records: what is down, but for the active key only its hold. -/
def State.opens (s : State) (down : UInt16 → Option ℕ) : UInt16 → Option ℕ :=
  if s.achordionState = .released then down
  else Function.update down s.tapHoldKeycode (s.held s.tapHoldKeycode)

theorem update_closed (k : UInt16) : Function.update closed k none = closed :=
  Function.update_eq_self k closed

/-- The invariant between two inputs; `down` says which keys are down, with their tap counts. -/
structure Consistent (down : UInt16 → Option ℕ) (s : State) : Prop where
  traces : Traces s.effects s.held (s.opens down) s.eagerMods
  awake : s.achordionState ≠ .recursing
  active : s.achordionState ≠ .released → down s.tapHoldKeycode = some 0
  mods : s.achordionState ≠ .unsettled → s.eagerMods = 0
  modTap : isModTap s.tapHoldKeycode = false → s.eagerMods = 0
  press : s.achordionState = .unsettled → s.tapHoldRecord.event.pressed = true
  hold : s.achordionState = .unsettled ∨ s.achordionState = .holding →
    s.tapHoldRecord.tap.count = 0

variable {down : UInt16 → Option ℕ} {s : State} {k : UInt16} {r : Keyrecord} {d : Decisions}

theorem next_press {q : UInt16 → Option ℕ} (hp : r.event.pressed = true) :
    pairs.next q (k, r) = Function.update q k (some r.tap.count) := by
  simp [pairs, hp]

theorem next_release {q : UInt16 → Option ℕ} (hp : r.event.pressed = false) :
    pairs.next q (k, r) = Function.update q k none := by
  simp [pairs, hp]

theorem processRecord_release (hp : r.event.pressed = false) : processRecord d k r = r := by
  simp [processRecord, cancelsTap, hp]

theorem processRecord_tap (hkeeps : cancelsTap d k r = false) :
    (processRecord d k r).tap = r.tap := by
  simp only [processRecord, hkeeps, Bool.false_eq_true, if_false]
  split_ifs <;> rfl

theorem processRecord_cancelled (hcancels : cancelsTap d k r = true) :
    (processRecord d k r).tap.count = 0 := by
  simp only [processRecord, hcancels, if_true]
  split_ifs <;> rfl

theorem cancelsTap_hold (hcount : r.tap.count = 0) : cancelsTap d k r = false := by
  simp [cancelsTap, hcount]

theorem settleAsHold_eq (d : Decisions) (s : State) : settleAsHold d s = { s with
    eagerMods := 0
    achordionState := .holding
    tapHoldRecord := processRecord d s.tapHoldKeycode s.tapHoldRecord
    effects := s.effects ++ [.unregisterMods s.eagerMods] ++
      [.plumb s.tapHoldKeycode s.tapHoldRecord] } := rfl

theorem settleAsTap_eq (d : Decisions) (s : State) :
    let press := Keyrecord.tapped s.tapHoldRecord
    let release := Keyrecord.withPressed (processRecord d s.tapHoldKeycode press) false
    settleAsTap d s = { s with
      eagerMods := 0
      achordionState := .tapping
      tapHoldRecord := release
      effects := s.effects ++ [.unregisterMods s.eagerMods] ++
        [.plumb s.tapHoldKeycode press] ++ [.sendKeyboardReport] ++
        [.plumb s.tapHoldKeycode release] } := by
  intro press release
  have hrelease : processRecord d s.tapHoldKeycode release = release := processRecord_release rfl
  simp only [settleAsTap, plumbTapHold, recursivelyProcessRecord, clearEagerMods, State.emit]
  rw [hrelease]

theorem Consistent.cleared (h : Consistent down s) (hs : s.achordionState = .unsettled) :
    Traces (s.effects ++ [.unregisterMods s.eagerMods]) closed
      (Function.update down s.tapHoldKeycode none) 0 := by
  have hheld : s.held = closed := by simp [State.held, hs]
  have hopens : s.opens down = Function.update down s.tapHoldKeycode none := by
    simp [State.opens, hs, hheld, closed]
  have htraces := h.traces
  rw [hheld, hopens] at htraces
  exact htraces.clear

theorem Consistent.settleAsHold (h : Consistent down s) (hs : s.achordionState = .unsettled)
    (d : Decisions) : Consistent down (settleAsHold d s) := by
  have hp := h.press hs
  have hcount := h.hold (.inl hs)
  have hplumb := (h.cleared hs).plumb (k := s.tapHoldKeycode) (r := s.tapHoldRecord)
    (by simp [pairs, hp, closed]) (by simp [pairs, hp])
  rw [next_press hp, next_press hp, hcount, Function.update_idem] at hplumb
  rw [settleAsHold_eq]
  refine ⟨?_, by simp, fun _ => h.active (by simp [hs]), fun _ => rfl, fun _ => rfl, by simp,
    fun _ => ?_⟩
  · simpa only [State.held, State.opens, if_true, reduceCtorEq, if_false,
      Function.update_self] using hplumb
  · exact (congrArg Tapping.Tap.count (processRecord_tap (cancelsTap_hold hcount))).trans hcount

theorem Consistent.settleAsTap (h : Consistent down s) (hs : s.achordionState = .unsettled)
    (hkeeps : cancelsTap d s.tapHoldKeycode (Keyrecord.tapped s.tapHoldRecord) = false) :
    Consistent down (settleAsTap d s) := by
  rw [settleAsTap_eq]
  set press := Keyrecord.tapped s.tapHoldRecord
  set release := Keyrecord.withPressed (processRecord d s.tapHoldKeycode press) false
  have hpressed : press.event.pressed = true := h.press hs
  have hreleased : release.event.pressed = false := rfl
  have htap : release.tap = press.tap := processRecord_tap hkeeps
  have hplumb := (h.cleared hs).plumb (k := s.tapHoldKeycode) (r := press)
    (by simp [pairs, hpressed, closed]) (by simp [pairs, hpressed])
  rw [next_press hpressed, next_press hpressed, Function.update_idem] at hplumb
  have hreport := hplumb.note (e := .sendKeyboardReport) rfl rfl trivial
  have hclosing := Traces.plumb (k := s.tapHoldKeycode) (r := release) hreport
    (by simp [pairs, hreleased, htap]) (by simp [pairs, hreleased, htap])
  rw [next_release hreleased, next_release hreleased, Function.update_idem, Function.update_idem,
    update_closed] at hclosing
  refine ⟨?_, by simp, fun _ => h.active (by simp [hs]), fun _ => rfl, fun _ => rfl, by simp,
    by simp⟩
  simpa [State.held, State.opens, closed] using hclosing

theorem Consistent.task (h : Consistent down s) (d : Decisions) (now : UInt16) :
    Consistent down (achordionTask d now s) := by
  simp only [achordionTask]
  split_ifs with hs
  · exact h.settleAsHold hs.1 d
  · exact h

theorem Consistent.handle (h : Consistent down s) (hok : pairs.ok down (k, r))
    (hk : s.achordionState ≠ .released → k ≠ s.tapHoldKeycode) :
    Consistent (pairs.next down (k, r)) (s.emit (.handle k r)) := by
  have hopens : s.opens (pairs.next down (k, r)) = pairs.next (s.opens down) (k, r) := by
    simp only [State.opens]
    split_ifs with hs
    · rfl
    · simp only [pairs]
      exact Function.update_comm (hk hs) _ _ _
  have hsame : s.opens down k = down k := by
    simp only [State.opens]
    split_ifs with hs
    · rfl
    · exact Function.update_of_ne (hk hs) _ _
  have hhandle := h.traces.handle (k := k) (r := r) (by simpa [pairs, hsame] using hok)
  rw [← hopens] at hhandle
  refine ⟨hhandle, h.awake, fun hs => ?_, h.mods, h.modTap, h.press, h.hold⟩
  exact (Function.update_of_ne (hk hs).symm _ _).trans (h.active hs)

theorem Consistent.register (h : Consistent down s) (hs : s.achordionState = .unsettled)
    (hmod : isModTap s.tapHoldKeycode = true) (hzero : s.eagerMods = 0) (mods : UInt8) :
    Consistent down (({ s with eagerMods := mods } : State).emit (.registerMods mods)) := by
  refine ⟨h.traces.note (e := .registerMods mods) rfl rfl hzero, h.awake, h.active, ?_, ?_,
    h.press, h.hold⟩
  · exact fun hnot => absurd hs hnot
  · intro hnot
    exact absurd (hmod.symm.trans hnot) (by decide)

theorem Consistent.startUnsettled (h : Consistent down s) (hs : s.achordionState = .released)
    (hdown : down k = none) (hp : r.event.pressed = true) (hcount : r.tap.count = 0)
    (timeout : UInt16) :
    Consistent (pairs.next down (k, r)) (startUnsettled d k r timeout s) := by
  have hzero := h.mods (by simp [hs])
  have htraces := h.traces
  simp only [State.held, State.opens, hs, reduceCtorEq, if_false, if_true, hzero] at htraces
  have hnext : pairs.next down (k, r) k = some 0 := by simp [pairs, hp, hcount]
  have hopens : Function.update (pairs.next down (k, r)) k none = down := by
    rw [next_press hp, Function.update_idem, ← hdown, Function.update_eq_self]
  have hstarted : Consistent (pairs.next down (k, r)) { s with
      achordionState := .unsettled
      tapHoldKeycode := k
      tapHoldRecord := r
      holdTimer := r.event.time + timeout } := by
    refine ⟨?_, by simp, fun _ => hnext, by simp, fun _ => hzero, fun _ => hp,
      fun _ => hcount⟩
    simpa [State.held, State.opens, closed, hopens, hzero] using htraces
  simp only [Achordion.startUnsettled]
  generalize (if d.modConfig (modTapGetMods k) &&& 0x10 = 0 then d.modConfig (modTapGetMods k)
    else d.modConfig (modTapGetMods k) <<< 4) = mods
  split_ifs with hmod heager
  · exact hstarted.register rfl hmod hzero mods
  · exact hstarted
  · exact hstarted

theorem Consistent.releaseTapHold (h : Consistent down s) (hs : s.achordionState ≠ .released)
    (hp : r.event.pressed = false) :
    Consistent (pairs.next down (s.tapHoldKeycode, r)) (releaseTapHold d s.tapHoldKeycode s) := by
  have htraces := h.traces
  rw [next_release hp]
  simp only [State.opens, hs, if_false] at htraces
  simp only [Achordion.releaseTapHold]
  split_ifs with hholding hmod
  · have hcount := h.hold (.inr hholding)
    have hzero := h.mods (by simp [hholding])
    simp only [State.held, hholding, if_true, Function.update_self, hzero] at htraces
    have hreleased : (Keyrecord.withPressed s.tapHoldRecord false).event.pressed = false := rfl
    have hplumb := htraces.plumb (k := s.tapHoldKeycode)
      (r := Keyrecord.withPressed s.tapHoldRecord false)
      (by simp [pairs, Keyrecord.withPressed, hcount])
      (by simp [pairs, Keyrecord.withPressed, hcount])
    rw [next_release hreleased, next_release hreleased, Function.update_idem, Function.update_idem,
      update_closed] at hplumb
    refine ⟨?_, by simp, by simp, fun _ => hzero, fun _ => hzero, by simp, by simp⟩
    simpa [plumbTapHold, recursivelyProcessRecord, State.emit, State.held, State.opens, hzero]
      using hplumb
  · simp only [State.held, hholding, if_false] at htraces
    refine ⟨?_, by simp, by simp, fun _ => rfl, fun _ => rfl, by simp, by simp⟩
    simpa [clearEagerMods, State.emit, State.held, State.opens, closed] using htraces.clear
  · have hzero := h.modTap (by simpa using hmod)
    simp only [State.held, hholding, if_false] at htraces
    refine ⟨?_, by simp, by simp, fun _ => hzero, fun _ => hzero, by simp, by simp⟩
    simpa [State.held, State.opens, closed] using htraces

/-- What an event can do to Achordion: start it, end it, settle it, or pass it. -/
theorem processAchordion_cases (hawake : s.achordionState ≠ .recursing) (d : Decisions)
    (k : UInt16) (r : Keyrecord) :
    (s.achordionState = .released ∧ r.event.pressed = true ∧ r.tap.count = 0 ∧
      ∃ timeout, processAchordion d k r s = (false, startUnsettled d k r timeout s)) ∨
    (s.achordionState ≠ .released ∧ r.event.pressed = false ∧ k = s.tapHoldKeycode ∧
      processAchordion d k r s = (false, releaseTapHold d k s)) ∨
    (s.achordionState = .unsettled ∧ r.event.pressed = true ∧
      processAchordion d k r s = (false, settleByPress d k r s)) ∨
    ((s.achordionState ≠ .released → r.event.pressed = false → k ≠ s.tapHoldKeycode) ∧
      processAchordion d k r s = (true, s)) := by
  simp only [processAchordion, hawake, if_false]
  by_cases hs : s.achordionState = .released
  · simp only [hs, if_true]
    split_ifs with hstart htimeout
    · exact .inl ⟨trivial, hstart.2.2.1, hstart.2.1, _, rfl⟩
    · exact .inr (.inr (.inr ⟨fun hnot => absurd rfl hnot, rfl⟩))
    · exact .inr (.inr (.inr ⟨fun hnot => absurd rfl hnot, rfl⟩))
  · simp only [hs, if_false]
    split_ifs with hrelease hpress
    · exact .inr (.inl ⟨hs, by simpa using hrelease.2, hrelease.1, rfl⟩)
    · exact .inr (.inr (.inl ⟨hpress.1, hpress.2, rfl⟩))
    · exact .inr (.inr (.inr ⟨fun _ hp hkey => hrelease ⟨hkey, by simp [hp]⟩, rfl⟩))

theorem Consistent.settleByPress (h : Consistent down s) (hs : s.achordionState = .unsettled)
    (hok : pairs.ok down (k, r)) (hk : k ≠ s.tapHoldKeycode)
    (hkeeps : pressHolds d k r s = false →
      cancelsTap d s.tapHoldKeycode (Keyrecord.tapped s.tapHoldRecord) = false) :
    Consistent (pairs.next down (k, r)) (settleByPress d k r s) := by
  simp only [Achordion.settleByPress]
  split_ifs with hholds
  · exact (h.settleAsHold hs d).handle hok fun _ => hk
  · exact (h.settleAsTap hs (hkeeps (by simpa using hholds))).handle hok fun _ => hk

theorem Consistent.event (h : Consistent down s) (hok : pairs.ok down (k, r)) (d : Decisions)
    (hkeeps : KeepsTap s (.event d k r)) :
    Consistent (pairs.next down (k, r)) (step s (.event d k r)) := by
  -- The active key is down, so its next event is its release.
  have hother (hs : s.achordionState ≠ .released) (hp : r.event.pressed = true) :
      k ≠ s.tapHoldKeycode := by
    rintro rfl
    have hnone : down s.tapHoldKeycode = none := by simpa [pairs, hp] using hok
    exact absurd (hnone.symm.trans (h.active hs)) (by simp)
  rcases processAchordion_cases h.awake d k r with ⟨hs, hp, hcount, timeout, hcase⟩ |
    ⟨hs, hp, rfl, hcase⟩ | ⟨hs, hp, hcase⟩ | ⟨hpass, hcase⟩ <;>
    simp only [step, hcase, Bool.false_eq_true, if_false, if_true]
  · exact h.startUnsettled hs (by simpa [pairs, hp] using hok) hp hcount timeout
  · exact h.releaseTapHold hs hp
  · exact h.settleByPress hs hok (hother (by simp [hs]) hp) (hkeeps hs hp)
  · refine h.handle hok fun hs => ?_
    cases hp : r.event.pressed with
    | true => exact hother hs hp
    | false => exact hpass hs hp

end Invariant

section Runs

variable {inputs : List Input}

theorem run_append (s : State) (pre rest : List Input) :
    run s (pre ++ rest) = run (run s pre) rest := List.foldl_append

theorem arrived_append (pre rest : List Input) :
    arrived (pre ++ rest) = arrived pre ++ arrived rest := List.filterMap_append

theorem consistent_run (hpairs : pairs.Accepts closed (arrived inputs))
    (hkeeps : keptTaps.Accepts {} inputs) :
    Consistent (pairs.after closed (arrived inputs)) (run {} inputs) := by
  induction inputs using List.reverseRecOn with
  | nil => exact ⟨traces_nil, by decide, fun h => absurd rfl h, fun _ => rfl, fun _ => rfl,
      by decide, fun h => absurd h (by decide)⟩
  | append_singleton inputs i ih =>
    rw [arrived_append, Monitor.accepts_append] at hpairs
    rw [Monitor.accepts_append] at hkeeps
    rw [run_append, arrived_append, Monitor.after_append]
    have h := ih hpairs.1 hkeeps.1
    cases i with
    | event d k r => exact h.event hpairs.2.1 d hkeeps.2.1
    | task d now => exact h.task d now

theorem Consistent.releaseTapHold_inactive {s : State} {down : UInt16 → Option ℕ}
    (h : Consistent down s) (d : Decisions) :
    (Achordion.releaseTapHold d s.tapHoldKeycode s).achordionState = .released ∧
      (Achordion.releaseTapHold d s.tapHoldKeycode s).eagerMods = 0 := by
  simp only [Achordion.releaseTapHold]
  split_ifs with hholding hmod
  · exact ⟨trivial, h.mods (by simp [hholding])⟩
  · exact ⟨trivial, rfl⟩
  · exact ⟨trivial, h.modTap (by simpa using hmod)⟩

/-- The release of the active key makes Achordion inactive. -/
theorem Consistent.released {s : State} {down : UInt16 → Option ℕ} (h : Consistent down s)
    (d : Decisions) {r : Keyrecord} (hp : r.event.pressed = false)
    (hs : s.achordionState ≠ .released) :
    (step s (.event d s.tapHoldKeycode r)).achordionState = .released ∧
      (step s (.event d s.tapHoldKeycode r)).eagerMods = 0 := by
  have hcase : processAchordion d s.tapHoldKeycode r s =
      (false, Achordion.releaseTapHold d s.tapHoldKeycode s) := by
    simp [processAchordion, h.awake, hs, hp]
  simpa only [step, hcase, Bool.false_eq_true, if_false] using h.releaseTapHold_inactive d

/-- What is open is that of the active key, so it is closed when the key is up. -/
theorem Consistent.closes {s : State} {down : UInt16 → Option ℕ} (h : Consistent down s)
    {k : UInt16} (hk : down k = none) : s.held k = none ∧ s.opens down k = none := by
  have hactive (hs : s.achordionState ≠ .released) : k ≠ s.tapHoldKeycode := by
    rintro rfl
    exact absurd (hk.symm.trans (h.active hs)) (by simp)
  constructor
  · simp only [State.held]
    split_ifs with hs
    · exact Function.update_of_ne (hactive (by simp [hs])) _ _
    · rfl
  · simp only [State.opens]
    split_ifs with hs
    · exact hk
    · exact (Function.update_of_ne (hactive hs) _ _).trans hk

/-- Achordion plumbs balanced events in every run in which each keycode alternates press and release
with the tap count of its press, and no tap is taken as a hold. -/
theorem balanced_of_keptTaps (hpairs : pairs.Accepts closed (arrived inputs))
    (hkeeps : keptTaps.Accepts {} inputs) : Balanced inputs := by
  have h := consistent_run hpairs hkeeps
  constructor
  · exact h.traces.plumbed.1
  · exact h.traces.handled.1
  · intro k hk
    rw [h.traces.plumbed.2, h.traces.handled.2]
    exact h.closes hk
  · exact h.traces.eager.1
  · intro hs
    exact ⟨h.mods hs, h.traces.eager.2.trans (h.mods hs)⟩
  · rintro pre d k r rfl hp hs rfl
    rw [arrived_append, Monitor.accepts_append] at hpairs
    rw [Monitor.accepts_append] at hkeeps
    rw [run_append]
    exact (consistent_run hpairs.1 hkeeps.1).released d hp hs

theorem effects_step (s : State) (i : Input) : s.effects <+: (step s i).effects := by
  have hhold (d : Decisions) (es : List Effect) :
      s.effects <+: (settleAsHold d s).effects ++ es := by
    simp [settleAsHold_eq]
  have htap (d : Decisions) (es : List Effect) :
      s.effects <+: (settleAsTap d s).effects ++ es := by
    simp [settleAsTap_eq]
  cases i with
  | task d now =>
    simp only [step, achordionTask]
    split_ifs
    · simpa using hhold d []
    · exact List.prefix_rfl
  | event d k r =>
    simp only [step, processAchordion, startUnsettled, releaseTapHold, settleByPress]
    split_ifs <;>
      simp [recursivelyProcessRecord, plumbTapHold, clearEagerMods, State.emit, hhold, htap]

theorem effects_run (s : State) (inputs : List Input) : s.effects <+: (run s inputs).effects := by
  induction inputs generalizing s with
  | nil => exact List.prefix_rfl
  | cons i inputs ih => exact (effects_step s i).trans (ih (step s i))

theorem not_accepts_of_cancelsTap {s : State} {d : Decisions}
    (hpress : s.tapHoldRecord.event.pressed = true)
    (hcancels : cancelsTap d s.tapHoldKeycode (Keyrecord.tapped s.tapHoldRecord) = true) :
    ¬ pairs.Accepts closed (plumbed (settleAsTap d s).effects) := by
  intro h
  rw [settleAsTap_eq] at h
  set press := Keyrecord.tapped s.tapHoldRecord
  set release := Keyrecord.withPressed (processRecord d s.tapHoldKeycode press) false
  have hpressed : press.event.pressed = true := hpress
  have hreleased : release.event.pressed = false := rfl
  have hcount : release.tap.count = 0 := processRecord_cancelled hcancels
  have hone (r : Keyrecord) : plumbed [.plumb s.tapHoldKeycode r] = [(s.tapHoldKeycode, r)] := rfl
  have hnone : plumbed [.sendKeyboardReport] = [] := rfl
  simp only [plumbed_append, hone, hnone, List.append_nil, Monitor.accepts_append,
    Monitor.after_append, Monitor.after_cons, Monitor.after_nil, next_press hpressed] at h
  obtain ⟨-, hok, -⟩ := h
  have hclash : some press.tap.count = some release.tap.count := by
    simpa [pairs, hreleased] using hok
  rw [hcount] at hclash
  exact absurd hclash (by simp [press, Keyrecord.tapped])

theorem not_accepts_of_not_keepsTap {s : State} {i : Input}
    (hpress : s.achordionState = .unsettled → s.tapHoldRecord.event.pressed = true)
    (hi : ¬ KeepsTap s i) : ¬ pairs.Accepts closed (plumbed (step s i).effects) := by
  cases i with
  | task d now => exact absurd trivial hi
  | event d k r =>
    simp only [KeepsTap, Classical.not_imp, Bool.not_eq_false] at hi
    obtain ⟨hs, hp, hholds, hcancels⟩ := hi
    have hstep : (step s (.event d k r)).effects =
        (settleAsTap d s).effects ++ [.handle k r] := by
      simp [step, processAchordion, hs, hp, settleByPress, hholds, recursivelyProcessRecord,
        State.emit]
    rw [hstep, plumbed_append, Monitor.accepts_append]
    exact fun h => not_accepts_of_cancelsTap (hpress hs) hcancels h.1

/-- Achordion plumbs balanced events exactly in those runs in which no tap is taken as a hold. -/
theorem balanced_iff (inputs : List Input) (hpairs : pairs.Accepts closed (arrived inputs)) :
    Balanced inputs ↔ keptTaps.Accepts {} inputs := by
  constructor
  · intro hbalanced
    refine Monitor.accepts_of_extends fun pre i rest hinputs hpre => ?_
    rw [hinputs, arrived_append, Monitor.accepts_append] at hpairs
    by_contra hi
    obtain ⟨es, hes⟩ : (step (run {} pre) i).effects <+: (run {} inputs).effects := by
      rw [hinputs, run_append]
      exact effects_run _ rest
    have hplumbed := hbalanced.plumbed
    rw [← hes, plumbed_append, Monitor.accepts_append] at hplumbed
    exact not_accepts_of_not_keepsTap (consistent_run hpairs.1 hpre).press hi hplumbed.1
  · exact balanced_of_keptTaps hpairs

/-- Every timeout is 1000 ms, shift and control are eager, no chord is a hold, and `process_action`
leaves the records alone. -/
def Decisions.small : Decisions where
  achordionTimeout _ := 1000
  achordionEagerMod mod := mod &&& 0x0C = 0
  achordionChord _ _ _ _ := false
  modConfig mod := mod
  holdOnOtherKeyPress _ _ := false
  doReleaseOneshot _ _ := false

/-- The same in a build with `HOLD_ON_OTHER_KEY_PRESS`. -/
def Decisions.hold : Decisions := { Decisions.small with holdOnOtherKeyPress := fun _ _ => true }

def keyEvent (keycode : UInt16) (key : Tapping.Keypos) (time : UInt16) (pressed : Bool) : Input :=
  .event .small keycode { event := ⟨key, time, .key, pressed⟩ }

/-- A letter settles a mod-tap key as tapped, and the same key times out when it is pressed
again. -/
def tapThenHold : List Input :=
  [keyEvent 0x2204 ⟨0, 0⟩ 0 true, keyEvent 0x0005 ⟨0, 1⟩ 50 true, keyEvent 0x0005 ⟨0, 1⟩ 80 false,
    keyEvent 0x2204 ⟨0, 0⟩ 100 false, keyEvent 0x2204 ⟨0, 0⟩ 200 true, .task .small 1300,
    keyEvent 0x2204 ⟨0, 0⟩ 1400 false]

theorem balanced_tapThenHold : (plumbed (run {} tapThenHold).effects).length = 4 ∧
    Balanced tapThenHold :=
  ⟨by decide, (balanced_iff tapThenHold (by decide)).mpr (by decide)⟩

/-- A letter settles a mod-tap key as tapped in a build that takes interrupted taps as holds. -/
def tapAsHold : List Input :=
  [keyEvent 0x2204 ⟨0, 0⟩ 0 true, .event .hold 0x0005 { event := ⟨⟨0, 1⟩, 50, .key, true⟩ }]

theorem not_balanced_tapAsHold :
    ¬ ∀ inputs, pairs.Accepts closed (arrived inputs) → Balanced inputs := by
  intro h
  have hplumbed := (h tapAsHold (by decide)).plumbed
  revert hplumbed
  decide

end Runs

end Qmk.Achordion
