import Qmk.SwapHands.Engine

/-! # What the hint of a swap-hands key leaves behind

A hint swaps the hands, and the key that has given it undoes the swap. While the swap is held, that
key is down or its release is waiting, unless a second hint has come meanwhile or the release has
overtaken its press.
-/

namespace Qmk.SwapHands

open Tapping

section Hints

def Effect.hint? : Effect → Option Keypos
  | .hint key => some key
  | _ => none

def lastHint (effects : List Effect) : Option Keypos := (effects.filterMap Effect.hint?).getLast?

@[simp]
theorem lastHint_append_hint (effects : List Effect) (key : Keypos) :
    lastHint (effects ++ [.hint key]) = some key := by
  simp [lastHint, Effect.hint?]

@[simp]
theorem lastHint_append_processAction (effects : List Effect) (record : Keyrecord)
    (action : UInt16) :
    lastHint (effects ++ [.processAction record action]) = lastHint effects := by
  simp [lastHint, Effect.hint?]

@[simp]
theorem lastHint_append_clearKeyboard (effects : List Effect) :
    lastHint (effects ++ [.clearKeyboard]) = lastHint effects := by
  simp [lastHint, Effect.hint?]

end Hints

variable (c : Config)

section Conditions

/-- The position that the events of a physical key have in the engine. -/
def logicalKey (s : State) (pos : Keypos) : Keypos :=
  if c.inMatrix pos ∧ s.matrixSwapState pos then c.handSwapConfig pos else pos

def Releases (e : Keyevent) (key : Keypos) : Prop :=
  e.isEvent ∧ e.pressed = false ∧ e.key = key

instance (e : Keyevent) (key : Keypos) : Decidable (Releases e key) :=
  inferInstanceAs (Decidable (_ ∧ _))

def KeyDown (down : List Keypos) (s : State) (key : Keypos) : Prop :=
  ∃ pos ∈ down, logicalKey c s pos = key

instance (down : List Keypos) (s : State) (key : Keypos) : Decidable (KeyDown c down s key) :=
  inferInstanceAs (Decidable (∃ pos ∈ down, _))

/-- The release of the key is still to come or is among the events. -/
def Awaits (down : List Keypos) (events : List Keyevent) (s : State) (key : Keypos) : Prop :=
  KeyDown c down s key ∨ ∃ e ∈ events, Releases e key

instance (down : List Keypos) (events : List Keyevent) (s : State) (key : Keypos) :
    Decidable (Awaits c down events s key) :=
  inferInstanceAs (Decidable (_ ∨ ∃ e ∈ events, _))

def State.events (s : State) : List Keyevent := s.waitingBuffer.map (·.event)

def State.rest (s : State) (queued : Bool) : List Keyevent :=
  if queued then s.events.tail else s.events

/-- The event makes its key the tapping key with a hint. -/
def startsHint (keyp : Keyrecord) (s : State) : Bool :=
  s.tappingKey.event.isNoevent && keyp.event.pressed && isTapRecord c s keyp &&
    keyp.event.type = .key && isSwapHands (layerSwitchGetAction c keyp.event.key s)

def passesOn (keyp : Keyrecord) (s : State) : Bool :=
  if s.tappingKey.event.isNoevent then true
  else if s.tappingKey.event.pressed then
    if s.tappingKey.tap.count = 0 then
      withinTappingTerm c s keyp.event && !isTappingRecord s keyp &&
        !waitingBufferTyped s keyp.event &&
        !isRetained (layerSwitchGetAction c keyp.event.key s) keyp.tap.count
    else true
  else withinTappingTerm c s keyp.event

/-- A hint comes while no swap is held and its key has not been released; the release that undoes
the hint finds the action of the press. -/
def CallFits (down : List Keypos) (queued : Bool) (keyp : Keyrecord) (s : State) : Prop :=
  (startsHint c keyp s → s.swapHeld = false ∧ Awaits c down (s.rest queued) s keyp.event.key) ∧
  (Releases keyp.event keyp.event.key → passesOn c keyp s → s.swapHeld →
    lastHint s.effects = some keyp.event.key → isSwapHands (cachedAction c keyp.event.key s))

instance (down : List Keypos) (queued : Bool) (keyp : Keyrecord) (s : State) :
    Decidable (CallFits c down queued keyp s) :=
  inferInstanceAs (Decidable ((_ → _) ∧ (_ → _)))

/-- When the buffer overflows, the key that holds the swap is still down. -/
def OverflowFits (down : List Keypos) (keyp : Keyrecord) (s : State) : Prop :=
  keyp.event.isEvent → s.waitingBuffer.length + 1 = waitingBufferSize → s.swapHeld →
    ∃ key ∈ lastHint s.effects, KeyDown c down s key

instance (down : List Keypos) (keyp : Keyrecord) (s : State) :
    Decidable (OverflowFits c down keyp s) :=
  inferInstanceAs (Decidable (_ → _ → _ → ∃ key ∈ lastHint s.effects, _))

/-- Every call of `process_tapping` for the waiting buffer fits. -/
def LoopFits (down : List Keypos) : ℕ → State → Prop
  | 0, _ => True
  | n + 1, s =>
    ∀ record ∈ s.waitingBuffer.head?, CallFits c down true record s ∧
      ((processTapping c true record s).1 →
        LoopFits down n (waitingBufferPop (processTapping c true record s).2.2))

instance LoopFits.decidable (down : List Keypos) : ∀ n s, Decidable (LoopFits c down n s)
  | 0, _ => .isTrue trivial
  | n + 1, s =>
    have := LoopFits.decidable down n
    inferInstanceAs (Decidable (∀ record ∈ s.waitingBuffer.head?, _ ∧ (_ → _)))

/-- Every call of `process_tapping` for the event fits, and so does an overflow. -/
def ExecFits (down : List Keypos) (event : Keyevent) (s : State) : Prop :=
  let r := preProcess c event s
  let record : Keyrecord := { event := r.1 }
  let t := processTapping c false record r.2
  let after := processOrEnqueue c record r.2
  CallFits c down false record r.2 ∧ (t.1 = false → OverflowFits c down t.2.1 t.2.2) ∧
    LoopFits c down after.waitingBuffer.length after

instance (down : List Keypos) (event : Keyevent) (s : State) :
    Decidable (ExecFits c down event s) :=
  inferInstanceAs (Decidable (_ ∧ (_ → _) ∧ _))

end Conditions

section History

structure Observed where
  state : State := {}
  down : List Keypos := []

def Input.downAfter (down : List Keypos) : Input → List Keypos
  | .key pos true _ => pos :: down
  | .key pos false _ => down.erase pos
  | .tick _ => down

def Observed.step (o : Observed) (i : Input) : Observed where
  state := SwapHands.step c o.state i
  down := i.downAfter o.down

def run (o : Observed) (inputs : List Input) : Observed := inputs.foldl (Observed.step c) o

/-- A key goes down only when it is up, and up only when it is down. -/
def Input.Alternates (down : List Keypos) : Input → Prop
  | .key pos pressed _ => pressed = true ↔ pos ∉ down
  | .tick _ => True

instance (down : List Keypos) : ∀ i : Input, Decidable (i.Alternates down)
  | .key _ _ _ => inferInstanceAs (Decidable (_ ↔ _))
  | .tick _ => .isTrue trivial

def Alternate : List Keypos → List Input → Prop
  | _, [] => True
  | down, i :: inputs => i.Alternates down ∧ Alternate (i.downAfter down) inputs

instance Alternate.decidable : ∀ down inputs, Decidable (Alternate down inputs)
  | _, [] => .isTrue trivial
  | down, i :: inputs =>
    have := Alternate.decidable (i.downAfter down) inputs
    inferInstanceAs (Decidable (_ ∧ _))

def RunFits : Observed → List Input → Prop
  | _, [] => True
  | o, i :: inputs =>
    ExecFits c (i.downAfter o.down) i.event o.state ∧ RunFits (o.step c i) inputs

instance RunFits.decidable : ∀ o inputs, Decidable (RunFits c o inputs)
  | _, [] => .isTrue trivial
  | o, i :: inputs =>
    have := RunFits.decidable (o.step c i) inputs
    inferInstanceAs (Decidable (_ ∧ _))

/-- When all keys are up and no event is waiting, no swap is left. -/
def NoSwapLeft (o : Observed) : Prop :=
  o.down = [] → o.state.waitingBuffer = [] →
    o.state.swapHands = false ∧ o.state.swapHeld = false

end History

section Frames

variable {c} {s s' s'' : State}

structure Frame (s s' : State) : Prop where
  swap : (s'.swapHands = s.swapHands ∧ s'.swapHeld = s.swapHeld) ∨
    (s.swapHeld = true ∧ s'.swapHands = !s.swapHands ∧ s'.swapHeld = false)
  hint : lastHint s'.effects = lastHint s.effects
  matrix : s'.matrixSwapState = s.matrixSwapState

theorem Frame.refl (s : State) : Frame s s := ⟨.inl ⟨rfl, rfl⟩, rfl, rfl⟩

theorem Frame.trans (h : Frame s s') (h' : Frame s' s'') : Frame s s'' := by
  refine ⟨?_, h'.hint.trans h.hint, h'.matrix.trans h.matrix⟩
  obtain ⟨h1, h2⟩ | ⟨h1, h2, h3⟩ := h.swap <;> obtain ⟨h4, h5⟩ | ⟨h4, h5, h6⟩ := h'.swap <;>
    simp_all

theorem Frame.held_of_held (h : Frame s s') (hs : s'.swapHeld = true) : s.swapHeld = true := by
  obtain ⟨-, h2⟩ | ⟨h1, -, -⟩ := h.swap
  · rwa [← h2]
  · exact h1

/-- Changes of the tapping key and of the buffer leave the swap alone. -/
theorem Frame.of_eq (h1 : s'.swapHands = s.swapHands) (h2 : s'.swapHeld = s.swapHeld)
    (h3 : s'.effects = s.effects) (h4 : s'.matrixSwapState = s.matrixSwapState) : Frame s s' :=
  ⟨.inl ⟨h1, h2⟩, by rw [h3], h4⟩

theorem Frame.logicalKey (h : Frame s s') : logicalKey c s' = logicalKey c s := by
  funext pos
  simp only [SwapHands.logicalKey, h.matrix]

theorem Frame.awaits (h : Frame s s') (down : List Keypos) (events : List Keyevent) :
    Awaits c down events s' = Awaits c down events s := by
  funext key
  simp only [Awaits, KeyDown, h.logicalKey]

/-- The hands are swapped exactly while a hint is held, and the key of the last hint satisfies
`P`. -/
def Balanced (P : Keypos → Prop) (s : State) : Prop :=
  s.swapHands = s.swapHeld ∧ (s.swapHeld = true → ∃ key ∈ lastHint s.effects, P key)

theorem Frame.balanced {P : Keypos → Prop} (h : Frame s s') (hs : Balanced P s) :
    Balanced P s' := by
  refine ⟨?_, fun hheld => ?_⟩
  · obtain ⟨h1, h2⟩ | ⟨h1, h2, h3⟩ := h.swap
    · rw [h1, h2, hs.1]
    · rw [h2, h3, hs.1, h1, Bool.not_true]
  · rw [h.hint]
    exact hs.2 (h.held_of_held hheld)

theorem Balanced.imp {P Q : Keypos → Prop} (hs : Balanced P s)
    (h : s.swapHeld = true → ∀ key ∈ lastHint s.effects, P key → Q key) : Balanced Q s := by
  refine ⟨hs.1, fun hheld => ?_⟩
  obtain ⟨key, hkey, hp⟩ := hs.2 hheld
  exact ⟨key, hkey, h hheld key hkey hp⟩

end Frames

section Records

variable {c} {s : State} {keyp : Keyrecord}

theorem updateSourceLayersCache_frame (key : Keypos) (layer : ℕ) :
    Frame s (updateSourceLayersCache c key layer s) := by
  unfold updateSourceLayersCache
  split
  · exact .of_eq rfl rfl rfl rfl
  · exact .refl s

theorem getEventKeycode_frame (event : Keyevent) : Frame s (getEventKeycode c event s) := by
  unfold getEventKeycode
  split
  · exact updateSourceLayersCache_frame _ _
  · exact .refl s

theorem storeOrGetAction_frame (pressed : Bool) (key : Keypos) :
    Frame s (storeOrGetAction c pressed key s).2 := by
  unfold storeOrGetAction
  split
  · exact updateSourceLayersCache_frame _ _
  · exact .refl s

theorem undoHold_frame : Frame s (undoHold s) := by
  unfold undoHold
  split
  next h => exact ⟨.inr ⟨h, rfl, rfl⟩, rfl, rfl⟩
  next => exact .refl s

theorem undoHold_swapHeld : (undoHold s).swapHeld = false := by
  unfold undoHold
  split
  next => rfl
  next h => exact Bool.eq_false_iff.mpr h

theorem processAction_frame (record : Keyrecord) (action : UInt16) :
    Frame s (processAction record action s).2 := by
  have htrace : Frame s { s with effects := s.effects ++ [.processAction record action] } :=
    ⟨.inl ⟨rfl, rfl⟩, lastHint_append_processAction _ _ _, rfl⟩
  unfold processAction
  split_ifs
  · exact htrace.trans undoHold_frame
  · exact htrace.trans undoHold_frame
  · exact htrace
  · exact htrace.trans undoHold_frame
  · exact htrace

theorem processRecord_frame (record : Keyrecord) : Frame s (processRecord c record s).2 := by
  unfold processRecord
  split
  · exact .refl s
  · exact (getEventKeycode_frame _).trans
      ((storeOrGetAction_frame _ _).trans (processAction_frame _ _))

/-- The release of a swap-hands key undoes the swap, whether it is a tap or not. -/
theorem processRecord_release {record : Keyrecord} {key : Keypos}
    (hr : Releases record.event key) (ha : isSwapHands (cachedAction c key s)) :
    (processRecord c record s).2.swapHeld = false := by
  obtain ⟨he, hp, rfl⟩ := hr
  have hn : record.event.isNoevent = false := by
    simpa [Keyevent.isEvent, Keyevent.isNoevent] using he
  simp only [processRecord, hn, getEventKeycode, storeOrGetAction, processAction, hp, ha,
    Bool.false_eq_true, if_false, if_true]
  split_ifs <;> exact undoHold_swapHeld

end Records

section Calls

variable {c} {s : State} {queued : Bool} {keyp : Keyrecord}

/-- What a call of `process_tapping` can do with the swap. -/
inductive Call (c : Config) (keyp : Keyrecord) (s : State) : Bool × Keyrecord × State → Prop
  | hint {s'} (hs : startsHint c keyp s)
      (hf : Frame (processRecordTapHint c keyp { s with tappingKey := keyp }) s') :
      Call c keyp s (true, keyp, s')
  | release {record r s'} (hp : keyp.event.pressed = false) (hs : passesOn c keyp s)
      (he : record.event = keyp.event) (hf : Frame (processRecord c record s).2 s') :
      Call c keyp s (true, r, s')
  | handled {r s'} (hp : keyp.event.isNoevent ∨ keyp.event.pressed) (hf : Frame s s') :
      Call c keyp s (true, r, s')
  | kept {r s'} (hf : Frame s s') : Call c keyp s (false, r, s')

theorem writeBack_frame : Frame s (writeBack queued keyp s) := by
  unfold writeBack
  split
  · exact .of_eq rfl rfl rfl rfl
  · exact .refl s

theorem processKeyp_frame (record : Keyrecord) :
    Frame (processRecord c record s).2 (processKeyp c queued record s).2 := writeBack_frame

theorem tappingKey_frame (key : Keyrecord) : Frame s { s with tappingKey := key } :=
  .of_eq rfl rfl rfl rfl

theorem waitingBufferScanTap_frame : Frame s (waitingBufferScanTap c s) := by
  unfold waitingBufferScanTap
  split
  · exact .refl s
  · split
    · exact .refl s
    next buffer _ =>
      have hbuffer : Frame s { s with waitingBuffer := buffer } := .of_eq rfl rfl rfl rfl
      exact hbuffer.trans
        ((processRecord_frame (s.tappingKey.withCount 1)).trans (tappingKey_frame _))

theorem startTapping_frame :
    Frame s (waitingBufferScanTap c { s with tappingKey := keyp }) :=
  (tappingKey_frame _).trans waitingBufferScanTap_frame

theorem passOn_call (hs : keyp.event.pressed = false → passesOn c keyp s) :
    Call c keyp s (passOn c queued keyp s) := by
  cases hp : keyp.event.pressed with
  | true => exact .handled (.inr hp) ((processRecord_frame _).trans (processKeyp_frame _))
  | false => exact .release hp (hs hp) rfl (processKeyp_frame _)

theorem tappingReset_call (hk : s.tappingKey.event.isNoevent) :
    Call c keyp s (tappingReset c queued keyp s) := by
  unfold tappingReset
  split_ifs with hn ht
  · exact .handled (.inl hn) (.refl s)
  · by_cases hs : startsHint c keyp s
    · exact .hint hs waitingBufferScanTap_frame
    · refine .handled (.inr ht.1) (.trans (tappingKey_frame keyp) (.trans ?_
        waitingBufferScanTap_frame))
      -- the tap key is of another kind, and the hint does nothing
      rw [processRecordTapHint, if_neg]
      · exact .refl _
      · rintro ⟨h1, h2⟩
        exact hs (by simp_all [startsHint, layerSwitchGetAction])
  · exact passOn_call fun _ => by simp [passesOn, hk]

theorem tappingUndecided_call (hk : s.tappingKey.event.isNoevent = false)
    (hp : s.tappingKey.event.pressed = true) (hc : s.tappingKey.tap.count = 0)
    (hw : withinTappingTerm c s keyp.event = true) :
    Call c keyp s (tappingUndecided c queued keyp s) := by
  unfold tappingUndecided
  split_ifs with h1 h2 h3 h4
  · exact .kept ((processRecord_frame _).trans ((tappingKey_frame _).trans writeBack_frame))
  · exact .kept (.refl s)
  · refine passOn_call fun hr => ?_
    have hother : isTappingRecord s keyp = false := by
      simpa [hr] using h1
    have htyped : waitingBufferTyped s keyp.event = false := by simpa using h2.2
    simp [passesOn, hk, hp, hc, hw, hother, htyped, h3]
  · exact .kept (tappingKey_frame _)
  · exact .kept (.refl s)

theorem tappingTapped_call {within : Bool} (hk : s.tappingKey.event.isNoevent = false)
    (hp : s.tappingKey.event.pressed = true) (hc : s.tappingKey.tap.count ≠ 0) :
    Call c keyp s (tappingTapped c queued keyp within s) := by
  have hpass : passesOn c keyp s = true := by simp [passesOn, hk, hp, hc]
  unfold tappingTapped
  split_ifs with h1 h2 h3 h4
  · refine .release (by simpa using h1.2) hpass ?_
      ((processKeyp_frame { keyp with tap := s.tappingKey.tap }).trans (tappingKey_frame _))
    rfl
  · refine .release (by simpa using h1.2) hpass ?_
      ((processKeyp_frame { keyp with tap := s.tappingKey.tap }).trans (tappingKey_frame _))
    rfl
  · exact .handled (.inr h3.2) ((processRecord_frame _).trans startTapping_frame)
  · exact .handled (.inr h3.2) startTapping_frame
  · exact passOn_call fun _ => hpass

theorem tappingReleased_call (hk : s.tappingKey.event.isNoevent = false)
    (hp : s.tappingKey.event.pressed = false) :
    Call c keyp s (tappingReleased c queued keyp s) := by
  unfold tappingReleased
  split_ifs with hw hn he h1 h2 h3
  · exact .handled (.inl hn) (.refl s)
  · exact .handled (.inr he) ((processRecord_frame _).trans
      ((processKeyp_frame _).trans (tappingKey_frame _)))
  · exact .handled (.inr he) (tappingKey_frame _)
  · exact .handled (.inr he) startTapping_frame
  · exact .handled (.inr he) ((tappingKey_frame _).trans
      ((processRecord_frame _).trans (processKeyp_frame _)))
  · exact passOn_call fun _ => by simp [passesOn, hk, hp, hw]
  · exact .kept (tappingKey_frame _)

theorem processTapping_call : Call c keyp s (processTapping c queued keyp s) := by
  unfold processTapping
  split_ifs with hk hp hw hn hc hc hn
  · exact tappingReset_call hk
  · exact .handled (.inl hn) (.refl s)
  · exact tappingUndecided_call (by simpa using hk) hp hc hw
  · exact tappingTapped_call (by simpa using hk) hp hc
  · exact .kept ((processRecord_frame _).trans (tappingKey_frame _))
  · exact .handled (.inl hn) (.refl s)
  · exact tappingTapped_call (by simpa using hk) hp hc
  · exact tappingReleased_call (by simpa using hk) (by simpa using hp)

end Calls

section Buffer

variable {c} {s : State} {queued : Bool} {keyp : Keyrecord}

@[simp]
theorem updateSourceLayersCache_waitingBuffer (key : Keypos) (layer : ℕ) :
    (updateSourceLayersCache c key layer s).waitingBuffer = s.waitingBuffer := by
  unfold updateSourceLayersCache
  split <;> rfl

@[simp]
theorem getEventKeycode_waitingBuffer (event : Keyevent) :
    (getEventKeycode c event s).waitingBuffer = s.waitingBuffer := by
  unfold getEventKeycode
  split <;> simp

@[simp]
theorem storeOrGetAction_waitingBuffer (pressed : Bool) (key : Keypos) :
    (storeOrGetAction c pressed key s).2.waitingBuffer = s.waitingBuffer := by
  unfold storeOrGetAction
  split <;> simp

@[simp]
theorem undoHold_waitingBuffer : (undoHold s).waitingBuffer = s.waitingBuffer := by
  unfold undoHold
  split <;> rfl

@[simp]
theorem processAction_waitingBuffer (record : Keyrecord) (action : UInt16) :
    (processAction record action s).2.waitingBuffer = s.waitingBuffer := by
  unfold processAction
  split_ifs <;> simp

@[simp]
theorem processRecord_waitingBuffer (record : Keyrecord) :
    (processRecord c record s).2.waitingBuffer = s.waitingBuffer := by
  unfold processRecord
  split <;> simp

@[simp]
theorem processRecordTapHint_waitingBuffer (record : Keyrecord) :
    (processRecordTapHint c record s).waitingBuffer = s.waitingBuffer := by
  unfold processRecordTapHint
  split_ifs <;> rfl

theorem events_markTap {p : Keyrecord → Bool} {rs buffer : List Keyrecord}
    (h : markTap p rs = some buffer) : buffer.map (·.event) = rs.map (·.event) := by
  induction rs generalizing buffer with
  | nil => cases h
  | cons r rs ih =>
    unfold markTap at h
    split at h
    · cases h
      rfl
    · obtain ⟨buffer', hb, rfl⟩ := Option.map_eq_some_iff.mp h
      rw [List.map_cons, List.map_cons, ih hb]

@[simp]
theorem waitingBufferScanTap_events : (waitingBufferScanTap c s).events = s.events := by
  unfold waitingBufferScanTap
  split
  · rfl
  · split
    · rfl
    next hm => simpa [State.events] using events_markTap hm

@[simp]
theorem processRecord_events (record : Keyrecord) :
    (processRecord c record s).2.events = s.events := by
  simp [State.events]

@[simp]
theorem processRecordTapHint_events (record : Keyrecord) :
    (processRecordTapHint c record s).events = s.events := by
  simp [State.events]

theorem rest_congr {s' : State} (h : s'.events = s.events) : s'.rest queued = s.rest queued := by
  rw [State.rest, State.rest, h]

@[simp]
theorem tappingKey_rest (key : Keyrecord) :
    { s with tappingKey := key }.rest queued = s.rest queued := rfl

@[simp]
theorem processRecord_rest (record : Keyrecord) :
    (processRecord c record s).2.rest queued = s.rest queued := rest_congr (processRecord_events _)

@[simp]
theorem waitingBufferScanTap_rest : (waitingBufferScanTap c s).rest queued = s.rest queued :=
  rest_congr waitingBufferScanTap_events

@[simp]
theorem writeBack_rest : (writeBack queued keyp s).rest queued = s.rest queued := by
  cases queued with
  | false => rfl
  | true =>
    simp only [State.rest, State.events, writeBack, if_true]
    cases s.waitingBuffer <;> rfl

@[simp]
theorem processKeyp_rest : (processKeyp c queued keyp s).2.rest queued = s.rest queued := by
  simp [processKeyp]

@[simp]
theorem passOn_rest : (passOn c queued keyp s).2.2.rest queued = s.rest queued := processKeyp_rest

theorem writeBack_events (h : queued = true → s.events.head? = some keyp.event) :
    (writeBack queued keyp s).events = s.events := by
  cases queued with
  | false => rfl
  | true =>
    specialize h rfl
    rw [State.events] at h
    rw [writeBack, if_pos rfl, State.events, State.events]
    cases hb : s.waitingBuffer with
    | nil => rfl
    | cons r rs =>
      rw [hb] at h
      simp_all

theorem tappingReset_rest : (tappingReset c queued keyp s).2.2.rest queued = s.rest queued := by
  unfold tappingReset
  split_ifs
  · rfl
  · exact waitingBufferScanTap_rest.trans (rest_congr (processRecordTapHint_events _))
  · exact passOn_rest

theorem tappingUndecided_rest :
    (tappingUndecided c queued keyp s).2.2.rest queued = s.rest queued := by
  unfold tappingUndecided
  split_ifs
  · exact writeBack_rest.trans (processRecord_rest (s.tappingKey.withCount 1))
  · rfl
  · exact passOn_rest
  · rfl
  · rfl

theorem tappingTapped_rest {within : Bool} :
    (tappingTapped c queued keyp within s).2.2.rest queued = s.rest queued := by
  unfold tappingTapped
  split_ifs
  · exact processKeyp_rest
  · exact processKeyp_rest
  · exact waitingBufferScanTap_rest.trans (processRecord_rest _)
  · exact waitingBufferScanTap_rest
  · exact passOn_rest

theorem tappingReleased_rest :
    (tappingReleased c queued keyp s).2.2.rest queued = s.rest queued := by
  unfold tappingReleased
  split_ifs
  · rfl
  · exact processKeyp_rest
  · rfl
  · exact waitingBufferScanTap_rest
  · exact passOn_rest
  · exact passOn_rest
  · rfl

theorem processTapping_rest (queued : Bool) (keyp : Keyrecord) (s : State) :
    (processTapping c queued keyp s).2.2.rest queued = s.rest queued := by
  unfold processTapping
  split_ifs
  · exact tappingReset_rest
  · rfl
  · exact tappingUndecided_rest
  · exact tappingTapped_rest
  · exact processRecord_rest _
  · rfl
  · exact tappingTapped_rest
  · exact tappingReleased_rest

theorem tappingReset_handled : (tappingReset c queued keyp s).1 = true := by
  unfold tappingReset passOn
  split_ifs <;> rfl

theorem tappingTapped_handled {within : Bool} :
    (tappingTapped c queued keyp within s).1 = true := by
  unfold tappingTapped passOn
  split_ifs <;> rfl

theorem tappingUndecided_kept (hq : queued = true → s.events.head? = some keyp.event)
    (h : (tappingUndecided c queued keyp s).1 = false) :
    (tappingUndecided c queued keyp s).2.1.event = keyp.event ∧
      (tappingUndecided c queued keyp s).2.2.events = s.events := by
  revert h
  unfold tappingUndecided
  split_ifs <;> intro h
  · refine ⟨rfl, ?_⟩
    have hs := processRecord_events (c := c) (s := s) (s.tappingKey.withCount 1)
    refine Eq.trans (writeBack_events fun h => ?_) hs
    exact hs.symm ▸ hq h
  · exact ⟨rfl, rfl⟩
  · cases h
  · exact ⟨rfl, rfl⟩
  · exact ⟨rfl, rfl⟩

theorem tappingReleased_kept (h : (tappingReleased c queued keyp s).1 = false) :
    (tappingReleased c queued keyp s).2.1.event = keyp.event ∧
      (tappingReleased c queued keyp s).2.2.events = s.events := by
  revert h
  unfold tappingReleased
  split_ifs <;> intro h <;> first | cases h; done | exact ⟨rfl, rfl⟩

theorem processTapping_kept (hq : queued = true → s.events.head? = some keyp.event)
    (h : (processTapping c queued keyp s).1 = false) :
    (processTapping c queued keyp s).2.1.event = keyp.event ∧
      (processTapping c queued keyp s).2.2.events = s.events := by
  revert h
  unfold processTapping
  split_ifs <;> intro h
  · cases tappingReset_handled.symm.trans h
  · cases h
  · exact tappingUndecided_kept hq h
  · cases tappingTapped_handled.symm.trans h
  · exact ⟨rfl, processRecord_events _⟩
  · cases h
  · cases tappingTapped_handled.symm.trans h
  · exact tappingReleased_kept h

end Buffer

section Run

variable {c} {s : State} {queued : Bool} {keyp : Keyrecord} {down : List Keypos}

theorem processRecordTapHint_balanced {P : Keypos → Prop} (hs : startsHint c keyp s)
    (hb : s.swapHands = s.swapHeld) (hh : s.swapHeld = false) (hp : P keyp.event.key) :
    Balanced P (processRecordTapHint c keyp { s with tappingKey := keyp }) := by
  simp only [startsHint, Bool.and_eq_true, decide_eq_true_eq] at hs
  rw [processRecordTapHint, if_pos ⟨hs.1.2, hs.2⟩]
  refine ⟨by simp [hb, hh], fun _ => ?_⟩
  exact ⟨keyp.event.key, lastHint_append_hint _ _, hp⟩

theorem processTapping_balanced (hf : CallFits c down queued keyp s)
    (hb : Balanced (fun key => Awaits c down (s.rest queued) s key ∨ Releases keyp.event key) s) :
    Balanced (fun key => Awaits c down (s.rest queued) s key ∨
      (processTapping c queued keyp s).1 = false ∧ Releases keyp.event key)
        (processTapping c queued keyp s).2.2 := by
  have hr : Call c keyp s (processTapping c queued keyp s) := processTapping_call
  generalize processTapping c queued keyp s = r at hr ⊢
  cases hr with
  | hint hs hframe =>
    obtain ⟨hh, hp⟩ := hf.1 hs
    exact hframe.balanced (processRecordTapHint_balanced hs hb.1 hh (.inl hp))
  | @release record r s' hp hs he hframe =>
    have hall := (processRecord_frame record).trans hframe
    refine (hall.balanced hb).imp fun hheld key hkey haw => .inl ?_
    rcases haw with haw | haw
    · exact haw
    · -- the release that holds the swap is the one that is passed on
      obtain rfl : keyp.event.key = key := haw.2.2
      have ha := hf.2 haw hs (hall.held_of_held hheld) (by rwa [hall.hint] at hkey)
      have hrec : Releases record.event keyp.event.key := he ▸ haw
      have hdone := processRecord_release hrec ha
      exact absurd (hframe.held_of_held hheld) (Bool.eq_false_iff.mp hdone)
  | handled hp hframe =>
    refine (hframe.balanced hb).imp fun _ key _ haw => .inl (haw.resolve_right ?_)
    rintro ⟨he, hu, -⟩
    rcases hp with hp | hp
    · simp_all [Keyevent.isEvent, Keyevent.isNoevent]
    · simp_all
  | kept hframe =>
    exact (hframe.balanced hb).imp fun _ key _ haw => haw.imp_right fun h => ⟨rfl, h⟩

theorem awaits_processTapping (down : List Keypos) (queued : Bool) (keyp : Keyrecord) (s : State)
    (events : List Keyevent) :
    Awaits c down events (processTapping c queued keyp s).2.2 = Awaits c down events s := by
  have hr : Call c keyp s (processTapping c queued keyp s) := processTapping_call
  generalize processTapping c queued keyp s = r at hr ⊢
  cases hr with
  | hint hs hframe =>
    have hhint : Awaits c down events (processRecordTapHint c keyp { s with tappingKey := keyp }) =
        Awaits c down events s := by
      unfold processRecordTapHint
      split <;> rfl
    exact (hframe.awaits down events).trans hhint
  | release hp hs he hframe => exact ((processRecord_frame _).trans hframe).awaits down events
  | handled hp hframe => exact hframe.awaits down events
  | kept hframe => exact hframe.awaits down events

theorem awaits_append {events : List Keyevent} {e : Keyevent} {key : Keypos} :
    Awaits c down (events ++ [e]) s key ↔ Awaits c down events s key ∨ Releases e key := by
  simp only [Awaits, List.mem_append, List.mem_singleton, or_and_right, exists_or, exists_eq_left,
    or_assoc]

theorem awaits_cons {events : List Keyevent} {e : Keyevent} {key : Keypos} :
    Awaits c down (e :: events) s key ↔ Awaits c down events s key ∨ Releases e key := by
  simp only [Awaits, List.mem_cons, or_and_right, exists_or, exists_eq_left, or_assoc]
  rw [or_comm (a := Releases e key)]

/-- Between two events the key of the hint is down or its release is in the buffer. -/
abbrev Settled (c : Config) (down : List Keypos) (s : State) : Prop :=
  Balanced (Awaits c down s.events s) s

theorem processWaitingBuffer_settled (n : ℕ) (hf : LoopFits c down n s) (hb : Settled c down s) :
    Settled c down (processWaitingBuffer c n s) := by
  induction n generalizing s with
  | zero => exact hb
  | succ n ih =>
    cases hbuf : s.waitingBuffer with
    | nil => simpa only [processWaitingBuffer, hbuf] using hb
    | cons record rs =>
      replace hf := hf record (by simp [hbuf])
      simp only [processWaitingBuffer, hbuf]
      have hevents : s.events = record.event :: s.rest true := by
        simp [State.rest, State.events, hbuf]
      have hcall := processTapping_balanced hf.1 (hb.imp fun _ key _ haw => by
        rwa [hevents, awaits_cons] at haw)
      have hrest := processTapping_rest (c := c) true record s
      generalize hr : processTapping c true record s = r at hf hcall hrest ⊢
      have hawaits : ∀ events, Awaits c down events r.2.2 = Awaits c down events s :=
        fun events => hr ▸ awaits_processTapping down true record s events
      split_ifs with hdone
      · refine ih (hf.2 hdone) ?_
        have hpop : (waitingBufferPop r.2.2).events = s.rest true := by
          rw [← hrest]
          simp [waitingBufferPop, State.events, State.rest]
        rw [Settled, hpop]
        have hframe : Frame r.2.2 (waitingBufferPop r.2.2) := .of_eq rfl rfl rfl rfl
        refine hframe.balanced (hcall.imp fun _ key _ haw => ?_)
        rw [hframe.awaits, hawaits]
        exact haw.resolve_right fun h => by simp [hdone] at h
      · have hkept := (hr ▸ processTapping_kept (c := c) (s := s) (fun _ => by simp [hevents])
          (by rw [hr]; simpa using hdone) : r.2.1.event = record.event ∧ r.2.2.events = s.events)
        rw [Settled, hkept.2, hevents, hawaits]
        exact hcall.imp fun _ key _ haw => awaits_cons.mpr (haw.imp_right And.right)

theorem enqueueOrClear_settled (hf : OverflowFits c down keyp s)
    (hb : Balanced (fun key => Awaits c down s.events s key ∨ Releases keyp.event key) s) :
    Settled c down (enqueueOrClear keyp s) := by
  unfold enqueueOrClear
  split_ifs with hn hfull
  · refine hb.imp fun _ key _ haw => haw.resolve_right fun h => ?_
    have he := h.1
    simp_all [Keyevent.isEvent, Keyevent.isNoevent]
  · refine ⟨hb.1, fun hheld => ?_⟩
    have he : keyp.event.isEvent = true := by
      simpa [Keyevent.isEvent, Keyevent.isNoevent] using hn
    obtain ⟨key, hkey, hdown⟩ := hf he hfull hheld
    exact ⟨key, (lastHint_append_clearKeyboard _).trans hkey, .inl hdown⟩
  · have hframe : Frame s { s with waitingBuffer := s.waitingBuffer ++ [keyp] } :=
      .of_eq rfl rfl rfl rfl
    refine hframe.balanced (hb.imp fun _ key _ haw => ?_)
    rw [hframe.awaits, State.events, List.map_append, List.map_singleton, awaits_append]
    exact haw

theorem processOrEnqueue_settled (hf : CallFits c down false keyp s)
    (ho : (processTapping c false keyp s).1 = false →
      OverflowFits c down (processTapping c false keyp s).2.1 (processTapping c false keyp s).2.2)
    (hb : Balanced (fun key => Awaits c down s.events s key ∨ Releases keyp.event key) s) :
    Settled c down (processOrEnqueue c keyp s) := by
  have hcall := processTapping_balanced hf hb
  have hrest := processTapping_rest (c := c) false keyp s
  have hawaits := awaits_processTapping (c := c) down false keyp s
  have hkept := @processTapping_kept c s false keyp nofun
  unfold processOrEnqueue
  generalize processTapping c false keyp s = r at *
  have hevents : r.2.2.events = s.events := hrest
  change Settled c down (if r.1 = true then r.2.2 else enqueueOrClear r.2.1 r.2.2)
  split_ifs with hdone
  · rw [Settled, hawaits, hevents]
    exact hcall.imp fun _ key _ haw => haw.resolve_right fun h => by simp [hdone] at h
  · have hfalse : r.1 = false := by simpa using hdone
    refine enqueueOrClear_settled (ho hfalse) ?_
    rw [hawaits, hevents, (hkept hfalse).1]
    exact hcall.imp fun _ key _ haw => haw.imp_right And.right

theorem processHandSwap_state (event : Keyevent) :
    (processHandSwap c event s).2 = s ∨
      ∃ on, (processHandSwap c event s).2 = setSwapHandsState event.key on s := by
  unfold processHandSwap
  split_ifs
  · exact .inr ⟨true, rfl⟩
  · exact .inr ⟨false, rfl⟩
  · exact .inl rfl

theorem processHandSwap_release (pos : Keypos) (time : UInt16) :
    (processHandSwap c ⟨pos, time, .key, false⟩ s).1 = ⟨logicalKey c s pos, time, .key, false⟩ := by
  cases hm : c.inMatrix pos <;> cases hs : s.matrixSwapState pos <;>
    simp [processHandSwap, logicalKey, shouldSwapHands, hm, hs]

theorem logicalKey_setSwapHandsState {pos pos' : Keypos} {on : Bool} (h : pos' ≠ pos) :
    logicalKey c (setSwapHandsState pos on s) pos' = logicalKey c s pos' := by
  simp [logicalKey, setSwapHandsState, Function.update_of_ne h]

theorem logicalKey_processHandSwap {event : Keyevent} {pos : Keypos} (h : pos ≠ event.key) :
    logicalKey c (processHandSwap c event s).2 pos = logicalKey c s pos := by
  obtain hs | ⟨on, hs⟩ := processHandSwap_state (c := c) (s := s) event
  · rw [hs]
  · rw [hs, logicalKey_setSwapHandsState h]

theorem processHandSwap_balanced {P : Keypos → Prop} (event : Keyevent) (hb : Balanced P s) :
    Balanced P (processHandSwap c event s).2 := by
  obtain hs | ⟨on, hs⟩ := processHandSwap_state (c := c) (s := s) event
  · rwa [hs]
  · rw [hs]
    exact hb

theorem processHandSwap_events (event : Keyevent) :
    (processHandSwap c event s).2.events = s.events := by
  obtain hs | ⟨on, hs⟩ := processHandSwap_state (c := c) (s := s) event <;> rw [hs]
  rfl

theorem awaits_processHandSwap {pos key : Keypos} {pressed : Bool} {time : UInt16}
    {events : List Keyevent} (ha : (Input.key pos pressed time).Alternates down)
    (h : Awaits c down events s key) :
    Awaits c ((Input.key pos pressed time).downAfter down) events
        (processHandSwap c ⟨pos, time, .key, pressed⟩ s).2 key ∨
      Releases (processHandSwap c ⟨pos, time, .key, pressed⟩ s).1 key := by
  rcases h with ⟨pos', hdown, hkey⟩ | h
  · cases pressed with
    | true =>
      have hne : pos' ≠ pos := fun h => ha.mp rfl (h ▸ hdown)
      refine .inl (.inl ⟨pos', List.mem_cons_of_mem _ hdown, ?_⟩)
      rwa [logicalKey_processHandSwap hne]
    | false =>
      by_cases hne : pos' = pos
      · right
        rw [processHandSwap_release]
        exact ⟨rfl, rfl, hne ▸ hkey⟩
      · refine .inl (.inl ⟨pos', (List.mem_erase_of_ne hne).mpr hdown, ?_⟩)
        rwa [logicalKey_processHandSwap hne]
  · exact .inl (.inr h)

theorem preProcess_settled {i : Input} (ha : i.Alternates down) (hb : Settled c down s) :
    Balanced (fun key => Awaits c (i.downAfter down) (preProcess c i.event s).2.events
      (preProcess c i.event s).2 key ∨ Releases (preProcess c i.event s).1 key)
        (preProcess c i.event s).2 := by
  cases i with
  | tick time => exact hb.imp fun _ key _ haw => .inl haw
  | key pos pressed time =>
    have hpre : preProcess c (Input.key pos pressed time).event s =
        ((processHandSwap c ⟨pos, time, .key, pressed⟩ s).1,
          getEventKeycode c (processHandSwap c ⟨pos, time, .key, pressed⟩ s).1
            (processHandSwap c ⟨pos, time, .key, pressed⟩ s).2) := rfl
    have hframe := getEventKeycode_frame (c := c)
      (s := (processHandSwap c ⟨pos, time, .key, pressed⟩ s).2)
      (processHandSwap c ⟨pos, time, .key, pressed⟩ s).1
    have hevents := processHandSwap_events (c := c) (s := s) ⟨pos, time, .key, pressed⟩
    rw [State.events] at hevents
    rw [hpre]
    refine hframe.balanced ((processHandSwap_balanced _ hb).imp fun _ key _ haw => ?_)
    rw [hframe.awaits, State.events, getEventKeycode_waitingBuffer, hevents]
    exact awaits_processHandSwap ha haw

theorem step_settled {o : Observed} {i : Input} (ha : i.Alternates o.down)
    (hf : ExecFits c (i.downAfter o.down) i.event o.state) (hb : Settled c o.down o.state) :
    Settled c (o.step c i).down (o.step c i).state := by
  obtain ⟨hcall, hover, hloop⟩ := hf
  exact processWaitingBuffer_settled _ hloop
    (processOrEnqueue_settled hcall hover (preProcess_settled ha hb))

theorem run_settled {o : Observed} {inputs : List Input} (ha : Alternate o.down inputs)
    (hf : RunFits c o inputs) (hb : Settled c o.down o.state) :
    Settled c (run c o inputs).down (run c o inputs).state := by
  induction inputs generalizing o with
  | nil => exact hb
  | cons i inputs ih => exact ih ha.2 hf.2 (step_settled ha.1 hf.1 hb)

/-- As long as no hint comes while a swap is held or after the release of its key, the release of
that key finds the action of its press and no overflow drops it, no swap is left. -/
theorem run_noSwapLeft (inputs : List Input) (ha : Alternate [] inputs)
    (hf : RunFits c {} inputs) : NoSwapLeft (run c {} inputs) := by
  have hstart : Settled c [] {} := ⟨rfl, nofun⟩
  obtain ⟨hhands, hheld⟩ := run_settled ha hf hstart
  intro hdown hbuf
  have hfalse : (run c {} inputs).state.swapHeld = false := by
    by_contra h
    obtain ⟨key, -, haw⟩ := hheld (by simpa using h)
    simp [Awaits, KeyDown, State.events, hdown, hbuf] at haw
  exact ⟨hhands.trans hfalse, hfalse⟩

end Run

section Small

/-- Two hands of two keys, all of them the same swap-hands key. -/
def Config.small : Config where
  matrixRows := 2
  matrixCols := 2
  handSwapConfig key := { key with col := 1 - key.col }
  tappingTerm := 200
  quickTapTerm := 200
  actionForKey _ _ := 0x6004
  layerSwitchGetLayer _ _ := 0
  swapCode _ _ := by decide

/-- A swap-hands key is held while a key of the same hand is tapped. -/
def heldRun : List Input :=
  [.key ⟨0, 0⟩ true 0, .tick 250, .key ⟨0, 0⟩ false 300, .key ⟨0, 1⟩ true 600,
    .key ⟨0, 1⟩ false 700]

theorem heldRun_noSwapLeft : NoSwapLeft (run Config.small {} heldRun) :=
  run_noSwapLeft heldRun (by decide) (by decide)

/-- A second swap-hands key goes down while the first one is held. -/
def rolledRun : List Input :=
  [.key ⟨0, 0⟩ true 0, .tick 250, .key ⟨0, 1⟩ true 260, .key ⟨0, 0⟩ false 300,
    .key ⟨0, 1⟩ false 320]

theorem small_involutive : Function.Involutive Config.small.handSwapConfig := by
  rintro ⟨col, row⟩
  have hcol : 1 - (1 - col) = col := by grind
  simp [Config.small, hcol]

/-- The hints of both keys swap the hands, and only one of them is undone. -/
theorem rolledRun_swapLeft :
    Function.Involutive Config.small.handSwapConfig ∧ Alternate [] rolledRun ∧
      (run Config.small {} rolledRun).down = [] ∧
      (run Config.small {} rolledRun).state.waitingBuffer = [] ∧
      (run Config.small {} rolledRun).state.tappingKey = .none ∧
      (run Config.small {} rolledRun).state.swapHands = true := by
  refine ⟨small_involutive, ?_⟩
  decide

end Small

end Qmk.SwapHands
