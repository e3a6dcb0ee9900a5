import Qmk.Tapping.Engine

/-! # Swap hands

Key events on their way through `action_exec` and the tap-hold engine of the default configuration
into `process_action`, with swap hands enabled. A swap-hands key swaps the hands as soon as it
starts to wait, and the swap is undone when it turns out to be a tap or is released.
-/

namespace Qmk.SwapHands

open Tapping

/-- What leaves the engine: the hints that swap the hands, the calls of `process_action` and those
of `clear_keyboard`. -/
inductive Effect
  | hint (key : Keypos)
  | processAction (record : Keyrecord) (action : UInt16)
  | clearKeyboard
  deriving DecidableEq

def actSwapHands : ℕ := 0b0110

def isSwapHands (action : UInt16) : Bool := kindId action = actSwapHands

/-- The keymap and the configuration. The layer of a key may depend on everything that has left the
engine before. The codes from `OP_SH_TOGGLE` on are other operations than `SH_T(kc)`. -/
structure Config where
  matrixRows : ℕ
  matrixCols : ℕ
  handSwapConfig : Keypos → Keypos
  tappingTerm : UInt16
  quickTapTerm : UInt16
  actionForKey : ℕ → Keypos → UInt16
  layerSwitchGetLayer : List Effect → Keypos → ℕ
  swapCode : ∀ layer key, isSwapHands (actionForKey layer key) →
    keyCode (actionForKey layer key) < 0xF0

structure State where
  swapHands : Bool := false
  swapHeld : Bool := false
  matrixSwapState : Keypos → Bool := fun _ => false
  sourceLayersCache : Keypos → ℕ := fun _ => 0
  tappingKey : Keyrecord := .none
  waitingBuffer : List Keyrecord := []
  effects : List Effect := []

variable (c : Config)

def Config.inMatrix (key : Keypos) : Bool :=
  key.row.toNat < c.matrixRows ∧ key.col.toNat < c.matrixCols

section HandSwap

def shouldSwapHands (pos : Keypos) (pressed : Bool) (s : State) : Bool :=
  if pressed then s.swapHands else s.matrixSwapState pos

def setSwapHandsState (pos : Keypos) (on : Bool) (s : State) : State :=
  { s with matrixSwapState := Function.update s.matrixSwapState pos on }

/-- `process_hand_swap`: a press goes to the other hand while the hands are swapped, and its release
goes where the press went. -/
def processHandSwap (event : Keyevent) (s : State) : Keyevent × State :=
  if event.type = .key ∧ c.inMatrix event.key then
    if shouldSwapHands event.key event.pressed s then
      ({ event with key := c.handSwapConfig event.key }, setSwapHandsState event.key true s)
    else (event, setSwapHandsState event.key false s)
  else (event, s)

end HandSwap

section Action

def updateSourceLayersCache (key : Keypos) (layer : ℕ) (s : State) : State :=
  if c.inMatrix key then
    { s with sourceLayersCache := Function.update s.sourceLayersCache key layer }
  else s

def readSourceLayersCache (key : Keypos) (s : State) : ℕ :=
  if c.inMatrix key then s.sourceLayersCache key else 0

def layerSwitchGetAction (key : Keypos) (s : State) : UInt16 :=
  c.actionForKey (c.layerSwitchGetLayer s.effects key) key

/-- What `get_event_keycode` does to the cache when it may update it; the keycode is for other
features. -/
def getEventKeycode (event : Keyevent) (s : State) : State :=
  if event.pressed then
    updateSourceLayersCache c event.key (c.layerSwitchGetLayer s.effects event.key) s
  else s

def cachedAction (key : Keypos) (s : State) : UInt16 :=
  c.actionForKey (readSourceLayersCache c key s) key

def storeOrGetAction (pressed : Bool) (key : Keypos) (s : State) : UInt16 × State :=
  if pressed then
    let layer := c.layerSwitchGetLayer s.effects key
    (c.actionForKey layer key, updateSourceLayersCache c key layer s)
  else (cachedAction c key s, s)

def undoHold (s : State) : State :=
  if s.swapHeld then { s with swapHands := !s.swapHands, swapHeld := false } else s

/-- `process_action`, which may reset the record. The trace stands for what it does besides swapping
hands. -/
def processAction (record : Keyrecord) (action : UInt16) (s : State) : Keyrecord × State :=
  let s := { s with effects := s.effects ++ [.processAction record action] }
  if isSwapHands action then
    if 0 < record.tap.count then
      let s := undoHold s
      if record.event.pressed then (record, s) else (.none, s)
    else if record.event.pressed then (record, s)
    else (record, undoHold s)
  else (record, s)

def processRecord (record : Keyrecord) (s : State) : Keyrecord × State :=
  if record.event.isNoevent then (record, s)
  else
    let s := getEventKeycode c record.event s
    let r := storeOrGetAction c record.event.pressed record.event.key s
    processAction record r.1 r.2

def processRecordTapHint (record : Keyrecord) (s : State) : State :=
  if record.event.type = .key ∧ isSwapHands (layerSwitchGetAction c record.event.key s) then
    { s with
      swapHands := !s.swapHands
      swapHeld := true
      effects := s.effects ++ [.hint record.event.key] }
  else s

end Action

section Tapping

def isTapRecord (s : State) (record : Keyrecord) : Bool :=
  record.event.isEvent && isTapAction (layerSwitchGetAction c record.event.key s)

def withinTappingTerm (s : State) (e : Keyevent) : Bool :=
  timerDiff16 e.time s.tappingKey.event.time < c.tappingTerm

def withinQuickTapTerm (s : State) (e : Keyevent) : Bool :=
  timerDiff16 e.time s.tappingKey.event.time < c.quickTapTerm

def isTappingRecord (s : State) (record : Keyrecord) : Bool :=
  s.tappingKey.event.key = record.event.key

def waitingBufferTyped (s : State) (e : Keyevent) : Bool :=
  s.waitingBuffer.any fun r => r.event.key = e.key ∧ e.pressed ≠ r.event.pressed

def isTapRelease (s : State) (candidate : Keyrecord) : Bool :=
  candidate.event.isEvent ∧ candidate.event.key = s.tappingKey.event.key ∧
    ¬ candidate.event.pressed ∧ withinTappingTerm c s candidate.event

def waitingBufferScanTap (s : State) : State :=
  if 0 < s.tappingKey.tap.count ∨ ¬ s.tappingKey.event.pressed then s
  else
    match markTap (isTapRelease c s) s.waitingBuffer with
    | none => s
    | some buffer =>
      let r := processRecord c (s.tappingKey.withCount 1) { s with waitingBuffer := buffer }
      { r.2 with tappingKey := r.1 }

/-- A change of the first record of the waiting buffer, when `keyp` points to it. -/
def writeBack (queued : Bool) (keyp : Keyrecord) (s : State) : State :=
  if queued then { s with waitingBuffer := s.waitingBuffer.set 0 keyp } else s

def processKeyp (queued : Bool) (keyp : Keyrecord) (s : State) : Keyrecord × State :=
  let r := processRecord c keyp s
  (r.1, writeBack queued r.1 r.2)

def endTapping (s : State) : State := { s with tappingKey := .none }

/-- The record is processed at once, and nothing else happens. -/
def passOn (queued : Bool) (keyp : Keyrecord) (s : State) : Bool × Keyrecord × State :=
  (true, processKeyp c queued keyp s)

/-- There is no tapping key. Only here does the tap hint come. -/
def tappingReset (queued : Bool) (keyp : Keyrecord) (s : State) : Bool × Keyrecord × State :=
  if keyp.event.isNoevent then (true, keyp, s)
  else if keyp.event.pressed ∧ isTapRecord c s keyp then
    let s := processRecordTapHint c keyp { s with tappingKey := keyp }
    (true, keyp, waitingBufferScanTap c s)
  else passOn c queued keyp s

/-- The tapping key is pressed and undecided, and the event comes within the tapping term. -/
def tappingUndecided (queued : Bool) (keyp : Keyrecord) (s : State) : Bool × Keyrecord × State :=
  if isTappingRecord s keyp ∧ ¬ keyp.event.pressed then
    let r := processRecord c (s.tappingKey.withCount 1) s
    let keyp := { keyp with tap := r.1.tap }
    (false, keyp, writeBack queued keyp { r.2 with tappingKey := r.1 })
  else if ¬ keyp.event.pressed ∧ ¬ waitingBufferTyped s keyp.event then
    if isRetained (layerSwitchGetAction c keyp.event.key s) keyp.tap.count then (false, keyp, s)
    else passOn c queued keyp s
  else if keyp.event.pressed then
    (false, keyp, { s with tappingKey := s.tappingKey.withInterrupted true })
  else (false, keyp, s)

/-- The release that the engine makes up for a key that has been tapped more than once. -/
def unregisterRecord (s : State) (time : UInt16) : Keyrecord where
  event := { s.tappingKey.event with time := time, pressed := false }
  tap := s.tappingKey.tap

/-- The tapping key is pressed and counts as a tap; `within` is false after the tapping term. -/
def tappingTapped (queued : Bool) (keyp : Keyrecord) (within : Bool) (s : State) :
    Bool × Keyrecord × State :=
  if isTappingRecord s keyp ∧ ¬ keyp.event.pressed then
    let r := processKeyp c queued { keyp with tap := s.tappingKey.tap } s
    (true, r.1, if within then { r.2 with tappingKey := r.1 } else endTapping r.2)
  else if isTapRecord c s keyp ∧ keyp.event.pressed then
    let s := if 1 < s.tappingKey.tap.count then
        (processRecord c (unregisterRecord s keyp.event.time) s).2
      else s
    (true, keyp, waitingBufferScanTap c { s with tappingKey := keyp })
  else passOn c queued keyp s

def tappingReleased (queued : Bool) (keyp : Keyrecord) (s : State) : Bool × Keyrecord × State :=
  if withinTappingTerm c s keyp.event then
    if keyp.event.isNoevent then (true, keyp, s)
    else if keyp.event.pressed then
      if isTappingRecord s keyp then
        if withinQuickTapTerm c s keyp.event ∧ ¬ s.tappingKey.tap.interrupted ∧
            0 < s.tappingKey.tap.count then
          let tap := s.tappingKey.tap
          let count := if tap.count < 15 then tap.count + 1 else tap.count
          let r := processKeyp c queued { keyp with tap := { tap with count } } s
          (true, r.1, { r.2 with tappingKey := r.1 })
        else (true, keyp, { s with tappingKey := keyp })
      else if isTapRecord c s keyp then
        (true, keyp, waitingBufferScanTap c { s with tappingKey := keyp })
      else passOn c queued keyp { s with tappingKey := s.tappingKey.withInterrupted true }
    else passOn c queued keyp s
  else (false, keyp, endTapping s)

/-- `process_tapping`: whether the event is processed or consumed, the record that `keyp` points to
and the state afterwards. -/
def processTapping (queued : Bool) (keyp : Keyrecord) (s : State) : Bool × Keyrecord × State :=
  if s.tappingKey.event.isNoevent then tappingReset c queued keyp s
  else if s.tappingKey.event.pressed then
    if withinTappingTerm c s keyp.event then
      if keyp.event.isNoevent then (true, keyp, s)
      else if s.tappingKey.tap.count = 0 then tappingUndecided c queued keyp s
      else tappingTapped c queued keyp true s
    else if s.tappingKey.tap.count = 0 then
      (false, keyp, endTapping (processRecord c s.tappingKey s).2)
    else if keyp.event.isNoevent then (true, keyp, s)
    else tappingTapped c queued keyp false s
  else tappingReleased c queued keyp s

/-- A record that is not processed waits in the buffer; an overflow clears everything. -/
def enqueueOrClear (record : Keyrecord) (s : State) : State :=
  if record.event.isNoevent then s
  else if s.waitingBuffer.length + 1 = waitingBufferSize then
    { s with
      effects := s.effects ++ [.clearKeyboard]
      waitingBuffer := []
      tappingKey := .none }
  else { s with waitingBuffer := s.waitingBuffer ++ [record] }

def waitingBufferPop (s : State) : State := { s with waitingBuffer := s.waitingBuffer.tail }

/-- The loop over the waiting buffer; `n` bounds the passes. -/
def processWaitingBuffer : ℕ → State → State
  | 0, s => s
  | n + 1, s =>
    match s.waitingBuffer with
    | [] => s
    | record :: _ =>
      let r := processTapping c true record s
      if r.1 then processWaitingBuffer n (waitingBufferPop r.2.2) else r.2.2

/-- The first half of `action_tapping_process`, for the record that arrives. -/
def processOrEnqueue (record : Keyrecord) (s : State) : State :=
  let r := processTapping c false record s
  if r.1 then r.2.2 else enqueueOrClear r.2.1 r.2.2

def actionTappingProcess (record : Keyrecord) (s : State) : State :=
  let s := processOrEnqueue c record s
  processWaitingBuffer c s.waitingBuffer.length s

end Tapping

/-- The part of `action_exec` before the engine: the hands and `pre_process_record_quantum`. -/
def preProcess (event : Keyevent) (s : State) : Keyevent × State :=
  if event.isNoevent then (event, s)
  else
    let r := processHandSwap c event s
    (r.1, getEventKeycode c r.1 r.2)

def actionExec (s : State) (event : Keyevent) : State :=
  let r := preProcess c event s
  actionTappingProcess c { event := r.1 } r.2

/-- A physical key goes down or up, or time passes. -/
inductive Input
  | key (pos : Keypos) (pressed : Bool) (time : UInt16)
  | tick (time : UInt16)
  deriving DecidableEq

def Input.event : Input → Keyevent
  | .key pos pressed time => ⟨pos, time, .key, pressed⟩
  | .tick time => .makeTick time

def step (s : State) (i : Input) : State := actionExec c s i.event

end Qmk.SwapHands
