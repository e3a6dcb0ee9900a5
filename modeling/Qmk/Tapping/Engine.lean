import Mathlib.Tactic

/-! # The tap-hold engine

The state machine of `action_tapping.c` with its waiting buffer. Features chosen
at compile time are flags, what the keymap and the user callbacks answer is a
parameter, and the calls that leave the engine are collected in a trace.
-/

namespace Qmk.Tapping

structure Keypos where
  col : UInt8
  row : UInt8
  deriving DecidableEq, Repr

inductive KeyeventType
  | tick | key | encoderCw | encoderCcw | combo | dipSwitchOn | dipSwitchOff
  deriving DecidableEq, Repr

structure Keyevent where
  key : Keypos
  time : UInt16
  type : KeyeventType
  pressed : Bool
  deriving DecidableEq, Repr

def Keyevent.isNoevent (e : Keyevent) : Bool := e.type = .tick

def Keyevent.isEvent (e : Keyevent) : Bool := e.type ≠ .tick

def Keyevent.makeTick (time : UInt16) : Keyevent := ⟨⟨0, 0⟩, time, .tick, false⟩

/-- `tap_t`; the count is a 4-bit field that the engine never raises above 15. -/
structure Tap where
  interrupted : Bool := false
  count : ℕ := 0
  deriving DecidableEq, Repr

/-- `keyrecord_t` without the keycode field, which only combos and the repeat key have. -/
structure Keyrecord where
  event : Keyevent
  tap : Tap := {}
  deriving DecidableEq, Repr

/-- The zero-initialised record, which stands for no record. -/
def Keyrecord.none : Keyrecord := { event := Keyevent.makeTick 0 }

def Keyrecord.withCount (r : Keyrecord) (count : ℕ) : Keyrecord :=
  { r with tap := { r.tap with count := count } }

def Keyrecord.withInterrupted (r : Keyrecord) (interrupted : Bool) : Keyrecord :=
  { r with tap := { r.tap with interrupted := interrupted } }

/-- What leaves the engine: calls of `process_record`, those of them that the engine makes up to
unregister a key, additions to `registered_taps` and calls of `clear_keyboard`. -/
inductive Effect
  | processRecord (record : Keyrecord)
  | unregister (record : Keyrecord)
  | registerTap (key : Keypos)
  | clearKeyboard
  deriving DecidableEq, Repr

/-- The answers of the keymap and of the callbacks. They may depend on everything that has left the
engine before, as the layer state does. -/
structure Decisions where
  layerSwitchGetAction : List Effect → Keypos → UInt16
  getRecordKeycode : List Effect → Keyrecord → UInt16
  getTappingTerm : List Effect → Keyrecord → UInt16
  getQuickTapTerm : List Effect → Keyrecord → UInt16
  getPermissiveHold : List Effect → Keyrecord → Bool
  getHoldOnOtherKeyPress : List Effect → Keyrecord → Bool
  getChordalHold : List Effect → Keyrecord → Keyrecord → Bool
  getFlowTapTerm : List Effect → Keyrecord → UInt16 → UInt16

/-- `CHORDAL_HOLD` and `FLOW_TAP_TERM`; both are off in the default configuration. -/
structure Features where
  chordalHold : Bool := false
  flowTap : Bool := false
  deriving DecidableEq, Repr

/-- The static variables of the engine and the trace of its effects, oldest first. The waiting
buffer is listed from tail to head. -/
structure Engine where
  tappingKey : Keyrecord := .none
  waitingBuffer : List Keyrecord := []
  registeredTaps : List Keypos := []
  flowTapPrevKeycode : UInt16 := 0
  flowTapPrevTime : UInt16 := 0
  flowTapExpired : Bool := true
  effects : List Effect := []

def waitingBufferSize : ℕ := 8

def registeredTapsSize : ℕ := 8

section Action

def kindId (action : UInt16) : ℕ := action.toNat / 4096

def keyMods (action : UInt16) : ℕ := action.toNat / 256 % 16

/-- `action.key.code`, which is also `action.layer_tap.code` and `action.swap.code`. -/
def keyCode (action : UInt16) : ℕ := action.toNat % 256

def isModifierKeycode (code : ℕ) : Bool := 0xE0 ≤ code ∧ code ≤ 0xE7

/-- `ACT_LMODS_TAP`, `ACT_RMODS_TAP`, `ACT_LAYER_TAP` and `ACT_LAYER_TAP_EXT` with a basic keycode,
`OP_TAP_TOGGLE` or `OP_ONESHOT`; `ACT_SWAP_HANDS` with a basic keycode or `OP_SH_TAP_TOGGLE`. -/
def isTapAction (action : UInt16) : Bool :=
  if kindId action ∈ [0b0010, 0b0011, 0b1010, 0b1011] then
    keyCode action ≤ 0xE7 ∨ keyCode action = 0xF0 ∨ keyCode action = 0xF4
  else if kindId action = 0b0110 then keyCode action ≤ 0xE7 ∨ keyCode action = 0xF1
  else false

/-- Whether the release of a modifier or layer key is kept back until tapping ends; `count` is the
tap count of the release. -/
def isRetained (action : UInt16) (count : ℕ) : Bool :=
  if kindId action ∈ [0b0000, 0b0001] then
    (keyMods action ≠ 0 ∧ keyCode action = 0) ∨ isModifierKeycode (keyCode action)
  else if kindId action ∈ [0b0010, 0b0011] then
    (keyMods action ≠ 0 ∧ count = 0) ∨ isModifierKeycode (keyCode action)
  else if kindId action ∈ [0b1010, 0b1011] then
    keyCode action < 0xF0 ∨ keyCode action ∈ [0xF1, 0xF2, 0xF3]
  else false

/-- `IS_QK_MOD_TAP` or `IS_QK_LAYER_TAP`. -/
def isMtOrLt (keycode : UInt16) : Bool := 0x2000 ≤ keycode ∧ keycode ≤ 0x4FFF

end Action

variable (f : Features) (d : Decisions)

def isTapRecord (s : Engine) (record : Keyrecord) : Bool :=
  record.event.isEvent && isTapAction (d.layerSwitchGetAction s.effects record.event.key)

def timerDiff16 (a b : UInt16) : UInt16 := a - b

def withinTappingTerm (s : Engine) (e : Keyevent) : Bool :=
  timerDiff16 e.time s.tappingKey.event.time < d.getTappingTerm s.effects s.tappingKey

def withinQuickTapTerm (s : Engine) (e : Keyevent) : Bool :=
  timerDiff16 e.time s.tappingKey.event.time < d.getQuickTapTerm s.effects s.tappingKey

def isTappingRecord (s : Engine) (record : Keyrecord) : Bool :=
  s.tappingKey.event.key = record.event.key

section Emit

/-- Releases after which Flow Tap keeps the last event it has seen: those of modifiers, of held
layer switches and of one-shot keys. -/
def flowTapIgnoresRelease (keycode : UInt16) (count : ℕ) : Bool :=
  (0xE0 ≤ keycode ∧ keycode ≤ 0xE7) ∨ (0x5220 ≤ keycode ∧ keycode ≤ 0x523F) ∨
  (0x5280 ≤ keycode ∧ keycode ≤ 0x52DF) ∨
  (0x0100 ≤ keycode ∧ keycode ≤ 0x1FFF ∧ keycode &&& 0xFF = 0) ∨
  (0x2000 ≤ keycode ∧ keycode ≤ 0x4FFF ∧ count = 0)

def flowTapUpdateLastEvent (record : Keyrecord) (s : Engine) : Engine :=
  let keycode := d.getRecordKeycode s.effects record
  if record.tap.count = 0 ∧ (s.waitingBuffer ≠ [] ∨
      (s.tappingKey.event.pressed ∧ s.tappingKey.tap.count = 0)) then s
  else if ¬ record.event.pressed ∧ flowTapIgnoresRelease keycode record.tap.count then s
  else
    { s with
      flowTapPrevKeycode := keycode
      flowTapPrevTime := record.event.time
      flowTapExpired := false }

/-- A call of `process_record`, entered in the trace as `effect`. -/
def emit (effect : Keyrecord → Effect) (record : Keyrecord) (s : Engine) : Engine :=
  if record.event.isNoevent then s
  else
    let s := if f.flowTap then flowTapUpdateLastEvent d record s else s
    { s with effects := s.effects ++ [effect record] }

def processRecord (record : Keyrecord) (s : Engine) : Engine := emit f d .processRecord record s

def clearKeyboard (s : Engine) : Engine := { s with effects := s.effects ++ [.clearKeyboard] }

end Emit

section RegisteredTaps

def registeredTapsAdd (key : Keypos) (s : Engine) : Engine :=
  let s := if registeredTapsSize ≤ s.registeredTaps.length
    then { clearKeyboard s with registeredTaps := [] } else s
  { s with
    registeredTaps := s.registeredTaps ++ [key]
    effects := s.effects ++ [.registerTap key] }

def registeredTapFind (key : Keypos) (s : Engine) : Option ℕ := s.registeredTaps.idxOf? key

/-- The last entry takes the place of the deleted one. -/
def registeredTapsDelIndex (i : ℕ) (s : Engine) : Engine :=
  match s.registeredTaps.getLast? with
  | some last => { s with registeredTaps := (s.registeredTaps.set i last).dropLast }
  | none => s

end RegisteredTaps

section WaitingBuffer

def waitingBufferEnq (record : Keyrecord) (s : Engine) : Bool × Engine :=
  if record.event.isNoevent then (true, s)
  else if s.waitingBuffer.length + 1 = waitingBufferSize then (false, s)
  else (true, { s with waitingBuffer := s.waitingBuffer ++ [record] })

def waitingBufferTyped (s : Engine) (e : Keyevent) : Bool :=
  s.waitingBuffer.any fun r => r.event.key = e.key ∧ e.pressed ≠ r.event.pressed

def waitingBufferPop (s : Engine) : Engine := { s with waitingBuffer := s.waitingBuffer.tail }

def isTapRelease (s : Engine) (candidate : Keyrecord) : Bool :=
  candidate.event.isEvent ∧ candidate.event.key = s.tappingKey.event.key ∧
    ¬ candidate.event.pressed ∧ withinTappingTerm d s candidate.event

/-- Set the tap count of the first record that satisfies `p`. -/
def markTap (p : Keyrecord → Bool) : List Keyrecord → Option (List Keyrecord)
  | [] => none
  | r :: rs => if p r then some (r.withCount 1 :: rs) else (markTap p rs).map (r :: ·)

def waitingBufferScanTap (s : Engine) : Engine :=
  if 0 < s.tappingKey.tap.count ∨ ¬ s.tappingKey.event.pressed then s
  else
    match markTap (isTapRelease d s) s.waitingBuffer with
    | none => s
    | some buffer =>
      let tapped := s.tappingKey.withCount 1
      processRecord f d tapped { s with tappingKey := tapped, waitingBuffer := buffer }

end WaitingBuffer

section FlowTap

/-- The record is settled as a tap when it follows the previous event closely enough. -/
def flowTapKeyIfWithinTerm (record : Keyrecord) (prevTime : UInt16) (s : Engine) :
    Bool × Keyrecord × Engine :=
  let idleTime := timerDiff16 record.event.time prevTime
  if s.flowTapExpired ∨ 500 ≤ idleTime then (false, record, s)
  else if isMtOrLt (d.getRecordKeycode s.effects record) ∧
      idleTime < min (d.getFlowTapTerm s.effects record s.flowTapPrevKeycode) 500 then
    let record := record.withCount 1
    (true, record, processRecord f d record (registeredTapsAdd record.event.key s))
  else (false, record, s)

def flowTapIfEnabled (keyp : Keyrecord) (s : Engine) : Bool × Keyrecord × Engine :=
  if f.flowTap then flowTapKeyIfWithinTerm f d keyp s.flowTapPrevTime s else (false, keyp, s)

/-- The queued presses that follow a settled tap closely enough; `n` bounds the passes. -/
def flowTapQueued : ℕ → UInt16 → Engine → Engine
  | 0, _, s => s
  | n + 1, prevTime, s =>
    match s.waitingBuffer with
    | [] => s
    | record :: _ =>
      if record.event.pressed then
        if isTapRecord d s record then
          let r := flowTapKeyIfWithinTerm f d record prevTime s
          if r.1 then flowTapQueued n record.event.time (waitingBufferPop r.2.2) else r.2.2
        else flowTapQueued n record.event.time (waitingBufferPop (processRecord f d record s))
      else s

end FlowTap

section ChordalHold

/-- The number of queued events that settle as held, if any does. -/
def waitingBufferFindChordalHoldTap (s : Engine) : Option ℕ :=
  go s.tappingKey 0 none s.waitingBuffer
where
  go (prev : Keyrecord) (i : ℕ) (firstTap : Option ℕ) : List Keyrecord → Option ℕ
    | [] => firstTap
    | cur :: rest =>
      if ¬ cur.event.pressed ∨ ¬ isMtOrLt (d.getRecordKeycode s.effects prev) then firstTap
      else go cur (i + 1) (if d.getChordalHold s.effects prev cur then some i else firstTap) rest

/-- Process and pop `n` queued events. -/
def processQueued : ℕ → Engine → Engine
  | 0, s => s
  | n + 1, s =>
    match s.waitingBuffer with
    | [] => s
    | record :: _ => processQueued n (waitingBufferPop (processRecord f d record s))

/-- Process and pop the first queued event, as a tap if it is the press of a tap-hold key. -/
def processAsTapped (record : Keyrecord) (s : Engine) : Engine :=
  if record.event.pressed && isTapRecord d s record then
    let record := record.withCount 1
    let s := { s with waitingBuffer := s.waitingBuffer.set 0 record }
    waitingBufferPop (processRecord f d record (registeredTapsAdd record.event.key s))
  else waitingBufferPop (processRecord f d record s)

def waitingBufferChordalHoldTapsUntil (key : Keypos) : ℕ → Engine → Engine
  | 0, s => s
  | n + 1, s =>
    match s.waitingBuffer with
    | [] => s
    | record :: _ =>
      let s := processAsTapped f d record s
      if key = record.event.key ∧ record.event.pressed then s
      else waitingBufferChordalHoldTapsUntil key n s

def waitingBufferProcessRegular : ℕ → Engine → Engine
  | 0, s => s
  | n + 1, s =>
    match s.waitingBuffer with
    | [] => s
    | record :: _ =>
      if isTapRecord d s record then s
      else waitingBufferProcessRegular n (waitingBufferPop (processRecord f d record s))

end ChordalHold

section ProcessTapping

/-- `keyp` points to the record that arrived, or to the first one of the waiting buffer; a change
of it is a change of the buffer in the second case. -/
def writeBack (queued : Bool) (keyp : Keyrecord) (s : Engine) : Engine :=
  if queued then { s with waitingBuffer := s.waitingBuffer.set 0 keyp } else s

/-- The lookup in `registered_taps` for every event that is not a press. -/
def takeRegisteredTap (queued : Bool) (keyp : Keyrecord) (s : Engine) : Keyrecord × Engine :=
  if (f.chordalHold ∨ f.flowTap) ∧ ¬ keyp.event.pressed then
    match registeredTapFind keyp.event.key s with
    | some i => (keyp.withCount 1, registeredTapsDelIndex i (writeBack queued (keyp.withCount 1) s))
    | none => (keyp, s)
  else (keyp, s)

/-- The tapping key becomes `keyp`, and the buffer is scanned for its release. -/
def startTapping (keyp : Keyrecord) (s : Engine) : Engine :=
  waitingBufferScanTap f d { s with tappingKey := keyp }

def endTapping (s : Engine) : Engine := { s with tappingKey := .none }

def tappingReset (queued : Bool) (keyp : Keyrecord) (s : Engine) : Bool × Keyrecord × Engine :=
  if keyp.event.isNoevent then (true, keyp, s)
  else if keyp.event.pressed ∧ isTapRecord d s keyp then
    let r := flowTapIfEnabled f d keyp s
    if r.1 then (true, r.2.1, writeBack queued r.2.1 r.2.2)
    else (true, keyp, startTapping f d keyp s)
  else (true, keyp, processRecord f d keyp s)

def settleAsTapped (s : Engine) : Engine :=
  let tapped := s.tappingKey.withCount 1
  endTapping (processRecord f d tapped
    (registeredTapsAdd tapped.event.key { s with tappingKey := tapped }))

def chordConsideredTap (keyp : Keyrecord) (s : Engine) : Bool :=
  f.chordalHold && isMtOrLt (d.getRecordKeycode s.effects s.tappingKey) &&
    !d.getChordalHold s.effects s.tappingKey keyp

/-- The queued events that settle as held together with the tapping key. -/
def processQueuedHolds (s : Engine) : Engine :=
  match waitingBufferFindChordalHoldTap d s with
  | some n => processQueued f d n s
  | none => s

/-- The first queued event becomes the tapping key if it is one of a tap-hold key. -/
def nextTappingKey (s : Engine) : Engine :=
  match s.waitingBuffer with
  | record :: _ =>
    if isTapRecord d s record then { waitingBufferPop s with tappingKey := record }
    else endTapping s
  | [] => endTapping s

/-- A press of another key while the tapping key is undecided. -/
def tappingInterrupted (keyp : Keyrecord) (s : Engine) : Engine :=
  let s := { s with tappingKey := s.tappingKey.withInterrupted true }
  if chordConsideredTap f d keyp s then
    let s := { s with tappingKey := s.tappingKey.withInterrupted false }
    if isTapRecord d s keyp then s else settleAsTapped f d s
  else if d.getHoldOnOtherKeyPress s.effects s.tappingKey then
    let s := processRecord f d s.tappingKey s
    if f.chordalHold then
      let s := nextTappingKey d s
      waitingBufferProcessRegular f d s.waitingBuffer.length s
    else endTapping s
  else s

/-- The tapping key is pressed and undecided, and the event comes within the tapping term. -/
def tappingUndecided (queued : Bool) (keyp : Keyrecord) (s : Engine) :
    Bool × Keyrecord × Engine :=
  if isTappingRecord s keyp ∧ ¬ keyp.event.pressed then
    let tapped := s.tappingKey.withCount 1
    let s := processRecord f d tapped { s with tappingKey := tapped }
    let keyp := { keyp with tap := tapped.tap }
    let s := writeBack queued keyp s
    (false, keyp, if f.flowTap then
      flowTapQueued f d s.waitingBuffer.length tapped.event.time s else s)
  else if ¬ keyp.event.pressed ∧ waitingBufferTyped s keyp.event ∧
      chordConsideredTap f d keyp s then
    let s := settleAsTapped f d s
    (false, keyp, waitingBufferChordalHoldTapsUntil f d keyp.event.key s.waitingBuffer.length s)
  else if ¬ keyp.event.pressed ∧ waitingBufferTyped s keyp.event ∧
      d.getPermissiveHold s.effects s.tappingKey then
    let s := processRecord f d s.tappingKey s
    let s := if f.chordalHold then
        let s := processQueuedHolds f d s
        waitingBufferChordalHoldTapsUntil f d keyp.event.key s.waitingBuffer.length s
      else s
    (false, keyp, endTapping s)
  else if ¬ keyp.event.pressed ∧ ¬ waitingBufferTyped s keyp.event then
    if isRetained (d.layerSwitchGetAction s.effects keyp.event.key) keyp.tap.count then
      (false, keyp, s)
    else (true, keyp, processRecord f d keyp s)
  else if keyp.event.pressed then (false, keyp, tappingInterrupted f d keyp s)
  else (false, keyp, s)

/-- The release that the engine makes up for a key that has been tapped more than once. -/
def unregisterRecord (s : Engine) (time : UInt16) : Keyrecord where
  event := { s.tappingKey.event with time := time, pressed := false }
  tap := s.tappingKey.tap

/-- The tapping key is pressed and counts as a tap; `within` is false after the tapping term. -/
def tappingTapped (queued : Bool) (keyp : Keyrecord) (within : Bool) (s : Engine) :
    Bool × Keyrecord × Engine :=
  if isTappingRecord s keyp ∧ ¬ keyp.event.pressed then
    let keyp := { keyp with tap := s.tappingKey.tap }
    let s := processRecord f d keyp (writeBack queued keyp s)
    (true, keyp, if within then { s with tappingKey := keyp } else endTapping s)
  else if isTapRecord d s keyp ∧ keyp.event.pressed then
    let s := if 1 < s.tappingKey.tap.count then
        emit f d .unregister (unregisterRecord s keyp.event.time) s
      else s
    (true, keyp, startTapping f d keyp s)
  else (true, keyp, processRecord f d keyp s)

def tappingReleased (queued : Bool) (keyp : Keyrecord) (s : Engine) : Bool × Keyrecord × Engine :=
  if withinTappingTerm d s keyp.event then
    if keyp.event.isNoevent then (true, keyp, s)
    else if keyp.event.pressed then
      if isTappingRecord s keyp then
        if withinQuickTapTerm d s keyp.event ∧ ¬ s.tappingKey.tap.interrupted ∧
            0 < s.tappingKey.tap.count then
          let tap := s.tappingKey.tap
          let keyp := { keyp with tap := { tap with
            count := if tap.count < 15 then tap.count + 1 else tap.count } }
          let s := processRecord f d keyp (writeBack queued keyp s)
          (true, keyp, { s with tappingKey := keyp })
        else (true, keyp, { s with tappingKey := keyp })
      else if isTapRecord d s keyp then
        let r := flowTapIfEnabled f d keyp s
        if r.1 then (true, r.2.1, endTapping (writeBack queued r.2.1 r.2.2))
        else (true, keyp, startTapping f d keyp s)
      else
        let s := { s with tappingKey := s.tappingKey.withInterrupted true }
        (true, keyp, processRecord f d keyp s)
    else (true, keyp, processRecord f d keyp s)
  else (false, keyp, endTapping s)

/-- `process_tapping`: whether the event is processed or consumed, the record that `keyp` points to
and the state afterwards. -/
def processTapping (queued : Bool) (keyp : Keyrecord) (s : Engine) : Bool × Keyrecord × Engine :=
  let r := takeRegisteredTap f queued keyp s
  let keyp := r.1
  let s := r.2
  if s.tappingKey.event.isNoevent then tappingReset f d queued keyp s
  else if s.tappingKey.event.pressed then
    if withinTappingTerm d s keyp.event then
      if keyp.event.isNoevent then (true, keyp, s)
      else if s.tappingKey.tap.count = 0 then tappingUndecided f d queued keyp s
      else tappingTapped f d queued keyp true s
    else if s.tappingKey.tap.count = 0 then
      (false, keyp, endTapping (processRecord f d s.tappingKey s))
    else if keyp.event.isNoevent then (true, keyp, s)
    else tappingTapped f d queued keyp false s
  else tappingReleased f d queued keyp s

end ProcessTapping

section ActionTapping

/-- A record that is not processed waits in the buffer; an overflow clears everything. -/
def enqueueOrClear (record : Keyrecord) (s : Engine) : Engine :=
  let r := waitingBufferEnq record s
  if r.1 then r.2 else endTapping { clearKeyboard r.2 with waitingBuffer := [] }

/-- The first half of `action_tapping_process`, for the record that arrives. -/
def processOrEnqueue (record : Keyrecord) (s : Engine) : Engine :=
  let r := processTapping f d false record s
  if r.1 then r.2.2 else enqueueOrClear r.2.1 r.2.2

/-- The loop over the waiting buffer; `n` bounds the passes. -/
def processWaitingBuffer : ℕ → Engine → Engine
  | 0, s => s
  | n + 1, s =>
    match s.waitingBuffer with
    | [] => s
    | record :: _ =>
      let r := processTapping f d true record s
      if r.1 then processWaitingBuffer n (waitingBufferPop r.2.2) else r.2.2

def actionTappingProcess (record : Keyrecord) (s : Engine) : Engine :=
  let s := processOrEnqueue f d record s
  let s := processWaitingBuffer f d s.waitingBuffer.length s
  if f.flowTap ∧ record.event.isNoevent ∧ ¬ s.flowTapExpired ∧
      16383 ≤ timerDiff16 record.event.time s.flowTapPrevTime then
    { s with flowTapExpired := true }
  else s

end ActionTapping

/-- An event, with the answers that the keymap and the callbacks give while it is processed. -/
structure Input where
  decisions : Decisions
  event : Keyevent

def Input.press (d : Decisions) (key : Keypos) (time : UInt16) : Input :=
  ⟨d, ⟨key, time, .key, true⟩⟩

def Input.release (d : Decisions) (key : Keypos) (time : UInt16) : Input :=
  ⟨d, ⟨key, time, .key, false⟩⟩

def Input.tick (d : Decisions) (time : UInt16) : Input := ⟨d, .makeTick time⟩

/-- The keys of row 1 are mod-taps and all others are letters; every term is 200 ms, and no key is
decided before its term by another one. -/
def Decisions.small : Decisions where
  layerSwitchGetAction _ key := if key.row = 1 then 0x2204 else 0x0004
  getRecordKeycode _ record := if record.event.key.row = 1 then 0x2204 else 0x0004
  getTappingTerm _ _ := 200
  getQuickTapTerm _ _ := 200
  getPermissiveHold _ _ := false
  getHoldOnOtherKeyPress _ _ := false
  getChordalHold _ _ _ := true
  getFlowTapTerm _ _ _ := 0

def step (s : Engine) (i : Input) : Engine :=
  actionTappingProcess f i.decisions { event := i.event } s

def run (s : Engine) (inputs : List Input) : Engine := inputs.foldl (step f) s

end Qmk.Tapping
