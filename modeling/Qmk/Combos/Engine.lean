import Mathlib.Data.BitVec
import Mathlib.Data.List.GetD
import Mathlib.Logic.Function.Basic

/-! # The combo engine

`processCombo` runs every key event against every combo of the table. Presses of
combo keys are held in `keyBuffer`, combos that are fully pressed wait in
`comboBuffer`, and the next event that is no combo press, or the end of the combo
term, applies the waiting combos and hands on the presses that are left.

The configuration is the default one: one combo term, no tap-only or hold-only
combos, no order of the keys, and the timer restarted by every key.
-/

namespace Qmk.Combos

/-- An entry of the table. The list of keys ends at the first `COMBO_END`, which is 0. -/
structure Combo where
  keys : List ℕ
  keycode : ℕ
  keys_ne_end : 0 ∉ keys

/-- The table of combos, and the sizes that may be configured. -/
structure Config where
  table : List Combo
  comboTerm : ℕ
  keyBufferLength : ℕ
  comboBufferLength : ℕ
  stateBits : ℕ

def qkComboOn : ℕ := 0x7C50
def qkComboOff : ℕ := 0x7C51
def qkComboToggle : ℕ := 0x7C52

structure Record (α : Type*) where
  key : α
  keycode : ℕ
  pressed : Bool
  deriving DecidableEq, Repr

/-- The event type of a queued record: the key event it came with, a tick, or the press of the
combo that took the record. -/
inductive Kind
  | key
  | tick
  | combo (idx : ℕ)
  deriving DecidableEq, Repr

structure QueuedRecord (α : Type*) where
  record : Record α
  kind : Kind
  deriving DecidableEq, Repr

/-- What the engine does to the rest of the firmware. `passed` and `swallowed` are the answer of
`processCombo`, `dumped` is a press handed on from the key buffer. `applied` lists the records that
an activated combo has taken, and `spoiled` those that were turned into ticks for a combo that was
not activated. A combo with the keycode 0 is an event for `process_combo_event`. -/
inductive Effect (α : Type*)
  | passed (r : Record α)
  | swallowed (r : Record α)
  | dumped (r : Record α)
  | applied (idx : ℕ) (rs : List (Record α))
  | spoiled (idx : ℕ) (rs : List (Record α))
  | comboEvent (idx keycode : ℕ) (pressed : Bool)
  deriving DecidableEq, Repr

structure ComboState (w : ℕ) where
  state : BitVec w
  active : Bool
  disabled : Bool

structure State (cfg : Config) (α : Type*) where
  combos : ℕ → ComboState cfg.stateBits
  keyBuffer : List (QueuedRecord α)
  comboBuffer : List ℕ
  timer : BitVec 16
  longestTerm : ℕ
  enabled : Bool
  trace : List (Effect α)

variable {cfg : Config} {α : Type*}

def Config.combo (cfg : Config) (idx : ℕ) : Combo := cfg.table.getD idx ⟨[], 0, by simp⟩

namespace State

def modify (s : State cfg α) (idx : ℕ)
    (f : ComboState cfg.stateBits → ComboState cfg.stateBits) : State cfg α :=
  { s with combos := Function.update s.combos idx (f (s.combos idx)) }

def emit (s : State cfg α) (e : Effect α) : State cfg α := { s with trace := s.trace ++ [e] }

end State

section Bits

variable {w : ℕ}

def allComboKeysAreDown (state : BitVec w) (keyCount : ℕ) : Prop := 2 ^ keyCount - 1 = state.toNat

instance (state : BitVec w) (keyCount : ℕ) : Decidable (allComboKeysAreDown state keyCount) :=
  inferInstanceAs (Decidable (_ = _))

def onlyOneKeyIsDown (state : BitVec w) : Prop := state &&& (state - 1) = 0

instance (state : BitVec w) : Decidable (onlyOneKeyIsDown state) :=
  inferInstanceAs (Decidable (_ = _))

def keyNotYetReleased (state : BitVec w) (keyIndex : ℕ) : Bool := state.getLsbD keyIndex

def keyStateDown (state : BitVec w) (keyIndex : ℕ) : BitVec w := state ||| BitVec.twoPow w keyIndex

def keyStateUp (state : BitVec w) (keyIndex : ℕ) : BitVec w :=
  state &&& ~~~BitVec.twoPow w keyIndex

end Bits

/-- The loop of `_find_key_index_and_count`; it also compares with the `COMBO_END` at the end. -/
def findFrom (keycode : ℕ) : List ℕ → ℕ → Option ℕ → Option ℕ
  | [], n, found => if keycode = 0 then some n else found
  | k :: ks, n, found => findFrom keycode ks (n + 1) (if keycode = k then some n else found)

def findKeyIndex (keys : List ℕ) (keycode : ℕ) : Option ℕ := findFrom keycode keys 0 none

def releaseCombo (idx : ℕ) (s : State cfg α) : State cfg α :=
  (s.emit (.comboEvent idx (cfg.combo idx).keycode false)).modify idx
    fun c => { c with active := false }

def disableCombo (idx : ℕ) (s : State cfg α) : State cfg α :=
  s.modify idx fun c => { c with disabled := true }

def clearCombos (s : State cfg α) : State cfg α :=
  { s with
    longestTerm := 0
    combos := fun idx =>
      if idx < cfg.table.length ∧ (s.combos idx).active = false then
        { s.combos idx with disabled := false, state := 0 }
      else s.combos idx }

/-- What `dumpKeyBuffer` does with one record. -/
def dumpRecord (cfg : Config) (q : QueuedRecord α) : List (Effect α) :=
  match q.kind with
  | .tick => []
  | .key => [.dumped q.record]
  | .combo idx => [.comboEvent idx (cfg.combo idx).keycode true]

def dumpKeyBuffer (s : State cfg α) : State cfg α :=
  { s with trace := s.trace ++ s.keyBuffer.flatMap (dumpRecord cfg), keyBuffer := [] }

def dropComboFromBuffer (idx : ℕ) (s : State cfg α) : State cfg α :=
  if idx ∈ s.comboBuffer then
    let s := disableCombo idx s
    if s.comboBuffer.head? = some idx then { s with comboBuffer := s.comboBuffer.tail } else s
  else s

/-- The loop of `applyCombo` over the key buffer: the records it leaves, those it takes, and
whether the last key of the combo was found. -/
def applyLoop (idx : ℕ) (keys : List ℕ) {w : ℕ} :
    BitVec w → List (QueuedRecord α) → List (QueuedRecord α) × List (Record α) × Bool
  | _, [] => ([], [], false)
  | state, q :: qs =>
    match findKeyIndex keys q.record.keycode with
    | none =>
      let r := applyLoop idx keys state qs
      (q :: r.1, r.2.1, r.2.2)
    | some i =>
      let state := keyStateDown state i
      if allComboKeysAreDown state keys.length then
        ({ q with kind := .combo idx } :: qs, [q.record], true)
      else
        let r := applyLoop idx keys state qs
        ({ q with kind := .tick } :: r.1, q.record :: r.2.1, r.2.2)

def applyCombo (idx : ℕ) (s : State cfg α) : State cfg α :=
  if (s.combos idx).disabled then s
  else
    let r := applyLoop idx (cfg.combo idx).keys (0 : BitVec cfg.stateBits) s.keyBuffer
    let s := { s with keyBuffer := r.1 }
    let s := if r.2.2 then
      (s.emit (.applied idx r.2.1)).modify idx fun c => { c with active := true }
    else s.emit (.spoiled idx r.2.1)
    dropComboFromBuffer idx s

def applyCombos (s : State cfg α) : State cfg α :=
  clearCombos (dumpKeyBuffer (s.comboBuffer.foldl (fun s idx => applyCombo idx s) s))

/-- The combo to drop from the combo buffer, if the two have a key in common. -/
def overlaps (cfg : Config) (idx₁ idx₂ : ℕ) : Option ℕ :=
  let keys₁ := (cfg.combo idx₁).keys
  let keys₂ := (cfg.combo idx₂).keys
  if keys₁.any (fun k => keys₂.contains k) then
    if keys₂.length < keys₁.length then some idx₂ else some idx₁
  else none

/-- The loop that disables the waiting combos that overlap with combo `idx`. `kept` are the
entries before the current one, which is the first one when there are none. The result is whether
combo `idx` itself has been dropped. -/
def dropOverlaps (idx : ℕ) : List ℕ → List ℕ → State cfg α → Bool × State cfg α
  | [], kept, s => (false, { s with comboBuffer := kept })
  | j :: rest, kept, s =>
    match overlaps cfg j idx with
    | none => dropOverlaps idx rest (kept ++ [j]) s
    | some drop =>
      let s := disableCombo drop s
      if drop = idx then (true, { s with comboBuffer := kept ++ j :: rest })
      else if kept = [] then dropOverlaps idx rest [] s
      else dropOverlaps idx rest (kept ++ [j]) s

/-- The write index of the ring comes round to the read index when the last place is taken. -/
def pushCombo (idx : ℕ) (s : State cfg α) : State cfg α :=
  { s with comboBuffer :=
    if s.comboBuffer.length + 1 = cfg.comboBufferLength then [] else s.comboBuffer ++ [idx] }

def bufferCombo (idx : ℕ) (now : BitVec 16) (s : State cfg α) : State cfg α :=
  if s.timer ≠ 0 ∧ cfg.comboTerm < (now - s.timer).toNat then disableCombo idx s
  else
    let r := dropOverlaps idx s.comboBuffer [] s
    if r.1 then r.2 else pushCombo idx r.2

/-- A press of key `i` of a combo that is neither disabled nor switched off. -/
def chordPress (idx i : ℕ) (now : BitVec 16) (s : State cfg α) : State cfg α :=
  let s := if (s.combos idx).active then s
    else { s.modify idx (fun c => { c with state := keyStateDown c.state i }) with
      longestTerm := max s.longestTerm cfg.comboTerm }
  if allComboKeysAreDown (s.combos idx).state (cfg.combo idx).keys.length then
    bufferCombo idx now s
  else s

/-- A release of key `i` of a combo, or a press when the combo is disabled or switched off. -/
def chordRelease (idx i : ℕ) (s : State cfg α) : Bool × State cfg α :=
  let c := s.combos idx
  let r :=
    if c.active = false ∧ allComboKeysAreDown c.state (cfg.combo idx).keys.length then
      if c.disabled then (false, dropComboFromBuffer idx s) else (s.enabled, s)
    else if c.active ∧ onlyOneKeyIsDown c.state ∧ keyNotYetReleased c.state i then
      (true, releaseCombo idx s)
    else if c.active ∧ keyNotYetReleased c.state i then (true, s)
    else (false, s)
  (r.1, r.2.modify idx fun c => { c with state := keyStateUp c.state i })

/-- The answer is whether the event is taken as one of this combo. -/
def processSingleCombo (r : Record α) (now : BitVec 16) (idx : ℕ) (s : State cfg α) :
    Bool × State cfg α :=
  match findKeyIndex (cfg.combo idx).keys r.keycode with
  | none => (false, s)
  | some i =>
    if r.pressed ∧ (s.combos idx).disabled = false ∧ s.enabled then (true, chordPress idx i now s)
    else chordRelease idx i s

def processCombos (r : Record α) (now : BitVec 16) :
    List ℕ → Bool × State cfg α → Bool × State cfg α
  | [], p => p
  | idx :: idxs, p =>
    let q := processSingleCombo r now idx p.2
    processCombos r now idxs (p.1 || q.1, q.2)

/-- Nothing is waiting, or the waiting combos are applied. -/
def flush (s : State cfg α) : State cfg α :=
  if s.comboBuffer ≠ [] then applyCombos s else clearCombos { dumpKeyBuffer s with timer := 0 }

def queuePress (r : Record α) (now : BitVec 16) (s : State cfg α) : State cfg α :=
  let s := { s with timer := now }
  if s.keyBuffer.length < cfg.keyBufferLength then
    { s with keyBuffer := s.keyBuffer ++ [⟨r, .key⟩] }
  else s

def comboEnable (s : State cfg α) : State cfg α := { s with enabled := true }

def comboDisable (s : State cfg α) : State cfg α :=
  dumpKeyBuffer (clearCombos { s with timer := 0, enabled := false, comboBuffer := [] })

def comboToggle (s : State cfg α) : State cfg α :=
  if s.enabled then comboDisable s else comboEnable s

/-- The part of `processCombo` after the keycodes that switch the combos on and off. -/
def processKey (r : Record α) (now : BitVec 16) (s : State cfg α) : State cfg α :=
  let p := processCombos r now (List.range cfg.table.length) (false, s)
  let s := if r.pressed ∧ p.1 then queuePress r now p.2 else flush p.2
  s.emit (if p.1 then .swallowed r else .passed r)

def processCombo (r : Record α) (now : BitVec 16) (s : State cfg α) : State cfg α :=
  if r.keycode = qkComboOn ∧ r.pressed then (comboEnable s).emit (.passed r)
  else if r.keycode = qkComboOff ∧ r.pressed then (comboDisable s).emit (.passed r)
  else if r.keycode = qkComboToggle ∧ r.pressed then (comboToggle s).emit (.passed r)
  else processKey r now s

def comboTask (now : BitVec 16) (s : State cfg α) : State cfg α :=
  if s.enabled ∧ s.timer ≠ 0 ∧ s.longestTerm < (now - s.timer).toNat then
    if s.comboBuffer ≠ [] then { applyCombos s with longestTerm := 0, timer := 0 }
    else clearCombos { dumpKeyBuffer s with timer := 0 }
  else s

/-- One call of the engine, at the time `now`. -/
inductive Call (α : Type*)
  | event (r : Record α) (now : BitVec 16)
  | task (now : BitVec 16)
  | enable
  | disable
  | toggle
  deriving DecidableEq, Repr

def step (s : State cfg α) : Call α → State cfg α
  | .event r now => processCombo r now s
  | .task now => comboTask now s
  | .enable => comboEnable s
  | .disable => comboDisable s
  | .toggle => comboToggle s

def State.start (cfg : Config) (α : Type*) : State cfg α :=
  ⟨fun _ => ⟨0, false, false⟩, [], [], 0, 0, true, []⟩

def run (s : State cfg α) (calls : List (Call α)) : State cfg α := calls.foldl step s

end Qmk.Combos
