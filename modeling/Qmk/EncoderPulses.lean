import Mathlib.Algebra.Order.Group.Abs
import Mathlib.Algebra.Order.Group.Int
import Mathlib.Data.List.GetD
import Mathlib.Data.List.Induction
import Qmk.EncoderSplit

/-! # Encoder pulses

`encoder_quadrature.c` without `ENCODER_DEFAULT_POS`. A change of the pins of an encoder is a pulse
forwards or backwards, and every so many pulses in one direction are an event. The pulses that are
not yet an event are kept.
-/

namespace Qmk.EncoderPulses

open EncoderSplit

section Model

/-- The encoders of a half and their resolutions. The index of an event has seven bits. -/
structure Config where
  thisHand : ℕ
  thisCount : ℕ
  index_le : thisHand + thisCount ≤ 128
  /-- `encoder_resolutions`, by the index over both halves. -/
  resolutions : ℕ → UInt8
  one_le : ∀ i, 1 ≤ (resolutions i).toNat
  le_127 : ∀ i, (resolutions i).toNat ≤ 127
  /-- `ENCODER_CLOCKWISE`, which `ENCODER_DIRECTION_FLIP` makes false. -/
  clockwise : Bool

def encoderLut : List Int8 := [0, -1, 1, 0, 1, 0, 0, -1, -1, 0, 0, 1, 0, 1, -1, 0]

/-- The variables of the driver and its queue, with the events that have been given to the queue
and those that have been taken from it. -/
structure State (n : ℕ) where
  encoderState : ℕ → UInt8
  encoderPulses : ℕ → Int8 := fun _ => 0
  events : EncoderEvents n := .zero n
  queued : List EncoderEvent := []
  dequeued : List EncoderEvent := []

variable {n : ℕ}

def State.queueEvent (s : State n) (event : EncoderEvent) : State n :=
  { s with events := (s.events.queueEvent event).2, queued := s.queued ++ [event] }

def State.dequeueEvent (s : State n) : State n :=
  match s.events.dequeueEvent with
  | none => s
  | some (event, events) => { s with events := events, dequeued := s.dequeued ++ [event] }

variable (c : Config)

def Config.event (index : ℕ) (clockwise : Bool) : EncoderEvent where
  index := BitVec.ofNat 7 (index + c.thisHand)
  clockwise := clockwise

def handleStateChange (s : State n) (index : ℕ) (state : UInt8) : State n :=
  let resolution : ℤ := (c.resolutions (index + c.thisHand)).toNat
  let pulses := s.encoderPulses index + encoderLut.getD (state &&& 0xF).toNat 0
  let s := if pulses.toInt ≥ resolution then s.queueEvent (c.event index !c.clockwise) else s
  let s := if pulses.toInt ≤ -resolution then s.queueEvent (c.event index c.clockwise) else s
  { s with
    encoderPulses := Function.update s.encoderPulses index
      (Int8.ofInt (pulses.toInt.tmod resolution)) }

def handleRead (s : State n) (index : ℕ) (pinAState pinBState : UInt8) : State n :=
  let state := pinAState ||| pinBState <<< 1
  if s.encoderState index &&& 0x3 ≠ state then
    let next := s.encoderState index <<< 2 ||| state
    handleStateChange c { s with encoderState := Function.update s.encoderState index next } index
      next
  else s

/-- A reading of the pins of an encoder, or an event that is taken from the queue. -/
inductive Action
  | read (index : ℕ) (pinAState pinBState : UInt8)
  | dequeue
  deriving DecidableEq, Repr

def step (s : State n) : Action → State n
  | .read index pinAState pinBState => handleRead c s index pinAState pinBState
  | .dequeue => s.dequeueEvent

def run (s : State n) (actions : List Action) : State n := actions.foldl (step c) s

end Model

section Changes

def readings (index : ℕ) (actions : List Action) : List UInt8 :=
  actions.filterMap fun
    | .read i pinAState pinBState =>
      if i = index then some (pinAState ||| pinBState <<< 1) else none
    | .dequeue => none

/-- The pins last seen and the sum of the pulses so far, after one more reading. -/
def addReading (seen : UInt8 × ℤ) (state : UInt8) : UInt8 × ℤ :=
  (state, if seen.1 = state then seen.2
    else seen.2 + (encoderLut.getD (4 * seen.1.toNat + state.toNat) 0).toInt)

/-- The sum of the table's values of all changes. -/
def pulseSum (start : UInt8) (states : List UInt8) : ℤ := (states.foldl addReading (start, 0)).2

@[simp] theorem foldl_addReading_concat (seen : UInt8 × ℤ) (states : List UInt8) (state : UInt8) :
    (states ++ [state]).foldl addReading seen = addReading (states.foldl addReading seen) state :=
  List.foldl_append

end Changes

section Steps

variable {n : ℕ} {c : Config} {s : State n} {index : ℕ}

theorem lut_bounds (i : ℕ) :
    -1 ≤ (encoderLut.getD i 0).toInt ∧ (encoderLut.getD i 0).toInt ≤ 1 := by
  rcases Nat.lt_or_ge i 16 with hi | hi
  · revert i
    decide
  · rw [List.getD_eq_default _ _ hi]
    decide

theorem toInt_add_of_lt {a b : Int8} {r : ℤ} (hr : r ≤ 127) (ha : |a.toInt| < r)
    (hb : -1 ≤ b.toInt ∧ b.toInt ≤ 1) : (a + b).toInt = a.toInt + b.toInt := by
  rw [abs_lt] at ha
  rw [Int8.toInt_add]
  exact Int.bmod_eq_of_le (by omega) (by omega)

theorem toInt_ofInt_tmod {r x : ℤ} (hone : 1 ≤ r) (hr : r ≤ 127) :
    (Int8.ofInt (x.tmod r)).toInt = x.tmod r := by
  have hhigh := Int.tmod_lt_of_pos x (show 0 < r by omega)
  have hlow := Int.lt_tmod_of_pos x (show 0 < r by omega)
  rw [Int8.toInt_ofInt, Int8.size]
  exact Int.bmod_eq_of_le (by omega) (by omega)

theorem tmod_of_abs_le {r x : ℤ} (hone : 1 ≤ r) (hlow : -r ≤ x) (hhigh : x ≤ r) :
    x.tmod r = x - (if x ≥ r then r else 0) + (if x ≤ -r then r else 0) := by
  by_cases htop : x ≥ r
  · obtain rfl : x = r := le_antisymm hhigh htop
    rw [Int.tmod_self, if_pos htop, if_neg (by omega)]
    omega
  · by_cases hbottom : x ≤ -r
    · obtain rfl : x = -r := le_antisymm hbottom hlow
      rw [Int.neg_tmod_self, if_neg htop, if_pos hbottom]
      omega
    · rw [if_neg htop, if_neg hbottom, sub_zero, add_zero]
      rcases le_or_gt 0 x with hx | hx
      · exact Int.tmod_eq_of_lt hx (by omega)
      · have hneg := Int.tmod_eq_of_lt (show 0 ≤ -x by omega) (show -x < r by omega)
        rw [Int.neg_tmod] at hneg
        exact neg_injective hneg

/-- The counter-clockwise events of an encoder less its clockwise ones. -/
def Config.turns (c : Config) (index : ℕ) (events : List EncoderEvent) : ℤ :=
  events.count (c.event index !c.clockwise) - events.count (c.event index c.clockwise)

theorem event_inj {i j : ℕ} (hi : i < c.thisCount) (hj : j < c.thisCount) {b b' : Bool} :
    c.event i b = c.event j b' ↔ i = j ∧ b = b' := by
  have hle := c.index_le
  constructor
  · intro h
    obtain ⟨hindex, hb⟩ := EncoderEvent.mk.inj h
    have hnat := congrArg BitVec.toNat hindex
    rw [BitVec.toNat_ofNat, BitVec.toNat_ofNat, Nat.mod_eq_of_lt (by omega),
      Nat.mod_eq_of_lt (by omega)] at hnat
    exact ⟨Nat.add_right_cancel hnat, hb⟩
  · rintro ⟨rfl, rfl⟩
    rfl

theorem turns_concat {i j : ℕ} (hi : i < c.thisCount) (hj : j < c.thisCount) (b : Bool)
    (events : List EncoderEvent) : c.turns j (events ++ [c.event i b]) =
      c.turns j events + if i = j then (if b = c.clockwise then -1 else 1) else 0 := by
  unfold Config.turns
  rw [List.count_append, List.count_append, List.count_singleton, List.count_singleton]
  simp only [beq_iff_eq, event_inj hi hj]
  by_cases hij : i = j <;> cases b <;> cases c.clockwise <;> simp [hij] <;> omega

/-- The queue holds the events that have not been taken from it. -/
def State.Ordered (s : State n) : Prop := s.dequeued ++ s.events.toList = s.queued

theorem State.Ordered.queueEvent (h : s.Ordered) (hroom : s.events.count < n)
    (event : EncoderEvent) : (s.queueEvent event).Ordered := by
  unfold State.Ordered State.queueEvent
  dsimp only
  rw [(queueEvent_room hroom).2, ← List.append_assoc, h]

theorem State.Ordered.dequeueEvent (h : s.Ordered) : s.dequeueEvent.Ordered := by
  unfold State.dequeueEvent
  split
  · exact h
  · rename_i event events hsome
    unfold State.Ordered
    dsimp only
    rw [List.append_assoc, List.singleton_append, ← dequeueEvent_some hsome]
    exact h

/-- `encoder_resolutions` of an encoder of this half. -/
def Config.resolution (c : Config) (index : ℕ) : ℤ := (c.resolutions (index + c.thisHand)).toNat

theorem resolution_bounds (c : Config) (index : ℕ) :
    1 ≤ c.resolution index ∧ c.resolution index ≤ 127 := by
  have hone := c.one_le (index + c.thisHand)
  have hmax := c.le_127 (index + c.thisHand)
  unfold Config.resolution
  omega

/-- The events and the pulses that are kept account for all pulses. -/
structure Accounted (c : Config) (s : State n) (index : ℕ) (sum : ℤ) : Prop where
  balance : c.resolution index * c.turns index s.queued + (s.encoderPulses index).toInt = sum
  small : |(s.encoderPulses index).toInt| < c.resolution index

def State.nextPulses (s : State n) (index : ℕ) (state : UInt8) : Int8 :=
  s.encoderPulses index + encoderLut.getD (state &&& 0xF).toNat 0

def State.keep (s : State n) (c : Config) (index : ℕ) (pulses : Int8) : State n :=
  { s with
    encoderPulses := Function.update s.encoderPulses index
      (Int8.ofInt (pulses.toInt.tmod (c.resolution index))) }

theorem handleStateChange_cases (c : Config) (s : State n) (index : ℕ) (state : UInt8) :
    let pulses := s.nextPulses index state
    let kept := handleStateChange c s index state
    c.resolution index ≤ pulses.toInt ∧
        kept = (s.queueEvent (c.event index !c.clockwise)).keep c index pulses ∨
      pulses.toInt ≤ -c.resolution index ∧
        kept = (s.queueEvent (c.event index c.clockwise)).keep c index pulses ∨
      |pulses.toInt| < c.resolution index ∧ kept = s.keep c index pulses := by
  obtain ⟨hone, -⟩ := resolution_bounds c index
  intro pulses kept
  have hkept : kept = State.keep (
      let s := if pulses.toInt ≥ c.resolution index then s.queueEvent (c.event index !c.clockwise)
        else s
      if pulses.toInt ≤ -c.resolution index then s.queueEvent (c.event index c.clockwise) else s)
      c index pulses := rfl
  rw [hkept]
  by_cases htop : pulses.toInt ≥ c.resolution index
  · have hbottom : ¬ pulses.toInt ≤ -c.resolution index := by omega
    rw [if_pos htop, if_neg hbottom]
    exact .inl ⟨htop, rfl⟩
  · rw [if_neg htop]
    by_cases hbottom : pulses.toInt ≤ -c.resolution index
    · rw [if_pos hbottom]
      exact .inr (.inl ⟨hbottom, rfl⟩)
    · rw [if_neg hbottom, abs_lt]
      exact .inr (.inr ⟨by omega, rfl⟩)

theorem State.Ordered.handleStateChange (h : s.Ordered) (hroom : s.events.count < n) (index : ℕ)
    (state : UInt8) : (handleStateChange c s index state).Ordered := by
  rcases handleStateChange_cases c s index state with ⟨-, heq⟩ | ⟨-, heq⟩ | ⟨-, heq⟩ <;> rw [heq]
  · exact h.queueEvent hroom _
  · exact h.queueEvent hroom _
  · exact h

theorem accounted_keep (s : State n) (index : ℕ) (pulses : Int8) :
    Accounted c (s.keep c index pulses) index
      (c.resolution index * c.turns index s.queued + pulses.toInt.tmod (c.resolution index)) := by
  obtain ⟨hone, hmax⟩ := resolution_bounds c index
  have hpulses : ((s.keep c index pulses).encoderPulses index).toInt =
      pulses.toInt.tmod (c.resolution index) := by
    unfold State.keep
    dsimp only
    rw [Function.update_self, toInt_ofInt_tmod hone hmax]
  constructor
  · rw [hpulses]
    rfl
  · rw [hpulses, abs_lt]
    exact ⟨Int.lt_tmod_of_pos _ (by omega), Int.tmod_lt_of_pos _ (by omega)⟩

variable {sum : ℤ}

theorem Accounted.handleStateChange_self (h : Accounted c s index sum) (hi : index < c.thisCount)
    (state : UInt8) : Accounted c (handleStateChange c s index state) index
      (sum + (encoderLut.getD (state &&& 0xF).toNat 0).toInt) := by
  obtain ⟨hone, hmax⟩ := resolution_bounds c index
  have hlut := lut_bounds (state &&& 0xF).toNat
  have hpulses : (s.nextPulses index state).toInt = _ := toInt_add_of_lt hmax h.small hlut
  have hsmall := abs_lt.mp h.small
  have hmod := tmod_of_abs_le hone (x := (s.nextPulses index state).toInt) (by omega) (by omega)
  rw [← h.balance, add_assoc, ← hpulses]
  rcases handleStateChange_cases c s index state with ⟨hcase, heq⟩ | ⟨hcase, heq⟩ | ⟨hcase, heq⟩
  · have hturns := turns_concat hi hi (!c.clockwise) s.queued
    rw [if_pos rfl, if_neg (Bool.not_ne_self _)] at hturns
    rw [if_pos hcase, if_neg (by omega)] at hmod
    have hkeep := accounted_keep (c := c) (s.queueEvent (c.event index !c.clockwise)) index
      (s.nextPulses index state)
    rw [heq]
    convert hkeep using 1
    rw [State.queueEvent, hturns, hmod, Int.mul_add]
    omega
  · have hturns := turns_concat hi hi c.clockwise s.queued
    rw [if_pos rfl, if_pos rfl] at hturns
    rw [if_neg (by omega), if_pos hcase] at hmod
    have hkeep := accounted_keep (c := c) (s.queueEvent (c.event index c.clockwise)) index
      (s.nextPulses index state)
    rw [heq]
    convert hkeep using 1
    rw [State.queueEvent, hturns, hmod, Int.mul_add]
    omega
  · rw [abs_lt] at hcase
    rw [if_neg (by omega), if_neg (by omega), sub_zero, add_zero] at hmod
    rw [heq, ← hmod]
    exact accounted_keep s index (s.nextPulses index state)

theorem Accounted.handleStateChange_other {i : ℕ} (h : Accounted c s index sum)
    (hi : i < c.thisCount) (hindex : index < c.thisCount) (hne : i ≠ index) (state : UInt8) :
    Accounted c (handleStateChange c s i state) index sum := by
  have hpulses : ∀ (s' : State n) pulses, (s'.keep c i pulses).encoderPulses index =
      s'.encoderPulses index := fun s' pulses => Function.update_of_ne hne.symm _ _
  have hturns : ∀ b, c.turns index (s.queued ++ [c.event i b]) = c.turns index s.queued := by
    intro b
    rw [turns_concat hi hindex, if_neg hne, add_zero]
  obtain ⟨hbalance, hsmall⟩ := h
  rcases handleStateChange_cases c s i state with ⟨-, heq⟩ | ⟨-, heq⟩ | ⟨-, heq⟩ <;>
    rw [heq] <;> constructor <;> rw [hpulses] <;> first | exact hsmall | skip
  · exact hturns _ ▸ hbalance
  · exact hturns _ ▸ hbalance
  · exact hbalance

@[simp] theorem encoderState_handleStateChange (c : Config) (s : State n) (i : ℕ) (state : UInt8) :
    (handleStateChange c s i state).encoderState = s.encoderState := by
  rcases handleStateChange_cases c s i state with ⟨-, heq⟩ | ⟨-, heq⟩ | ⟨-, heq⟩ <;> rw [heq]
  · rfl
  · rfl
  · rfl

theorem history_bits (x : UInt8) {state : UInt8} (hstate : state ≤ 3) :
    (x <<< 2 ||| state) &&& 3 = state ∧
      ((x <<< 2 ||| state) &&& 0xF).toNat = 4 * (x &&& 3).toNat + state.toNat := by
  have hall : ∀ k < 256, ∀ j < 4,
      (UInt8.ofNat k <<< 2 ||| UInt8.ofNat j) &&& 3 = UInt8.ofNat j ∧
        ((UInt8.ofNat k <<< 2 ||| UInt8.ofNat j) &&& 0xF).toNat =
          4 * (UInt8.ofNat k &&& 3).toNat + (UInt8.ofNat j).toNat := by
    decide +kernel
  have hlt := Nat.lt_succ_of_le (UInt8.le_iff_toNat_le.mp hstate)
  have h := hall x.toNat x.toNat_lt state.toNat hlt
  rwa [UInt8.ofNat_toNat, UInt8.ofNat_toNat] at h

theorem pins_le {a b : UInt8} (ha : a ≤ 1) (hb : b ≤ 1) : a ||| b <<< 1 ≤ 3 := by
  have hall : ∀ k < 2, ∀ j < 2, UInt8.ofNat k ||| UInt8.ofNat j <<< 1 ≤ 3 := by decide
  have h := hall a.toNat (Nat.lt_succ_of_le (UInt8.le_iff_toNat_le.mp ha)) b.toNat
    (Nat.lt_succ_of_le (UInt8.le_iff_toNat_le.mp hb))
  rwa [UInt8.ofNat_toNat, UInt8.ofNat_toNat] at h

def State.remember (s : State n) (index : ℕ) (state : UInt8) : State n :=
  { s with
    encoderState := Function.update s.encoderState index (s.encoderState index <<< 2 ||| state) }

theorem handleRead_cases (c : Config) (s : State n) (index : ℕ) (a b : UInt8) :
    let state := a ||| b <<< 1
    s.encoderState index &&& 3 = state ∧ handleRead c s index a b = s ∨
      s.encoderState index &&& 3 ≠ state ∧ handleRead c s index a b =
        handleStateChange c (s.remember index state) index
          (s.encoderState index <<< 2 ||| state) := by
  intro state
  by_cases hsame : s.encoderState index &&& 3 = state
  · exact .inl ⟨hsame, if_neg (not_not.mpr hsame)⟩
  · exact .inr ⟨hsame, if_pos hsame⟩

theorem State.Ordered.handleRead (h : s.Ordered) (hroom : s.events.count < n) (index : ℕ)
    (a b : UInt8) : (handleRead c s index a b).Ordered := by
  rcases handleRead_cases c s index a b with ⟨-, heq⟩ | ⟨-, heq⟩ <;> rw [heq]
  · exact h
  · apply State.Ordered.handleStateChange
    · exact h
    · exact hroom

structure Tracked (c : Config) (s : State n) (index : ℕ) (seen : UInt8 × ℤ) : Prop where
  pins : s.encoderState index &&& 3 = seen.1
  accounted : Accounted c s index seen.2

variable {seen : UInt8 × ℤ}

theorem Accounted.remember {sum : ℤ} (h : Accounted c s index sum) (i : ℕ) (state : UInt8) :
    Accounted c (s.remember i state) index sum := ⟨h.balance, h.small⟩

theorem Tracked.read_self (h : Tracked c s index seen) (hi : index < c.thisCount) {a b : UInt8}
    (ha : a ≤ 1) (hb : b ≤ 1) :
    Tracked c (handleRead c s index a b) index (addReading seen (a ||| b <<< 1)) := by
  obtain ⟨hpins, haccounted⟩ := h
  obtain ⟨hlow, hindex⟩ := history_bits (s.encoderState index) (pins_le ha hb)
  rw [hpins] at hindex
  rcases handleRead_cases c s index a b with ⟨hsame, heq⟩ | ⟨hdiff, heq⟩ <;> rw [heq]
  · rw [hpins] at hsame
    exact ⟨hpins.trans hsame, by rwa [addReading, if_pos hsame]⟩
  · rw [hpins] at hdiff
    constructor
    · rw [encoderState_handleStateChange, State.remember]
      exact (congrArg (· &&& 3) (Function.update_self _ _ _)).trans hlow
    · rw [addReading, if_neg hdiff, ← hindex]
      exact (haccounted.remember index _).handleStateChange_self hi _

theorem Tracked.read_other {i : ℕ} (h : Tracked c s index seen) (hi : i < c.thisCount)
    (hindex : index < c.thisCount) (hne : i ≠ index) (a b : UInt8) :
    Tracked c (handleRead c s i a b) index seen := by
  obtain ⟨hpins, haccounted⟩ := h
  rcases handleRead_cases c s i a b with ⟨-, heq⟩ | ⟨-, heq⟩ <;> rw [heq]
  · exact ⟨hpins, haccounted⟩
  · constructor
    · rw [encoderState_handleStateChange, State.remember]
      exact (congrArg (· &&& 3) (Function.update_of_ne hne.symm _ _)).trans hpins
    · exact (haccounted.remember i _).handleStateChange_other hi hindex hne _

end Steps

section Runs

variable {n : ℕ} {c : Config} {s : State n} {index : ℕ}

/-- The encoder exists, and its pins are low or high. -/
def Action.Valid (c : Config) : Action → Prop
  | .read index pinAState pinBState => index < c.thisCount ∧ pinAState ≤ 1 ∧ pinBState ≤ 1
  | .dequeue => True

/-- The queue has room whenever pins are read. -/
def NeverFull (c : Config) : State n → List Action → Prop
  | _, [] => True
  | s, action :: actions =>
    (action ≠ .dequeue → s.events.count < n) ∧ NeverFull c (step c s action) actions

theorem run_concat (actions : List Action) (action : Action) :
    run c s (actions ++ [action]) = step c (run c s actions) action :=
  List.foldl_append

theorem Tracked.step {seen : UInt8 × ℤ} (h : Tracked c s index seen) (hindex : index < c.thisCount)
    {action : Action} (hvalid : action.Valid c) :
    Tracked c (step c s action) index ((readings index [action]).foldl addReading seen) := by
  cases action with
  | read i a b =>
    obtain ⟨hi, ha, hb⟩ := hvalid
    by_cases hsame : i = index
    · subst hsame
      have hreadings : readings i [.read i a b] = [a ||| b <<< 1] := by simp [readings]
      rw [hreadings]
      exact h.read_self hi ha hb
    · have hreadings : readings index [.read i a b] = [] := by simp [readings, hsame]
      rw [hreadings]
      exact h.read_other hi hindex hsame a b
  | dequeue =>
    change Tracked c s.dequeueEvent index seen
    unfold State.dequeueEvent
    split
    · exact h
    · exact ⟨h.pins, h.accounted.balance, h.accounted.small⟩

theorem accounted_start (start : ℕ → UInt8) :
    Accounted c ({ encoderState := start } : State n) index 0 := by
  constructor
  · have hturns : c.turns index [] = 0 := rfl
    rw [hturns, Int.mul_zero]
    rfl
  · exact Int.lt_of_lt_of_le Int.zero_lt_one (resolution_bounds c index).1

theorem tracked_run (start : ℕ → UInt8) {actions : List Action}
    (hvalid : ∀ action ∈ actions, action.Valid c) (hindex : index < c.thisCount) :
    Tracked c (run c { encoderState := start } actions : State n) index
      ((readings index actions).foldl addReading (start index &&& 3, 0)) := by
  induction actions using List.reverseRecOn with
  | nil => exact ⟨rfl, accounted_start start⟩
  | append_singleton actions action ih =>
    obtain ⟨hvalid, haction⟩ := List.forall_mem_append.mp hvalid
    have hreadings : readings index (actions ++ [action]) =
        readings index actions ++ readings index [action] := List.filterMap_append
    rw [run_concat, hreadings, List.foldl_append]
    exact (ih hvalid).step hindex (haction action List.mem_cons_self)

theorem State.Ordered.run (h : s.Ordered) {actions : List Action} (hroom : NeverFull c s actions) :
    (run c s actions).Ordered := by
  induction actions generalizing s with
  | nil => exact h
  | cons action actions ih =>
    obtain ⟨hroom, hrest⟩ := hroom
    apply ih _ hrest
    cases action with
    | read i a b => exact h.handleRead (hroom nofun) i a b
    | dequeue => exact h.dequeueEvent

/-- The events and the pulses that are kept account for every change of the pins, and the queue
holds the events that have not been taken from it. -/
theorem pulses_accounted (start : ℕ → UInt8) {actions : List Action}
    (hvalid : ∀ action ∈ actions, action.Valid c)
    (hroom : NeverFull c ({ encoderState := start } : State n) actions)
    (hindex : index < c.thisCount) :
    let s : State n := run c { encoderState := start } actions
    c.resolution index * c.turns index s.queued + (s.encoderPulses index).toInt =
        pulseSum (start index &&& 3) (readings index actions) ∧
      |(s.encoderPulses index).toInt| < c.resolution index ∧
        s.dequeued ++ s.events.toList = s.queued := by
  obtain ⟨-, hbalance, hsmall⟩ := tracked_run (n := n) start hvalid hindex
  have hstart : ({ encoderState := start } : State n).Ordered :=
    Ring.toList_clear (EncoderEvents.zero n).toRing
  exact ⟨hbalance, hsmall, hstart.run hroom⟩

def oneEncoder : Config where
  thisHand := 0
  thisCount := 1
  index_le := by decide
  resolutions _ := 2
  one_le _ := by decide
  le_127 _ := by decide
  clockwise := true

/-- A pulse forth, one back and three forth, where the event of two of them is taken. -/
def forthAndBack : List Action :=
  [.read 0 0 1, .read 0 0 0, .read 0 0 1, .read 0 1 1, .dequeue, .read 0 1 0]

theorem pulses_forthAndBack :
    let s : State 3 := run oneEncoder { encoderState := fun _ => 0 } forthAndBack
    oneEncoder.resolution 0 * oneEncoder.turns 0 s.queued + (s.encoderPulses 0).toInt =
        pulseSum (0 &&& 3) (readings 0 forthAndBack) ∧
      |(s.encoderPulses 0).toInt| < oneEncoder.resolution 0 ∧
        s.dequeued ++ s.events.toList = s.queued := by
  apply pulses_accounted (fun _ => 0)
  · intro action haction
    simp only [forthAndBack, List.mem_cons, List.not_mem_nil, or_false] at haction
    rcases haction with rfl | rfl | rfl | rfl | rfl | rfl
    all_goals first | exact ⟨by decide, by decide, by decide⟩ | trivial
  · exact ⟨by decide, by decide, by decide, by decide, by decide, by decide, trivial⟩
  · decide

end Runs

end Qmk.EncoderPulses
