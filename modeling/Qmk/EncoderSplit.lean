import Mathlib.Data.Fintype.Pi
import Qmk.RingBuffer

/-! # Encoders of a split keyboard

The slave queues the events of its encoders and copies the queue to the memory that it shares
with the master. The master reads the copy, takes its events and tells the slave to drain its
queue. The drain removes all events that are in the queue when the slave gets to it.
-/

namespace Qmk.EncoderSplit

section Queues

structure EncoderEvent where
  index : BitVec 7
  clockwise : Bool
  deriving DecidableEq, Repr

/-- `encoder_events_t`, where `MAX_QUEUED_ENCODER_EVENTS` is `n + 1`. -/
structure EncoderEvents (n : ℕ) extends Ring EncoderEvent n where
  enqueued : UInt8 := 0
  dequeued : UInt8 := 0
  deriving DecidableEq

variable {n : ℕ}

def EncoderEvents.zero (n : ℕ) : EncoderEvents n where
  head := ⟨0, n.succ_pos⟩
  tail := ⟨0, n.succ_pos⟩
  slots _ := ⟨0, false⟩

def EncoderEvents.queueEvent (events : EncoderEvents n) (event : EncoderEvent) :
    Bool × EncoderEvents n :=
  match events.push event with
  | none => (false, events)
  | some ring => (true, { events with toRing := ring, enqueued := events.enqueued + 1 })

def EncoderEvents.dequeueEvent (events : EncoderEvents n) :
    Option (EncoderEvent × EncoderEvents n) :=
  match events.pop with
  | none => none
  | some (event, ring) =>
    some (event, { events with toRing := ring, dequeued := events.dequeued + 1 })

def EncoderEvents.drain (events : EncoderEvents n) : EncoderEvents n :=
  { events with toRing := events.clear, dequeued := events.enqueued }

/-- The loop of `encoder_handlers_master` from the copy to the queue of the master; as a queue
holds at most `n` events, the loop has at most `n` passes. -/
def transfer : ℕ → EncoderEvents n → EncoderEvents n → Bool × EncoderEvents n × EncoderEvents n
  | 0, events, queue => (true, events, queue)
  | fuel + 1, events, queue =>
    match events.dequeueEvent with
    | none => (true, events, queue)
    | some (event, events) =>
      let r := queue.queueEvent event
      if r.1 then transfer fuel events r.2 else (false, events, r.2)

def EncoderEvent.byte (event : EncoderEvent) : UInt8 :=
  UInt8.ofNat (event.index.toNat + if event.clockwise then 128 else 0)

def EncoderEvents.bytes (events : EncoderEvents n) : List UInt8 :=
  [events.enqueued, events.dequeued, UInt8.ofNat events.head, UInt8.ofNat events.tail] ++
    List.ofFn fun i => (events.slots i).byte

def crcBit (crc : UInt8) : UInt8 := if crc &&& 0x80 ≠ 0 then (crc <<< 1) ^^^ 0x31 else crc <<< 1

def crc8 (data : List UInt8) : UInt8 := data.foldl (fun crc d => crcBit^[8] (crc ^^^ d)) 0xFF

/-- The checksum of a queue. -/
@[irreducible] def EncoderEvents.crc (events : EncoderEvents n) : UInt8 := crc8 events.bytes

end Queues

section System

/-- The encoders of both halves, numbered from those of the left half on. -/
structure Config where
  numEncodersLeft : ℕ
  numEncodersRight : ℕ
  slaveIsLeft : Bool
  fits : numEncodersLeft + numEncodersRight ≤ 128

variable {n : ℕ} (c : Config)

def Config.thisCount (left : Bool) : ℕ :=
  if left then c.numEncodersLeft else c.numEncodersRight

/-- An event of an encoder of a half, as `encoder_handle_state_change` makes it. -/
def Config.event (left : Bool) (i : ℕ) (clockwise : Bool) : EncoderEvent where
  index := BitVec.ofNat 7 (i + if left then 0 else c.numEncodersLeft)
  clockwise := clockwise

def Config.fromSlave (event : EncoderEvent) : Bool :=
  decide (event.index.toNat < c.numEncodersLeft) == c.slaveIsLeft

/-- `split_slave_encoder_sync_t`. -/
structure Shmem (n : ℕ) where
  checksum : UInt8 := 0
  events : EncoderEvents n := .zero n

/-- Where `encoder_handlers_master` is, between its transactions. -/
inductive Handler
  | start
  | retrieve (currChecksum : UInt8)
  | compare
  | drain
  deriving DecidableEq

/-- Both halves, with the events that the slave has queued and those that the master has
processed. -/
structure State (n : ℕ) where
  slave : EncoderEvents n := .zero n
  signalQueueDrain : Bool := false
  slaveShmem : Shmem n := {}
  master : EncoderEvents n := .zero n
  masterShmem : Shmem n := {}
  handler : Handler := .start
  lastUpdate : UInt32 := 0
  lastChecksum : UInt8 := 0
  enqueued : List EncoderEvent := []
  processed : List EncoderEvent := []

/-- The outcome of a transaction. What a failed one has left in the memory of the master is not
known, nor whether the slave has executed its command. -/
inductive Link (n : ℕ)
  | ok
  | failed (left : Shmem n) (executed : Bool)

def Link.executed : Link n → Bool
  | ok => true
  | failed _ executed => executed

/-- `encoder_handlers_master` up to the end of its next transaction. -/
def State.handle (s : State n) (now : UInt32) (link : Link n) : State n :=
  match s.handler with
  | .start =>
    match link with
    | .failed left _ => { s with masterShmem := { s.masterShmem with checksum := left.checksum } }
    | .ok =>
      let currChecksum := s.slaveShmem.checksum
      -- FORCED_SYNC_THROTTLE_MS
      let handler := if 100 ≤ now - s.lastUpdate ∨ currChecksum ≠ s.masterShmem.events.crc
        then .retrieve currChecksum else .compare
      { s with masterShmem := { s.masterShmem with checksum := currChecksum }, handler }
  | .retrieve currChecksum =>
    match link with
    | .failed left _ =>
      { s with masterShmem := { s.masterShmem with events := left.events }, handler := .start }
    | .ok =>
      let events := s.slaveShmem.events
      if currChecksum = events.crc then
        { s with
          masterShmem := { s.masterShmem with events }
          lastUpdate := now
          handler := .compare }
      else { s with masterShmem := { s.masterShmem with events }, handler := .start }
  | .compare =>
    if s.lastChecksum ≠ s.masterShmem.checksum then
      let r := transfer n s.masterShmem.events s.master
      let actioned := s.masterShmem.events.toList ≠ []
      { s with
        masterShmem := { s.masterShmem with events := r.2.1 }
        master := r.2.2
        lastChecksum := if actioned then s.lastChecksum else s.masterShmem.checksum
        handler := if actioned then .drain else .start }
    else { s with handler := .start }
  | .drain =>
    { s with
      signalQueueDrain := s.signalQueueDrain || link.executed
      lastChecksum := s.masterShmem.checksum
      handler := .start }

/-- What the two halves do. -/
inductive Action (n : ℕ)
  | slaveTick (i : ℕ) (clockwise : Bool)
  | slaveTask
  | slavePublish
  | masterTick (i : ℕ) (clockwise : Bool)
  | masterTask
  | masterHandler (now : UInt32) (link : Link n)

/-- The steps of both halves, in any order. -/
def step (s : State n) : Action n → State n
  | .slaveTick i clockwise =>
    if i < c.thisCount c.slaveIsLeft then
      let event := c.event c.slaveIsLeft i clockwise
      let r := s.slave.queueEvent event
      { s with slave := r.2, enqueued := if r.1 then s.enqueued ++ [event] else s.enqueued }
    else s
  | .slaveTask =>
    -- encoder_task, where should_process_encoder is false on the slave
    if s.signalQueueDrain then { s with signalQueueDrain := false, slave := s.slave.drain } else s
  | .slavePublish =>
    -- encoder_handlers_slave
    { s with slaveShmem := ⟨s.slave.crc, s.slave⟩ }
  | .masterTick i clockwise =>
    if i < c.thisCount (!c.slaveIsLeft) then
      { s with master := (s.master.queueEvent (c.event (!c.slaveIsLeft) i clockwise)).2 }
    else s
  | .masterTask =>
    -- a pass of the loop of encoder_handle_queue
    match s.master.dequeueEvent with
    | none => s
    | some (event, master) => { s with master, processed := s.processed ++ [event] }
  | .masterHandler now link => s.handle now link

def run (s : State n) (actions : List (Action n)) : State n := actions.foldl (step c) s

end System

section QueueLemmas

variable {n : ℕ} {events queue : EncoderEvents n} {event : EncoderEvent}

theorem queueEvent_full (h : events.count = n) : events.queueEvent event = (false, events) := by
  rw [EncoderEvents.queueEvent, Ring.push_eq_none.mpr h]

theorem queueEvent_room (h : events.count < n) : (events.queueEvent event).1 = true ∧
    (events.queueEvent event).2.toList = events.toList ++ [event] := by
  unfold EncoderEvents.queueEvent
  cases hpush : events.push event with
  | none => exact absurd (Ring.push_eq_none.mp hpush) h.ne
  | some ring => exact ⟨rfl, Ring.toList_push hpush⟩

theorem queueEvent_cases (events : EncoderEvents n) (event : EncoderEvent) :
    events.queueEvent event = (false, events) ∨ (events.queueEvent event).1 = true ∧
      (events.queueEvent event).2.toList = events.toList ++ [event] := by
  rcases events.count_le.eq_or_lt with hfull | hroom
  · exact .inl (queueEvent_full hfull)
  · exact .inr (queueEvent_room hroom)

theorem dequeueEvent_none : events.dequeueEvent = none ↔ events.toList = [] := by
  rw [← Ring.pop_eq_none, EncoderEvents.dequeueEvent]
  cases events.pop <;> simp

theorem dequeueEvent_some {rest : EncoderEvents n} (h : events.dequeueEvent = some (event, rest)) :
    events.toList = event :: rest.toList := by
  unfold EncoderEvents.dequeueEvent at h
  split at h
  · cases h
  · rename_i hpop
    obtain ⟨rfl, rfl⟩ := Prod.mk.inj (Option.some.inj h)
    exact Ring.toList_pop hpop

@[simp] theorem toList_drain (events : EncoderEvents n) : events.drain.toList = [] :=
  Ring.toList_clear _

theorem transfer_room {fuel : ℕ} (hfuel : events.toList.length ≤ fuel)
    (hroom : queue.toList.length + events.toList.length ≤ n) :
    (transfer fuel events queue).2.2.toList = queue.toList ++ events.toList := by
  induction fuel generalizing events queue with
  | zero => rw [transfer, List.length_eq_zero_iff.mp (Nat.le_zero.mp hfuel), List.append_nil]
  | succ fuel ih =>
    rw [transfer]
    cases hnext : events.dequeueEvent with
    | none => rw [dequeueEvent_none.mp hnext, List.append_nil]
    | some r =>
      obtain ⟨event, rest⟩ := r
      have hevents := dequeueEvent_some hnext
      rw [hevents, List.length_cons] at hfuel hroom
      have hlt : queue.count < n := by
        rw [← Ring.length_toList]
        omega
      obtain ⟨hok, hqueued⟩ := @queueEvent_room n queue event hlt
      dsimp only
      rw [if_pos hok, ih (by omega) (by
        rw [hqueued, List.length_append, List.length_singleton]
        omega), hqueued, hevents]
      simp

theorem transfer_nil {fuel : ℕ} (h : events.toList = []) :
    transfer fuel events queue = (true, events, queue) := by
  cases fuel with
  | zero => rfl
  | succ fuel => rw [transfer, dequeueEvent_none.mpr h]

variable {c : Config}

theorem fromSlave_event {left : Bool} {i : ℕ} (hi : i < c.thisCount left) (clockwise : Bool) :
    c.fromSlave (c.event left i clockwise) = (left == c.slaveIsLeft) := by
  have hfits := c.fits
  cases left with
  | true =>
    have hi : i < c.numEncodersLeft := hi
    have hmod : i % 128 = i := Nat.mod_eq_of_lt (by omega)
    simp [Config.fromSlave, Config.event, hmod, hi]
  | false =>
    have hi : i < c.numEncodersRight := hi
    have hmod : (i + c.numEncodersLeft) % 128 = i + c.numEncodersLeft := Nat.mod_eq_of_lt (by omega)
    have hge : ¬ i + c.numEncodersLeft < c.numEncodersLeft := by omega
    simp [Config.fromSlave, Config.event, hmod, hge]

end QueueLemmas

section Invariant

variable {n : ℕ} (c : Config)

/-- The master has taken the events of the slave's queue, which are not drained yet. -/
def State.Outstanding (s : State n) : Prop := s.handler = .drain ∨ s.signalQueueDrain = true

instance (s : State n) : Decidable s.Outstanding := inferInstanceAs (Decidable (_ ∨ _))

def State.untaken (s : State n) : List EncoderEvent :=
  if s.Outstanding then [] else s.slave.toList

/-- The events that the slave has queued are processed, waiting at the master or waiting at the
slave, in this order. -/
def Intact (s : State n) : Prop :=
  (s.processed ++ s.master.toList).filter c.fromSlave ++ s.untaken = s.enqueued

def Allows (s : State n) : Action n → Prop
  | .slaveTick _ _ => ¬ s.Outstanding
  | .masterHandler _ link =>
    (s.handler = .compare → s.lastChecksum ≠ s.masterShmem.checksum →
      s.masterShmem.events.toList ≠ [] → s.slave = s.masterShmem.events ∧
        s.slaveShmem.events = s.masterShmem.events ∧
          s.master.count + s.masterShmem.events.count ≤ n) ∧
      (s.handler = .drain → link.executed = true)
  | _ => True

instance (s : State n) : DecidablePred (Allows s)
  | .slaveTick _ _ => inferInstanceAs (Decidable (¬ s.Outstanding))
  | .masterHandler _ link => inferInstanceAs (Decidable ((s.handler = .compare →
      s.lastChecksum ≠ s.masterShmem.checksum → s.masterShmem.events.toList ≠ [] →
        s.slave = s.masterShmem.events ∧ s.slaveShmem.events = s.masterShmem.events ∧
          s.master.count + s.masterShmem.events.count ≤ n) ∧
      (s.handler = .drain → link.executed = true)))
  | .slaveTask => isTrue trivial
  | .slavePublish => isTrue trivial
  | .masterTick _ _ => isTrue trivial
  | .masterTask => isTrue trivial

/-- Every step of a run meets the condition. -/
def Meets : State n → List (Action n) → Prop
  | _, [] => True
  | s, action :: actions => Allows s action ∧ Meets (step c s action) actions

instance instDecidableMeets :
    (s : State n) → (actions : List (Action n)) → Decidable (Meets c s actions)
  | _, [] => isTrue trivial
  | s, action :: actions =>
    have := instDecidableMeets (step c s action) actions
    inferInstanceAs (Decidable (_ ∧ _))

instance (s : State n) : Decidable (Intact c s) := inferInstanceAs (Decidable (_ = _))

/-- What the steps preserve. While a drain is outstanding, the copies and the checksums are those
of the queue that is drained. -/
structure Inv (s : State n) : Prop where
  intact : Intact c s
  slave : ∀ event ∈ s.slave.toList, c.fromSlave event = true
  published : s.slaveShmem.events.toList ≠ [] → s.slaveShmem.checksum = s.slaveShmem.events.crc
  retrieve : ∀ curr, s.handler = .retrieve curr → s.masterShmem.checksum = curr
  compare : s.handler = .compare → s.masterShmem.checksum = s.masterShmem.events.crc
  signal : s.handler = .drain → s.signalQueueDrain = false
  copy : s.Outstanding → s.slaveShmem.events = s.slave ∧ s.slave.toList ≠ []
  checksum : s.Outstanding → s.handler ≠ .start → s.masterShmem.checksum = s.slave.crc
  last : s.signalQueueDrain = true → s.lastChecksum = s.slave.crc

variable {c} {s : State n}

theorem intact_ready (h : ¬ s.Outstanding) : Intact c s ↔
    (s.processed ++ s.master.toList).filter c.fromSlave ++ s.slave.toList = s.enqueued := by
  rw [Intact, State.untaken, if_neg h]

theorem intact_outstanding (h : s.Outstanding) : Intact c s ↔
    (s.processed ++ s.master.toList).filter c.fromSlave = s.enqueued := by
  rw [Intact, State.untaken, if_pos h, List.append_nil]

theorem inv_init : Inv c ({} : State n) := by
  have hnil : (EncoderEvents.zero n).toList = [] := Ring.toList_eq_nil.mpr rfl
  have hready : ¬ ({} : State n).Outstanding := by simp [State.Outstanding]
  refine ⟨?_, ?_, ?_, ?_, ?_, ?_, ?_, ?_, ?_⟩
  · simp [Intact, State.untaken, hready, hnil]
  · simp [hnil]
  · exact fun h => absurd hnil h
  · exact fun _ h => by cases h
  · exact fun h => by cases h
  · exact fun h => by cases h
  · exact fun h => absurd h hready
  · exact fun h => absurd h hready
  · exact fun h => by cases h

theorem Inv.slaveTick (h : Inv c s) (hready : ¬ s.Outstanding) (i : ℕ) (clockwise : Bool) :
    Inv c (step c s (.slaveTick i clockwise)) := by
  by_cases hi : i < c.thisCount c.slaveIsLeft
  · rw [step, if_pos hi]
    dsimp only
    rcases queueEvent_cases s.slave (c.event c.slaveIsLeft i clockwise) with hfull | ⟨hok, hqueued⟩
    · rw [hfull]
      exact h
    · have hown : c.fromSlave (c.event c.slaveIsLeft i clockwise) = true :=
        (fromSlave_event hi clockwise).trans (beq_self_eq_true _)
      have hintact := (intact_ready hready).mp h.intact
      refine ⟨(intact_ready ?_).mpr ?_, ?_, h.published, h.retrieve, h.compare, h.signal,
        fun ho => absurd ho hready, fun ho => absurd ho hready,
        fun hs => absurd (.inr hs) hready⟩
      · exact hready
      · dsimp only
        rw [hqueued, ← List.append_assoc, hintact, if_pos hok]
      · rw [hqueued, List.forall_mem_append]
        exact ⟨h.slave, by simpa using hown⟩
  · rw [step, if_neg hi]
    exact h

theorem Inv.slaveTask (h : Inv c s) : Inv c (step c s .slaveTask) := by
  rw [step]
  split_ifs with hsignal
  · have hhandler : s.handler ≠ .drain := fun hdrain => by
      rw [h.signal hdrain] at hsignal
      cases hsignal
    have hintact := (intact_outstanding (.inr hsignal)).mp h.intact
    have hready : ¬ (s.handler = .drain ∨ false = true) := by simp [hhandler]
    refine ⟨(intact_ready ?_).mpr ?_, ?_, h.published, h.retrieve, h.compare, fun _ => rfl,
      fun ho => absurd ho hready, fun ho => absurd ho hready, fun hs => by cases hs⟩
    · exact hready
    · dsimp only
      rw [toList_drain, List.append_nil]
      exact hintact
    · rw [toList_drain]
      exact fun _ hevent => by cases hevent
  · exact h

theorem Inv.slavePublish (h : Inv c s) : Inv c (step c s .slavePublish) := by
  refine ⟨h.intact, h.slave, fun _ => rfl, h.retrieve, h.compare, h.signal, fun ho => ?_,
    h.checksum, h.last⟩
  have hcopy := h.copy ho
  exact ⟨rfl, hcopy.2⟩

theorem Inv.masterTick (h : Inv c s) (i : ℕ) (clockwise : Bool) :
    Inv c (step c s (.masterTick i clockwise)) := by
  by_cases hi : i < c.thisCount (!c.slaveIsLeft)
  · rw [step, if_pos hi]
    rcases queueEvent_cases s.master (c.event (!c.slaveIsLeft) i clockwise) with
      hfull | ⟨-, hqueued⟩
    · rw [hfull]
      exact h
    · have hforeign : c.fromSlave (c.event (!c.slaveIsLeft) i clockwise) = false :=
        (fromSlave_event hi clockwise).trans (by cases c.slaveIsLeft <;> rfl)
      have hintact := h.intact
      refine ⟨?_, h.slave, h.published, h.retrieve, h.compare, h.signal, h.copy, h.checksum,
        h.last⟩
      rw [Intact, hqueued, ← List.append_assoc, List.filter_append (_ ++ _),
        List.filter_cons_of_neg (by simp [hforeign]), List.filter_nil, List.append_nil]
      exact hintact
  · rw [step, if_neg hi]
    exact h

theorem Inv.masterTask (h : Inv c s) : Inv c (step c s .masterTask) := by
  rw [step]
  cases hnext : s.master.dequeueEvent with
  | none => exact h
  | some r =>
    obtain ⟨event, master⟩ := r
    have hintact := h.intact
    refine ⟨?_, h.slave, h.published, h.retrieve, h.compare, h.signal, h.copy, h.checksum, h.last⟩
    rw [Intact, dequeueEvent_some hnext] at hintact
    rw [Intact, List.append_assoc]
    exact hintact

theorem Inv.reading {handler : Handler} {masterShmem : Shmem n} {lastUpdate : UInt32} (h : Inv c s)
    (hbefore : s.handler ≠ .drain) (hafter : handler ≠ .drain)
    (hretrieve : ∀ curr, handler = .retrieve curr → masterShmem.checksum = curr)
    (hcompare : handler = .compare → masterShmem.checksum = masterShmem.events.crc)
    (hchecksum : s.Outstanding → handler ≠ .start → masterShmem.checksum = s.slave.crc) :
    Inv c { s with handler, masterShmem, lastUpdate } := by
  have hsame : State.Outstanding { s with handler, masterShmem, lastUpdate } ↔ s.Outstanding := by
    simp [State.Outstanding, hbefore, hafter]
  have hintact : Intact c { s with handler, masterShmem, lastUpdate } ↔ Intact c s := by
    by_cases ho : s.Outstanding
    · rw [intact_outstanding ho, intact_outstanding (hsame.mpr ho)]
    · rw [intact_ready ho, intact_ready fun ho' => ho (hsame.mp ho')]
  exact ⟨hintact.mpr h.intact, h.slave, h.published, hretrieve, hcompare,
    fun hdrain => absurd hdrain hafter, fun ho => h.copy (hsame.mp ho),
    fun ho => hchecksum (hsame.mp ho), h.last⟩

theorem Inv.handle_start (h : Inv c s) (hstart : s.handler = .start) (now : UInt32)
    (link : Link n) : Inv c (s.handle now link) := by
  have hdrain : s.handler ≠ .drain := by simp [hstart]
  unfold State.handle
  rw [hstart]
  cases link with
  | failed left executed =>
    exact h.reading hdrain (by simp) (by simp) (by simp) (by simp)
  | ok =>
    dsimp only
    have hchecksum : s.Outstanding → s.slaveShmem.checksum = s.slave.crc := fun ho => by
      obtain ⟨hcopy, hne⟩ := h.copy ho
      rw [h.published (by rwa [hcopy]), hcopy]
    split_ifs with hread
    · exact h.reading hdrain (by simp) (by simp) (by simp) fun ho _ => hchecksum ho
    · refine h.reading hdrain (by simp) (by simp) (fun _ => ?_) fun ho _ => hchecksum ho
      exact not_not.mp (not_or.mp hread).2

theorem Inv.handle_retrieve (h : Inv c s) {curr : UInt8} (hretrieve : s.handler = .retrieve curr)
    (now : UInt32) (link : Link n) : Inv c (s.handle now link) := by
  have hdrain : s.handler ≠ .drain := by simp [hretrieve]
  unfold State.handle
  rw [hretrieve]
  cases link with
  | failed left executed =>
    exact h.reading hdrain (by simp) (by simp) (by simp) (by simp)
  | ok =>
    dsimp only
    split_ifs with hsame
    · refine h.reading hdrain (by simp) (by simp) (fun _ => ?_) fun ho _ => ?_
      · exact (h.retrieve curr hretrieve).trans hsame
      · exact h.checksum ho (by simp [hretrieve])
    · exact h.reading hdrain (by simp) (by simp) (by simp) (by simp)

theorem Inv.handle_compare (h : Inv c s) (hcompare : s.handler = .compare) (now : UInt32)
    (link : Link n) (hallows : Allows s (.masterHandler now link)) :
    Inv c (s.handle now link) := by
  have hdrain : s.handler ≠ .drain := by simp [hcompare]
  unfold State.handle
  rw [hcompare]
  dsimp only
  -- a checksum that has changed is not that of a queue to be drained
  have hready : s.lastChecksum ≠ s.masterShmem.checksum → ¬ s.Outstanding := by
    rintro hnew (hd | hsignal)
    · exact hdrain hd
    · have hchecksum := h.checksum (.inr hsignal) (by simp [hcompare])
      exact hnew ((h.last hsignal).trans hchecksum.symm)
  split_ifs with hnew hne
  · obtain ⟨hslave, hcopy, hroom⟩ := hallows.1 hcompare hnew hne
    have hready := hready hnew
    have hsignal : s.signalQueueDrain = false := by
      by_contra hs
      exact hready (.inr (by simpa using hs))
    have htaken := @transfer_room n s.masterShmem.events s.master n
      (by rw [Ring.length_toList]; exact Ring.count_le _) (by simpa using hroom)
    have hintact := (intact_ready hready).mp h.intact
    have hown := List.filter_eq_self.mpr h.slave
    refine ⟨(intact_outstanding (.inl rfl)).mpr ?_, h.slave, h.published, by simp, by simp,
      fun _ => hsignal, fun _ => ⟨hcopy.trans hslave.symm, by rwa [hslave]⟩, fun _ _ => ?_,
      fun hs => absurd (.inr hs) hready⟩
    · dsimp only
      rw [htaken, ← hslave, ← List.append_assoc, List.filter_append, hown]
      exact hintact
    · dsimp only
      rw [h.compare hcompare, hslave]
  · have hready := hready hnew
    have hready' : ¬ (Handler.start = .drain ∨ s.signalQueueDrain = true) := by
      rintro (hd | hs)
      · cases hd
      · exact hready (.inr hs)
    have hintact := (intact_ready hready).mp h.intact
    rw [transfer_nil (not_not.mp hne)]
    refine ⟨(intact_ready ?_).mpr hintact, h.slave, h.published, by simp, by simp, by simp,
      fun ho => absurd ho hready', fun ho => absurd ho hready',
      fun hs => absurd (.inr hs) hready⟩
    exact hready'
  · exact h.reading hdrain (by simp) (by simp) (by simp) (by simp)

theorem Inv.handle_drain (h : Inv c s) (hdrain : s.handler = .drain) (now : UInt32) {link : Link n}
    (hlink : link.executed = true) : Inv c (s.handle now link) := by
  have hintact := (intact_outstanding (.inl hdrain)).mp h.intact
  have hchecksum := h.checksum (.inl hdrain) (by simp [hdrain])
  unfold State.handle
  rw [hdrain]
  dsimp only
  rw [hlink, Bool.or_true]
  exact ⟨(intact_outstanding (.inr rfl)).mpr hintact, h.slave, h.published, by simp, by simp,
    by simp, fun _ => h.copy (.inl hdrain), by simp, fun _ => hchecksum⟩

theorem Inv.step (h : Inv c s) {action : Action n} (hallows : Allows s action) :
    Inv c (step c s action) := by
  cases action with
  | slaveTick i clockwise => exact h.slaveTick hallows i clockwise
  | slaveTask => exact h.slaveTask
  | slavePublish => exact h.slavePublish
  | masterTick i clockwise => exact h.masterTick i clockwise
  | masterTask => exact h.masterTask
  | masterHandler now link =>
    cases hhandler : s.handler with
    | start => exact h.handle_start hhandler now link
    | retrieve curr => exact h.handle_retrieve hhandler now link
    | compare => exact h.handle_compare hhandler now link hallows
    | drain => exact h.handle_drain hhandler now (hallows.2 hhandler)

theorem Inv.run (h : Inv c s) {actions : List (Action n)} (hmeets : Meets c s actions) :
    Inv c (run c s actions) := by
  induction actions generalizing s with
  | nil => exact h
  | cons action actions ih => exact ih (h.step hmeets.1) hmeets.2

end Invariant

section Delivery

variable {n : ℕ} {c : Config} {s : State n}

/-- The checksums tell the queue of the slave from what the master knows. -/
def State.Distinct (s : State n) : Prop :=
  (s.masterShmem.events.crc = s.slave.crc → s.masterShmem.events = s.slave) ∧
    (s.slave.toList ≠ [] → s.lastChecksum ≠ s.slave.crc)

/-- A round without new events: the slave drains and publishes its queue, and the master processes
what it has, takes what is published and processes it. -/
def quietRound (n : ℕ) (now : UInt32) : List (Action n) :=
  [.slaveTask, .slavePublish] ++ List.replicate n .masterTask ++
    List.replicate 3 (.masterHandler now .ok) ++ List.replicate n .masterTask

theorem run_append (s : State n) (actions actions' : List (Action n)) :
    run c s (actions ++ actions') = run c (run c s actions) actions' :=
  List.foldl_append

theorem run_masterTask {k : ℕ} (hk : s.master.toList.length ≤ k) : ∃ master : EncoderEvents n,
    master.toList = [] ∧ run c s (List.replicate k .masterTask) =
      { s with master, processed := s.processed ++ s.master.toList } := by
  induction k generalizing s with
  | zero =>
    have hnil := List.length_eq_zero_iff.mp (Nat.le_zero.mp hk)
    exact ⟨s.master, hnil, by rw [hnil, List.append_nil]; rfl⟩
  | succ k ih =>
    rw [List.replicate_succ]
    change ∃ master : EncoderEvents n, _ ∧ run c (step c s .masterTask) _ = _
    rw [step]
    cases hnext : s.master.dequeueEvent with
    | none =>
      have hnil := dequeueEvent_none.mp hnext
      obtain ⟨master, hmaster, hrun⟩ := ih (s := s) (by simp [hnil])
      exact ⟨master, hmaster, hrun⟩
    | some r =>
      obtain ⟨event, rest⟩ := r
      have hevents := dequeueEvent_some hnext
      rw [hevents, List.length_cons] at hk
      obtain ⟨master, hmaster, hrun⟩ :=
        ih (s := { s with master := rest, processed := s.processed ++ [event] })
          (Nat.le_of_succ_le_succ hk)
      refine ⟨master, hmaster, hrun.trans ?_⟩
      simp [hevents]

theorem inv_masterTasks (h : Inv c s) (k : ℕ) :
    Inv c (run c s (List.replicate k .masterTask)) := by
  induction k generalizing s with
  | zero => exact h
  | succ k ih => exact ih h.masterTask

theorem handle_compare_settles (h : Inv c s) (hcompare : s.handler = .compare)
    (hevents : s.masterShmem.events = s.slave) (hcopy : s.slaveShmem.events = s.slave)
    (hmaster : s.master.toList = []) (hlast : s.slave.toList ≠ [] → s.lastChecksum ≠ s.slave.crc)
    (now : UInt32) : Inv c (s.handle now .ok) ∧ (s.handle now .ok).slave = s.slave ∧
      (s.handle now .ok).handler = if s.slave.toList ≠ [] then .drain else .start := by
  refine ⟨h.handle_compare hcompare now .ok ⟨fun _ _ _ => ⟨hevents.symm, hcopy.trans hevents.symm,
    ?_⟩, fun hdrain => by rw [hcompare] at hdrain; cases hdrain⟩, ?_, ?_⟩
  · rw [← Ring.length_toList, hmaster, List.length_nil, Nat.zero_add]
    exact Ring.count_le _
  · unfold State.handle
    rw [hcompare]
    dsimp only
    split_ifs <;> rfl
  · have hchecksum := h.compare hcompare
    unfold State.handle
    rw [hcompare]
    dsimp only
    rw [hchecksum, hevents]
    split_ifs with hnew hne hne
    · rfl
    · rfl
    · exact absurd (not_not.mp hnew) (hlast hne)
    · rfl

theorem untaken_eq_nil (h : s.Outstanding ∨ s.slave.toList = []) : s.untaken = [] := by
  unfold State.untaken
  rcases h with ho | hnil
  · exact if_pos ho
  · rw [hnil, ite_self]

theorem handle_frame (s : State n) (now : UInt32) (link : Link n) :
    (s.handle now link).slave = s.slave ∧ (s.handle now link).enqueued = s.enqueued := by
  unfold State.handle
  split
  · cases link <;> exact ⟨rfl, rfl⟩
  · cases link with
    | ok =>
      dsimp only
      split_ifs <;> exact ⟨rfl, rfl⟩
    | failed left executed => exact ⟨rfl, rfl⟩
  · dsimp only
    split_ifs <;> exact ⟨rfl, rfl⟩
  · exact ⟨rfl, rfl⟩

@[simp] theorem slave_handle (s : State n) (now : UInt32) (link : Link n) :
    (s.handle now link).slave = s.slave :=
  (handle_frame s now link).1

@[simp] theorem enqueued_handle (s : State n) (now : UInt32) (link : Link n) :
    (s.handle now link).enqueued = s.enqueued :=
  (handle_frame s now link).2

theorem handle_settles (h : Inv c s) (hstart : s.handler = .start)
    (hshmem : s.slaveShmem = ⟨s.slave.crc, s.slave⟩) (hmaster : s.master.toList = [])
    (hdistinct : s.Distinct) (now : UInt32) :
    Inv c (((s.handle now .ok).handle now .ok).handle now .ok) ∧
      (((s.handle now .ok).handle now .ok).handle now .ok).untaken = [] := by
  have hfirst := h.handle_start hstart now .ok
  have hchecksum : s.slaveShmem.checksum = s.slave.crc := by rw [hshmem]
  have hcopy : s.slaveShmem.events = s.slave := by rw [hshmem]
  by_cases hread : 100 ≤ now - s.lastUpdate ∨ s.slaveShmem.checksum ≠ s.masterShmem.events.crc
  · have hs₁ : s.handle now .ok = { s with
        masterShmem := { s.masterShmem with checksum := s.slaveShmem.checksum }
        handler := .retrieve s.slaveShmem.checksum } := by
      unfold State.handle
      rw [hstart]
      dsimp only
      rw [if_pos hread]
    have hretrieve : (s.handle now .ok).handler = .retrieve s.slaveShmem.checksum := by rw [hs₁]
    have hsecond := hfirst.handle_retrieve hretrieve now .ok
    have hs₂ : (s.handle now .ok).handle now .ok = { s with
        masterShmem := ⟨s.slaveShmem.checksum, s.slaveShmem.events⟩
        lastUpdate := now
        handler := .compare } := by
      rw [hs₁]
      unfold State.handle
      dsimp only
      rw [if_pos (by rw [hchecksum, hcopy])]
    obtain ⟨hthird, hslave, hhandler⟩ := handle_compare_settles hsecond (by rw [hs₂])
      (by rw [hs₂]; exact hcopy) (by rw [hs₂]; exact hcopy) (by rw [hs₂]; exact hmaster)
      (by rw [hs₂]; exact hdistinct.2) now
    refine ⟨hthird, untaken_eq_nil ?_⟩
    by_cases hne : s.slave.toList = []
    · exact .inr (by simpa using hne)
    · refine .inl (.inl (hhandler.trans (if_pos ?_)))
      simpa using hne
  · have hs₁ : s.handle now .ok = { s with
        masterShmem := { s.masterShmem with checksum := s.slaveShmem.checksum }
        handler := .compare } := by
      unfold State.handle
      rw [hstart]
      dsimp only
      rw [if_neg hread]
    have hsame := hdistinct.1 (by
      rw [← hchecksum]
      exact (not_not.mp (not_or.mp hread).2).symm)
    obtain ⟨hsecond, hslave, hhandler⟩ := handle_compare_settles hfirst (by rw [hs₁])
      (by rw [hs₁]; exact hsame) (by rw [hs₁]; exact hcopy) (by rw [hs₁]; exact hmaster)
      (by rw [hs₁]; exact hdistinct.2) now
    by_cases hne : s.slave.toList = []
    · rw [slave_handle, hne, if_neg (by simp)] at hhandler
      exact ⟨hsecond.handle_start hhandler now .ok, untaken_eq_nil (.inr (by simpa using hne))⟩
    · rw [slave_handle, if_pos hne] at hhandler
      refine ⟨hsecond.handle_drain hhandler now rfl, untaken_eq_nil (.inl (.inr ?_))⟩
      rw [State.handle, hhandler]
      exact Bool.or_true _

theorem round_publishes (h : Inv c s) (hstart : s.handler = .start)
    (hdistinct : (step c s .slaveTask).Distinct) : ∃ t : State n,
      run c s ([.slaveTask, .slavePublish] ++ List.replicate n .masterTask) = t ∧ Inv c t ∧
        t.handler = .start ∧ t.slaveShmem = ⟨t.slave.crc, t.slave⟩ ∧ t.master.toList = [] ∧
          t.Distinct ∧ t.enqueued = s.enqueued := by
  have hpublished := h.slaveTask.slavePublish
  have htask : (step c s .slaveTask).handler = .start ∧
      (step c s .slaveTask).enqueued = s.enqueued := by
    rw [step]
    split_ifs
    · exact ⟨hstart, rfl⟩
    · exact ⟨hstart, rfl⟩
  obtain ⟨master, hmaster, hrun⟩ := @run_masterTask n c
    (step c (step c s .slaveTask) .slavePublish) n
    (by rw [Ring.length_toList]; exact Ring.count_le _)
  have hinv := inv_masterTasks hpublished n
  rw [hrun] at hinv
  rw [run_append]
  exact ⟨_, hrun, hinv, htask.1, rfl, hmaster, hdistinct, htask.2⟩

theorem quietRound_delivers (h : Inv c s) (hstart : s.handler = .start)
    (hdistinct : (step c s .slaveTask).Distinct) (now : UInt32) :
    (run c s (quietRound n now)).processed.filter c.fromSlave = s.enqueued := by
  obtain ⟨t, hrun, hinv, hready, hshmem, hmaster, htdistinct, henqueued⟩ :=
    round_publishes h hstart hdistinct
  obtain ⟨htaken, huntaken⟩ := handle_settles hinv hready hshmem hmaster htdistinct now
  have hintact := htaken.intact
  rw [Intact, huntaken, List.append_nil] at hintact
  simp only [enqueued_handle, henqueued] at hintact
  obtain ⟨master, -, hlast⟩ := @run_masterTask n c
    (((t.handle now .ok).handle now .ok).handle now .ok) n
    (by rw [Ring.length_toList]; exact Ring.count_le _)
  rw [quietRound, run_append, run_append, hrun]
  change (run c (((t.handle now .ok).handle now .ok).handle now .ok) _).processed.filter _ = _
  rw [hlast]
  exact hintact

/-- In a run in which no event is queued while a drain is outstanding, the master takes only what
is still the queue of the slave and has room for it, and the drain commands reach the slave, no
event is lost, repeated or moved, and a round delivers them all if the checksums tell the queue of
the slave from what the master knows. -/
theorem encoder_events_survive (c : Config) {actions : List (Action n)}
    (hmeets : Meets c {} actions) : Intact c (run c {} actions) ∧
      ∀ now, (run c {} actions).handler = .start →
        (step c (run c {} actions) .slaveTask).Distinct →
          (run c (run c {} actions) (quietRound n now)).processed.filter c.fromSlave =
            (run c {} actions).enqueued := by
  have hinv := inv_init.run hmeets
  exact ⟨hinv.intact, fun now hstart hdistinct => quietRound_delivers hinv hstart hdistinct now⟩

/-- One encoder on each half, the slave on the right. -/
def twoEncoders : Config := ⟨1, 1, false, by decide⟩

def tickTaken : List (Action 3) :=
  [.slaveTick 0 true, .slavePublish, .masterHandler 0 .ok, .masterHandler 0 .ok,
    .masterHandler 0 .ok, .masterHandler 0 .ok]

theorem tick_survives : Intact twoEncoders (run twoEncoders {} tickTaken) ∧
    ∀ now, (run twoEncoders {} tickTaken).handler = .start →
      (step twoEncoders (run twoEncoders {} tickTaken) .slaveTask).Distinct →
        (run twoEncoders (run twoEncoders {} tickTaken) (quietRound 3 now)).processed.filter
          twoEncoders.fromSlave = (run twoEncoders {} tickTaken).enqueued :=
  encoder_events_survive twoEncoders (by decide +kernel)

/-- A second tick between the publication and the drain. -/
def tickLost : List (Action 3) :=
  [.slaveTick 0 true, .slavePublish, .slaveTick 0 false, .masterHandler 0 .ok, .masterHandler 0 .ok,
    .masterHandler 0 .ok, .masterHandler 0 .ok, .slaveTask]

/-- The drain has removed the second tick, which the master has not seen. -/
theorem tick_lost : ¬ Intact twoEncoders (run twoEncoders {} tickLost) ∧
    (run twoEncoders {} tickLost).enqueued = [⟨1, true⟩, ⟨1, false⟩] ∧
      (run twoEncoders {} tickLost).master.toList = [⟨1, true⟩] ∧
        (run twoEncoders {} tickLost).slave.toList = [] := by
  decide +kernel

end Delivery

end Qmk.EncoderSplit
