import Qmk.Tapping.OwedTaps

/-! # Taps that are settled early

With Chordal Hold or Flow Tap a key may be settled as tapped ahead of its release;
it then stands in `registered_taps` until its release is looked up there. The look
up is made for every event that is not a press, and so for ticks, whose key is the
one at row 0 and column 0. Queued events that are flushed are not looked up.
-/

namespace Qmk.Tapping

/-- A key that has been settled as tapped is registered until its own release arrives, and that
release counts as a tap. The records of each key are emitted in the order of their arrival, so the
release that it is owed is its own. -/
structure SettledTapsReleased (f : Features) (inputs : List Input) : Prop where
  order : ∀ k, (keyed k (processed (run f {} inputs).effects ++ (run f {} inputs).pending)).map
    (·.event) = arrivals k (inputs.map (·.event))
  released : ∀ k, (tapRelease k).Accepts false (run f {} inputs).effects
  stays : ∀ k, (tapRelease k).after false (run f {} inputs).effects = true →
    (∀ r ∈ (run f {} inputs).pending, r.event.key = k → r.event.pressed = true) →
    k ∈ (run f {} inputs).registeredTaps

section Guards

variable (f : Features) (d : Decisions)

/-- The record may be emitted without a look-up: it is not the uncounted release of a registered
key. -/
def needsNoLookup (record : Keyrecord) (s : Engine) : Bool :=
  decide (record.event.pressed = false → record.event.key ∈ s.registeredTaps →
    0 < record.tap.count)

/-- The events of a buffer, each with the state that it finds once those ahead of it are flushed. -/
def foundBy (flush : Keyrecord → Engine → Engine) :
    List Keyrecord → Engine → List (Keyrecord × Engine)
  | [], _ => []
  | record :: records, s => (record, s) :: foundBy flush records (flush record s)

def upToPress (key : Keypos) : List Keyrecord → List Keyrecord
  | [] => []
  | record :: records =>
    if key = record.event.key ∧ record.event.pressed then [record]
    else record :: upToPress key records

/-- No event of the buffer that `waiting_buffer_chordal_hold_taps_until` flushes needs a look-up. -/
def tapsUntilNeedsNoLookup (key : Keypos) (s : Engine) : Bool :=
  (foundBy (processAsTapped f d) (upToPress key s.waitingBuffer) s).all fun found =>
    needsNoLookup found.1 found.2

/-- No event of the buffer ahead of the first one of a tap-hold key needs a look-up or is one of the
tapping key. -/
def processRegularNeedsNoLookup (s : Engine) : Bool :=
  ((foundBy (fun record s => waitingBufferPop (processRecord f d record s)) s.waitingBuffer
    s).takeWhile fun found => !isTapRecord d found.2 found.1).all fun found =>
      needsNoLookup found.1 s && decide (keyed found.1.event.key s.tappingKey.held = [])

/-- No event of the buffer ahead of the first one of a tap-hold key is one of the tapping key. -/
def processRegularPassesOthers (s : Engine) : Bool :=
  ((foundBy (fun record s => waitingBufferPop (processRecord f d record s)) s.waitingBuffer
    s).takeWhile fun found => !isTapRecord d found.2 found.1).all fun found =>
      decide (keyed found.1.event.key s.tappingKey.held = [])

/-- The first queued event is not the release of a tap-hold key, which would become the tapping
key. -/
def nextIsNoRelease (s : Engine) : Bool :=
  match s.waitingBuffer with
  | record :: _ => record.event.pressed || !isTapRecord d s record
  | [] => true

/-- What a press of another key flushes from the buffer leaves the events of each key in order. -/
def interruptInOrder (keyp : Keyrecord) (s : Engine) : Bool :=
  let s := { s with tappingKey := s.tappingKey.withInterrupted true }
  if chordConsideredTap f d keyp s then true
  else if d.getHoldOnOtherKeyPress s.effects s.tappingKey then
    if f.chordalHold then
      let s := processRecord f d s.tappingKey s
      nextIsNoRelease d s && processRegularPassesOthers f d (nextTappingKey d s)
    else true
  else true

/-- A call of `process_tapping` leaves the events of each key in the buffer in order. -/
def callInOrder (keyp : Keyrecord) (s : Engine) : Bool :=
  if s.tappingKey.phase = .undecided ∧ withinTappingTerm d s keyp.event ∧ keyp.event.pressed then
    interruptInOrder f d keyp s
  else true

/-- What a press of another key flushes from the buffer needs no look-up. -/
def interruptNeedsNoLookup (keyp : Keyrecord) (s : Engine) : Bool :=
  let s := { s with tappingKey := s.tappingKey.withInterrupted true }
  if chordConsideredTap f d keyp s then true
  else if d.getHoldOnOtherKeyPress s.effects s.tappingKey then
    if f.chordalHold then
      let s := processRecord f d s.tappingKey s
      nextIsNoRelease d s &&
        processRegularNeedsNoLookup f d (nextTappingKey d s)
    else true
  else true

/-- What an event flushes from the buffer while the tapping key is undecided needs no look-up. -/
def flushNeedsNoLookup (keyp : Keyrecord) (s : Engine) : Bool :=
  if isTappingRecord s keyp ∧ ¬ keyp.event.pressed then true
  else if ¬ keyp.event.pressed ∧ waitingBufferTyped s keyp.event ∧
      chordConsideredTap f d keyp s then
    let s := settleAsTapped f d s
    tapsUntilNeedsNoLookup f d keyp.event.key s
  else if ¬ keyp.event.pressed ∧ waitingBufferTyped s keyp.event ∧
      d.getPermissiveHold s.effects s.tappingKey then
    if f.chordalHold then
      let s := processQueuedHolds f d (processRecord f d s.tappingKey s)
      tapsUntilNeedsNoLookup f d keyp.event.key s
    else true
  else if ¬ keyp.event.pressed ∧ ¬ waitingBufferTyped s keyp.event then true
  else if keyp.event.pressed then interruptNeedsNoLookup f d keyp s
  else true

/-- The condition on the flushes of a call of `process_tapping`, after the look-up. -/
def callNeedsNoLookup (queued : Bool) (keyp : Keyrecord) (s : Engine) : Bool :=
  let r := takeRegisteredTap f queued keyp s
  if r.2.tappingKey.phase = .undecided ∧ withinTappingTerm d r.2 r.1.event then
    flushNeedsNoLookup f d r.1 r.2
  else true

def tickMissesTaps (r : Keyrecord) (s : Engine) : Bool :=
  decide (r.event.isNoevent = true → r.event.pressed = false →
    r.event.key ∉ s.registeredTaps)

/-- A release of a registered key finds no uncounted release of its key in the buffer. -/
def lookupInOrder (r : Keyrecord) (s : Engine) : Bool :=
  decide (r.event.pressed = false → r.event.key ∈ s.registeredTaps →
    ∀ x ∈ keyed r.event.key s.waitingBuffer, x.event.pressed = false → 0 < x.tap.count)

/-- An event of a key that has events in the buffer is kept back behind them. -/
def keptBehind (r : Keyrecord) (s : Engine) : Bool :=
  decide (keyed r.event.key s.waitingBuffer ≠ [] → ¬ accepting d s r.event ∧
    (r.event.pressed = false → waitingBufferTyped s r.event = true))

end Guards

/-- No tick has a registered key; an arriving release of a registered key is the first one of its
key; an event of a key that has events in the buffer is kept back; and nothing that is flushed needs
a look-up. -/
def tapsLookedUp (f : Features) : Guard where
  arriving d r s :=
    if r.event.isNoevent then tickMissesTaps r s
    else lookupInOrder r s && keptBehind d r s && callNeedsNoLookup f d false r s
  queued d r s := callNeedsNoLookup f d true r (s.push r)

/-- An arriving event stays behind those of its key that wait, and what is flushed from the buffer
leaves the events of each key in order. -/
def keysInTurn (f : Features) : Guard where
  arriving d r s := r.event.isNoevent || (keptBehind d r s && callInOrder f d r s)
  queued d r s := callInOrder f d r (s.push r)

section InTurn

variable {f : Features} {d : Decisions} {s : Engine} {r : Keyrecord} {queued : Bool}

theorem passesOthers_of_needsNoLookup (h : processRegularNeedsNoLookup f d s = true) :
    processRegularPassesOthers f d s = true := by
  simp only [processRegularNeedsNoLookup, processRegularPassesOthers, List.all_eq_true,
    Bool.and_eq_true] at h ⊢
  exact fun found hfound => (h found hfound).2

theorem interruptInOrder_of_needsNoLookup (h : interruptNeedsNoLookup f d r s = true) :
    interruptInOrder f d r s = true := by
  simp only [interruptNeedsNoLookup, interruptInOrder] at h ⊢
  split_ifs at h ⊢
  · rfl
  · rw [Bool.and_eq_true] at h ⊢
    exact h.imp_right passesOthers_of_needsNoLookup
  · rfl
  · rfl

theorem callInOrder_of_needsNoLookup (h : callNeedsNoLookup f d queued r s = true) :
    callInOrder f d r s = true := by
  simp only [callInOrder]
  split_ifs with hcall
  · obtain ⟨hphase, hterm, hp⟩ := hcall
    have hsame : takeRegisteredTap f queued r s = (r, s) := by simp [takeRegisteredTap, hp]
    simp only [callNeedsNoLookup, hsame, hphase, hterm, flushNeedsNoLookup, hp, not_true,
      and_false, false_and, and_self, if_true, if_false] at h
    exact interruptInOrder_of_needsNoLookup h
  · rfl

end InTurn

section Fields

variable {f : Features} {d : Decisions} {s : Engine} {x : Keyrecord} {key : Keypos}

@[simp] theorem flowTapUpdateLastEvent_fields (x : Keyrecord) (s : Engine) :
    (flowTapUpdateLastEvent d x s).tappingKey = s.tappingKey ∧
      (flowTapUpdateLastEvent d x s).waitingBuffer = s.waitingBuffer ∧
      (flowTapUpdateLastEvent d x s).registeredTaps = s.registeredTaps ∧
      (flowTapUpdateLastEvent d x s).effects = s.effects := by
  simp only [flowTapUpdateLastEvent]
  split_ifs <;> exact ⟨rfl, rfl, rfl, rfl⟩

theorem emit_fields (effect : Keyrecord → Effect) (x : Keyrecord) (s : Engine) :
    (emit f d effect x s).tappingKey = s.tappingKey ∧
      (emit f d effect x s).waitingBuffer = s.waitingBuffer ∧
      (emit f d effect x s).registeredTaps = s.registeredTaps ∧
      (x.event.isNoevent = false → (emit f d effect x s).effects = s.effects ++ [effect x]) := by
  obtain ⟨hT, hQ, hR, hE⟩ := flowTapUpdateLastEvent_fields (d := d) x s
  simp only [emit]
  cases hx : x.event.isNoevent with
  | true => simp
  | false =>
    cases f.flowTap with
    | true => exact ⟨hT, hQ, hR, fun _ => congrArg (· ++ [effect x]) hE⟩
    | false => exact ⟨rfl, rfl, rfl, fun _ => rfl⟩

@[simp] theorem processRecord_tappingKey :
    (processRecord f d x s).tappingKey = s.tappingKey :=
  (emit_fields _ x s).1

@[simp] theorem processRecord_waitingBuffer :
    (processRecord f d x s).waitingBuffer = s.waitingBuffer :=
  (emit_fields _ x s).2.1

@[simp] theorem processRecord_registeredTaps :
    (processRecord f d x s).registeredTaps = s.registeredTaps :=
  (emit_fields _ x s).2.2.1

theorem processRecord_effects (hx : x.event.isNoevent = false) :
    (processRecord f d x s).effects = s.effects ++ [.processRecord x] :=
  (emit_fields _ x s).2.2.2 hx

@[simp] theorem registeredTapsAdd_tappingKey :
    (registeredTapsAdd key s).tappingKey = s.tappingKey := by
  simp only [registeredTapsAdd]
  split_ifs <;> rfl

@[simp] theorem registeredTapsAdd_waitingBuffer :
    (registeredTapsAdd key s).waitingBuffer = s.waitingBuffer := by
  simp only [registeredTapsAdd]
  split_ifs <;> rfl

theorem registeredTapsAdd_setBuffer (Q : List Keyrecord) :
    registeredTapsAdd key { s with waitingBuffer := Q } =
      { registeredTapsAdd key s with waitingBuffer := Q } := by
  simp only [registeredTapsAdd]
  split_ifs <;> rfl

theorem isOpen_popPress (hx : x.event.isNoevent = false) (hp : x.event.pressed = true)
    {k : Keypos} (h : isOpen k s.effects = true) :
    isOpen k (waitingBufferPop (processRecord f d x s)).effects = true := by
  have heffects : (waitingBufferPop (processRecord f d x s)).effects =
      s.effects ++ [.processRecord x] := processRecord_effects hx
  rw [heffects]
  exact isOpen_press hp h

theorem isOpen_registeredTapsAdd (key k : Keypos) :
    isOpen k (registeredTapsAdd key s).effects = isOpen k s.effects := by
  simp only [registeredTapsAdd, clearKeyboard]
  split_ifs <;> simp only [isOpen_registerTap, isOpen_clearKeyboard]

theorem mem_registeredTapsDelIndex {i : ℕ} (hi : registeredTapFind key s = some i) {k : Keypos}
    (hk : k ≠ key) : k ∈ (registeredTapsDelIndex i s).registeredTaps ↔ k ∈ s.registeredTaps := by
  obtain ⟨hlt, hget, -⟩ := List.idxOf?_eq_some_iff.mp hi
  obtain ⟨A, B, hAB, hA⟩ : ∃ A B, s.registeredTaps = A ++ key :: B ∧ A.length = i :=
    ⟨s.registeredTaps.take i, s.registeredTaps.drop (i + 1), by
      rw [← hget, List.getElem_cons_drop, List.take_append_drop], by simp [hlt.le]⟩
  subst hA
  rcases List.eq_nil_or_concat B with rfl | ⟨B, last, rfl⟩
  · simp [registeredTapsDelIndex, hAB, hk]
  · have hsplit : s.registeredTaps = (A ++ key :: B) ++ [last] := by simp [hAB]
    have hlast : s.registeredTaps.getLast? = some last := by rw [hsplit, List.getLast?_concat]
    have hset : (s.registeredTaps.set A.length last).dropLast = A ++ last :: B := by
      rw [hsplit, List.set_append_left _ _ (by simp), List.dropLast_concat,
        List.set_append_right _ _ le_rfl, Nat.sub_self, List.set_cons_zero]
    have hdel : (registeredTapsDelIndex A.length s).registeredTaps = A ++ last :: B := by
      simp only [registeredTapsDelIndex, hlast, hset]
    rw [hdel, hsplit]
    simp [hk, or_comm]

end Fields

/-- The ledger when `A` is pending ahead of the buffer and `B` behind it. -/
def Ledger (a : Account) (A : List Keyrecord) (s : Engine) (B : List Keyrecord) : Prop :=
  Owed a s.effects s.registeredTaps (A ++ (s.waitingBuffer ++ B))

section Flushes

variable {a : Account} {f : Features} {d : Decisions} {s : Engine} {A B rest : List Keyrecord}
  {r x T : Keyrecord} {k : Keypos}

theorem Owed.registeredTapsAdd (h : Owed a s.effects s.registeredTaps A) (key : Keypos) :
    Owed a (registeredTapsAdd key s).effects (registeredTapsAdd key s).registeredTaps A := by
  simp only [Tapping.registeredTapsAdd]
  split_ifs
  · refine Owed.of_clear (h.grown.trans ?_) h.queued (by simp [clearKeyboard])
    simp only [clearKeyboard, List.append_assoc]
    exact List.prefix_append _ _
  · exact h.register key

theorem Ledger.register (h : Ledger a A s B) (key : Keypos) :
    Ledger a A (registeredTapsAdd key s) B := by
  rw [Ledger, registeredTapsAdd_waitingBuffer]
  exact Owed.registeredTapsAdd h key

theorem Ledger.popEmit (h : Ledger a A s B) (hs : s.waitingBuffer = r :: rest)
    (hA : keyed r.event.key A = []) (hevent : x.event = r.event)
    (hcount : 0 < r.tap.count → 0 < x.tap.count)
    (hR : a.looked → r.event.pressed = false → r.event.key ∈ s.registeredTaps →
      0 < x.tap.count) : Ledger a A (waitingBufferPop (processRecord f d x s)) B := by
  rw [Ledger, hs] at h
  have hx : x.event.isNoevent = false := hevent ▸ (h.queued r (by simp)).1
  simp only [Ledger, waitingBufferPop, processRecord_effects hx, processRecord_registeredTaps,
    processRecord_waitingBuffer, hs, List.tail_cons]
  exact h.emit hA hevent hcount hR

theorem Ledger.emitHeld (h : Ledger a [T] s B) (hp : T.event.pressed = true)
    (hevent : x.event = T.event) (hcount : 0 < T.tap.count → 0 < x.tap.count) :
    Ledger a [] (processRecord f d x s) B := by
  have hx : x.event.isNoevent = false := hevent ▸ (h.queued T (by simp)).1
  simp only [Ledger, processRecord_effects hx, processRecord_registeredTaps,
    processRecord_waitingBuffer]
  exact Owed.emit (A := []) h rfl hevent hcount fun _ hrelease => absurd hrelease (by simp [hp])

theorem flowTapKeyIfWithinTerm_cases (prevTime : UInt16) :
    flowTapKeyIfWithinTerm f d r prevTime s = (false, r, s) ∨
      flowTapKeyIfWithinTerm f d r prevTime s = (true, r.withCount 1,
        processRecord f d (r.withCount 1) (registeredTapsAdd r.event.key s)) := by
  simp only [flowTapKeyIfWithinTerm]
  split_ifs
  · exact .inl rfl
  · exact .inr rfl
  · exact .inl rfl

theorem flowTapQueued_ledger (n : ℕ) (prevTime : UInt16) (h : Ledger a [] s B)
    (hopen : isOpen k s.effects = true) :
    Ledger a [] (flowTapQueued f d n prevTime s) B ∧
      (flowTapQueued f d n prevTime s).tappingKey = s.tappingKey ∧
      isOpen k (flowTapQueued f d n prevTime s).effects = true := by
  induction n generalizing s prevTime with
  | zero => exact ⟨h, rfl, hopen⟩
  | succ n ih =>
    cases hs : s.waitingBuffer with
    | nil => simpa only [flowTapQueued, hs] using ⟨h, trivial, hopen⟩
    | cons r rest =>
      have hr : r.event.isNoevent = false := (h.queued r (by simp [hs])).1
      simp only [flowTapQueued, hs]
      split_ifs with hp htap hflow
      · rcases flowTapKeyIfWithinTerm_cases (f := f) (d := d) (r := r) (s := s) prevTime with
          hcase | hcase <;> rw [hcase] at hflow ⊢
        · cases hflow
        · have hpop := (h.register r.event.key).popEmit (f := f) (d := d) (r := r)
            (x := r.withCount 1) (by simpa using hs) rfl rfl (fun _ => Nat.one_pos)
            fun _ hrelease => absurd hrelease (by simp [hp])
          have hopen' := isOpen_popPress (f := f) (d := d) (x := r.withCount 1) hr hp
            ((isOpen_registeredTapsAdd r.event.key k).trans hopen)
          obtain ⟨hledger, hkey, hstill⟩ := ih r.event.time hpop hopen'
          exact ⟨hledger, by simpa [waitingBufferPop] using hkey, hstill⟩
      · rcases flowTapKeyIfWithinTerm_cases (f := f) (d := d) (r := r) (s := s) prevTime with
          hcase | hcase <;> rw [hcase] at hflow ⊢
        · exact ⟨h, rfl, hopen⟩
        · exact absurd rfl hflow
      · have hpop := h.popEmit (f := f) (d := d) (x := r) hs rfl rfl id
          fun _ hrelease => absurd hrelease (by simp [hp])
        have hopen' := isOpen_popPress (f := f) (d := d) hr hp hopen
        obtain ⟨hledger, hkey, hstill⟩ := ih r.event.time hpop hopen'
        exact ⟨hledger, by simpa [waitingBufferPop] using hkey, hstill⟩
      · exact ⟨h, rfl, hopen⟩

theorem processQueued_ledger (n : ℕ) (h : Ledger a [] s B)
    (hp : ∀ r ∈ s.waitingBuffer.take n, r.event.pressed = true) :
    Ledger a [] (processQueued f d n s) B := by
  induction n generalizing s with
  | zero => exact h
  | succ n ih =>
    cases hs : s.waitingBuffer with
    | nil => simpa only [processQueued, hs] using h
    | cons r rest =>
      simp only [hs, List.take_succ_cons, List.forall_mem_cons] at hp
      simp only [processQueued, hs]
      refine ih (h.popEmit hs rfl rfl id fun _ hrelease => absurd hrelease (by simp [hp.1])) ?_
      simpa [waitingBufferPop, hs] using hp.2

theorem findChordalHoldTap_go {prev : Keyrecord} {i n : ℕ} {firstTap : Option ℕ}
    {rs : List Keyrecord}
    (h : waitingBufferFindChordalHoldTap.go d s prev i firstTap rs = some n) :
    firstTap = some n ∨ i ≤ n ∧ ∀ r ∈ rs.take (n - i), r.event.pressed = true := by
  induction rs generalizing prev i firstTap with
  | nil => exact .inl h
  | cons cur rest ih =>
    simp only [waitingBufferFindChordalHoldTap.go] at h
    split_ifs at h with hstop hchord
    · exact .inl h
    · rcases ih h with hn | ⟨hle, hrest⟩
      · cases hn
        exact .inr ⟨le_rfl, by simp⟩
      · refine .inr ⟨by omega, ?_⟩
        have hsub : n - i = n - (i + 1) + 1 := by omega
        rw [hsub, List.take_succ_cons, List.forall_mem_cons]
        exact ⟨by_contra fun hp => hstop (.inl hp), hrest⟩
    · rcases ih h with hn | ⟨hle, hrest⟩
      · exact .inl hn
      · refine .inr ⟨by omega, ?_⟩
        have hsub : n - i = n - (i + 1) + 1 := by omega
        rw [hsub, List.take_succ_cons, List.forall_mem_cons]
        exact ⟨by_contra fun hp => hstop (.inl hp), hrest⟩

theorem processQueuedHolds_ledger (h : Ledger a [] s B) :
    Ledger a [] (processQueuedHolds f d s) B := by
  simp only [processQueuedHolds]
  cases hn : waitingBufferFindChordalHoldTap d s with
  | none => exact h
  | some n =>
    rcases findChordalHoldTap_go hn with hnone | ⟨-, hp⟩
    · cases hnone
    · exact processQueued_ledger n h (by simpa using hp)

theorem processAsTapped_waitingBuffer (r : Keyrecord) (s : Engine) :
    (processAsTapped f d r s).waitingBuffer = s.waitingBuffer.tail := by
  unfold processAsTapped
  split_ifs
  · cases s.waitingBuffer <;> simp [waitingBufferPop]
  · simp [waitingBufferPop]

theorem processAsTapped_ledger (h : Ledger a [] s B) (hs : s.waitingBuffer = r :: rest)
    (hR : a.looked → needsNoLookup r s = true) : Ledger a [] (processAsTapped f d r s) B ∧
      (processAsTapped f d r s).tappingKey = s.tappingKey := by
  have hlookup := fun hlook => of_decide_eq_true (hR hlook)
  simp only [processAsTapped]
  split_ifs with htap
  · have hp : r.event.pressed = true := by simp_all
    have hpop := (h.register r.event.key).popEmit (f := f) (d := d) (r := r) (x := r.withCount 1)
      (by simpa using hs) rfl rfl (fun _ => Nat.one_pos)
      fun _ hrelease => absurd hrelease (by simp [hp])
    have hr : (r.withCount 1).event.isNoevent = false := (h.queued r (by simp [hs])).1
    simp only [Ledger, waitingBufferPop, registeredTapsAdd_setBuffer, processRecord_effects hr,
      processRecord_registeredTaps, processRecord_waitingBuffer, processRecord_tappingKey,
      registeredTapsAdd_tappingKey, registeredTapsAdd_waitingBuffer, withCount_event, hs,
      List.set_cons_zero, List.tail_cons] at hpop ⊢
    exact ⟨hpop, trivial⟩
  · exact ⟨h.popEmit hs rfl rfl id hlookup, by simp [waitingBufferPop]⟩

theorem tapsUntil_ledger (key : Keypos) (n : ℕ) (h : Ledger a [] s B)
    (hok : a.looked → tapsUntilNeedsNoLookup f d key s = true) :
    Ledger a [] (waitingBufferChordalHoldTapsUntil f d key n s) B ∧
      (waitingBufferChordalHoldTapsUntil f d key n s).tappingKey = s.tappingKey := by
  induction n generalizing s with
  | zero => exact ⟨h, rfl⟩
  | succ n ih =>
    cases hs : s.waitingBuffer with
    | nil => simpa only [waitingBufferChordalHoldTapsUntil, hs] using ⟨h, trivial⟩
    | cons r rest =>
      simp only [waitingBufferChordalHoldTapsUntil, hs]
      simp only [tapsUntilNeedsNoLookup, hs, upToPress] at hok
      split_ifs at hok ⊢ with hlast
      · exact processAsTapped_ledger h hs fun hlook => by simpa [foundBy] using hok hlook
      · simp only [foundBy, List.all_cons, Bool.and_eq_true] at hok
        obtain ⟨hledger, hkey⟩ := processAsTapped_ledger (f := f) (d := d) h hs
          fun hlook => (hok hlook).1
        have hbuffer : (processAsTapped f d r s).waitingBuffer = rest := by
          rw [processAsTapped_waitingBuffer, hs, List.tail_cons]
        obtain ⟨hrest, hkey'⟩ := ih hledger fun hlook => by
          rw [tapsUntilNeedsNoLookup, hbuffer]
          exact (hok hlook).2
        exact ⟨hrest, hkey'.trans hkey⟩

/-- Regular events may pass a tapping key that is another one. -/
theorem processRegular_ledger (n : ℕ) (h : Ledger a s.tappingKey.held s B)
    (hpass : processRegularPassesOthers f d s = true)
    (hok : a.looked → processRegularNeedsNoLookup f d s = true) :
    Ledger a s.tappingKey.held (waitingBufferProcessRegular f d n s) B ∧
      (waitingBufferProcessRegular f d n s).tappingKey = s.tappingKey := by
  induction n generalizing s with
  | zero => exact ⟨h, rfl⟩
  | succ n ih =>
    cases hs : s.waitingBuffer with
    | nil => simpa only [waitingBufferProcessRegular, hs] using ⟨h, trivial⟩
    | cons r rest =>
      simp only [waitingBufferProcessRegular, hs]
      split_ifs with htap
      · exact ⟨h, rfl⟩
      · have hregular : isTapRecord d s r = false := by simpa using htap
        simp only [processRegularPassesOthers, processRegularNeedsNoLookup, hs, foundBy,
          List.takeWhile_cons, hregular, Bool.not_false, if_true, List.all_cons,
          Bool.and_eq_true, decide_eq_true_eq] at hpass hok
        have hpop := h.popEmit (f := f) (d := d) (x := r) hs hpass.1 rfl id
          fun hlook => of_decide_eq_true (hok hlook).1.1
        have hsame : (waitingBufferPop (processRecord f d r s)).tappingKey = s.tappingKey := by
          simp [waitingBufferPop]
        have htaps : (waitingBufferPop (processRecord f d r s)).registeredTaps =
            s.registeredTaps := by
          simp [waitingBufferPop]
        have hbuffer : (waitingBufferPop (processRecord f d r s)).waitingBuffer = rest := by
          simp [waitingBufferPop, hs]
        rw [← hsame] at hpop
        have hrest := ih hpop (by simpa only [processRegularPassesOthers, hsame, hbuffer]
          using hpass.2) fun hlook => by
            simpa only [processRegularNeedsNoLookup, needsNoLookup, hsame, htaps, hbuffer,
              Bool.and_eq_true, decide_eq_true_eq] using (hok hlook).2
        simpa only [hsame] using hrest

end Flushes

end Qmk.Tapping
