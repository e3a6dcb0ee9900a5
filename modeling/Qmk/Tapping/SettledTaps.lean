import Qmk.Tapping.RegisteredTaps

/-! # Settled taps are released as taps

The ledger of settled taps through the calls of `process_tapping`, the loop over the
waiting buffer and whole runs. A call may emit the record in hand ahead of the
buffer, so the buffer must not hold another record of its key.
-/

namespace Qmk.Tapping

/-- A record that arrives is pending behind the buffer, until it is processed. -/
def hand (queued : Bool) (r : Keyrecord) : List Keyrecord := if queued then [] else [r]

/-- The records of the buffer but the one that `process_tapping` is called with. -/
def others (queued : Bool) (s : Engine) : List Keyrecord :=
  if queued then s.waitingBuffer.tail else s.waitingBuffer

/-- The release of a tapping key that counts as a tap has not been emitted. -/
def Engine.TapOpen (s : Engine) : Prop :=
  s.tappingKey.phase = .tapped → isOpen s.tappingKey.event.key s.effects = true

/-- The ledger after a call of `process_tapping`: a queued record that has been processed will be
popped, and an arriving one that has not will be put at the end of the buffer. -/
structure Kept (a : Account) (queued : Bool) (o : Bool × Keyrecord × Engine) : Prop where
  ledger : Owed a o.2.2.effects o.2.2.registeredTaps (o.2.2.tappingKey.held ++
    if o.1 then others queued o.2.2 else o.2.2.waitingBuffer ++ hand queued o.2.1)
  tapOpen : o.2.2.TapOpen

section Processed

variable {a : Account} {f : Features} {d : Decisions} {s t : Engine}
  {r r' x T : Keyrecord} {queued : Bool} {A : List Keyrecord}

@[simp] theorem others_writeBack : others queued (writeBack queued r s) = others queued s := by
  cases queued with
  | true => cases hs : s.waitingBuffer <;> simp [others, writeBack, hs]
  | false => rfl

@[simp] theorem writeBack_fields : (writeBack queued r s).effects = s.effects ∧
    (writeBack queued r s).registeredTaps = s.registeredTaps ∧
    (writeBack queued r s).tappingKey = s.tappingKey := by
  simp only [writeBack]
  split_ifs <;> exact ⟨rfl, rfl, rfl⟩

theorem others_congr (h : t.waitingBuffer = s.waitingBuffer) :
    others queued t = others queued s := by
  simp only [others, h]

theorem tapOpen_of_ne (h : s.tappingKey.phase ≠ .tapped) : s.TapOpen :=
  fun hphase => absurd hphase h

theorem tapOpen_of_none (h : s.tappingKey = .none) : s.TapOpen :=
  tapOpen_of_ne (by rw [h, none_phase]; decide)

theorem Kept.of_emit (hfront : Owed a s.effects s.registeredTaps (A ++ r :: others queued s))
    (hA : keyed r.event.key A = []) (hevent : x.event = r.event)
    (hcount : 0 < r.tap.count → 0 < x.tap.count)
    (hR : a.looked → r.event.pressed = false → r.event.key ∈ s.registeredTaps → 0 < x.tap.count)
    (heffects : t.effects = s.effects ++ [.processRecord x])
    (hregistered : t.registeredTaps = s.registeredTaps)
    (hothers : others queued t = others queued s) (hheld : t.tappingKey.held = A)
    (hopen : t.TapOpen) : Kept a queued (true, r', t) := by
  refine ⟨?_, hopen⟩
  simp only [heffects, hregistered, hothers, hheld, if_true]
  exact hfront.emit hA hevent hcount hR

theorem startTapping_cases (hr : r.event.isNoevent = false) :
    startTapping f d r s = { s with tappingKey := r } ∨
    ∃ pre c post, s.waitingBuffer = pre ++ c :: post ∧ c.event.pressed = false ∧
      (startTapping f d r s).tappingKey = r.withCount 1 ∧
      (startTapping f d r s).waitingBuffer = pre ++ c.withCount 1 :: post ∧
      (startTapping f d r s).registeredTaps = s.registeredTaps ∧
      (startTapping f d r s).effects = s.effects ++ [.processRecord (r.withCount 1)] := by
  simp only [startTapping, waitingBufferScanTap]
  split_ifs with h
  · exact .inl rfl
  · cases hm : markTap (isTapRelease d { s with tappingKey := r }) s.waitingBuffer with
    | none => exact .inl rfl
    | some buffer =>
      obtain ⟨pre, c, post, hbuffer, -, hc, rfl⟩ := markTap_eq_some hm
      have hrelease : c.event.pressed = false := by simp_all [isTapRelease]
      exact .inr ⟨pre, c, post, hbuffer, hrelease, by simp, by simp, by simp,
        by rw [processRecord_effects (x := r.withCount 1) hr]⟩

theorem startTapping_kept (hr : r.event.isNoevent = false) (hp : r.event.pressed = true)
    (hcount : r.tap.count = 0) (hhead : queued = true → ∃ rest, s.waitingBuffer = r :: rest)
    (hfront : Owed a s.effects s.registeredTaps (r :: others queued s)) :
    Kept a queued (true, r, startTapping f d r s) := by
  rcases startTapping_cases (f := f) (d := d) (s := s) hr with
    halone | ⟨pre, c, post, hs, hc, hT, hQ, hR, hE⟩
  · rw [halone]
    refine ⟨?_, tapOpen_of_ne (by simp [phase_eq_undecided.mpr ⟨hr, hp, hcount⟩])⟩
    simp only [held_press hr hp hcount, if_true]
    exact hfront
  · -- A queued press is not the release that the scan has found.
    obtain ⟨pre', hothers, hothers'⟩ : ∃ pre', others queued s = pre' ++ c :: post ∧
        others queued (startTapping f d r s) = pre' ++ c.withCount 1 :: post := by
      cases queued with
      | false => exact ⟨pre, hs, hQ⟩
      | true =>
        obtain ⟨rest, hrest⟩ := hhead rfl
        cases pre with
        | nil =>
          rw [hs, List.nil_append, List.cons.injEq] at hrest
          exact absurd (hrest.1 ▸ hc) (by simp [hp])
        | cons y pre => exact ⟨pre, by simp [others, hs], by simp [others, hQ]⟩
    have hheld : (r.withCount 1).held = [] := held_counted Nat.one_pos
    refine ⟨?_, fun _ => by simp [hT, hE, hp]⟩
    simp only [hE, hR, hT, hheld, hothers', if_true]
    rw [hothers] at hfront
    have hemit := Owed.emit (A := []) (x := r.withCount 1) hfront rfl rfl (fun _ => Nat.one_pos)
      fun _ hrelease => absurd hrelease (by simp [hp])
    refine Owed.raise hemit rfl (fun hpress => ?_) fun _ => Nat.one_pos
    exact absurd hpress (by simp [hc])

theorem flowTapIfEnabled_cases : flowTapIfEnabled f d r s = (false, r, s) ∨
    flowTapIfEnabled f d r s = (true, r.withCount 1,
      processRecord f d (r.withCount 1) (registeredTapsAdd r.event.key s)) := by
  simp only [flowTapIfEnabled]
  split_ifs
  · exact flowTapKeyIfWithinTerm_cases _
  · exact .inl rfl

theorem flowTap_kept (hr : r.event.isNoevent = false) (hp : r.event.pressed = true)
    (hfront : Owed a s.effects s.registeredTaps (r :: others queued s))
    (hflow : (flowTapIfEnabled f d r s).1 = true)
    (heffects : t.effects = (flowTapIfEnabled f d r s).2.2.effects)
    (hregistered : t.registeredTaps = (flowTapIfEnabled f d r s).2.2.registeredTaps)
    (hothers : others queued t = others queued (flowTapIfEnabled f d r s).2.2)
    (hphase : t.tappingKey.phase = .reset) : Kept a queued (true, r', t) := by
  have hr' : (r.withCount 1).event.isNoevent = false := hr
  rcases flowTapIfEnabled_cases (f := f) (d := d) (r := r) (s := s) with hcase | hcase
  · rw [hcase] at hflow
    cases hflow
  · rw [hcase] at heffects hregistered hothers
    have hsame : others queued (registeredTapsAdd r.event.key s) = others queued s :=
      others_congr registeredTapsAdd_waitingBuffer
    have hadd := hfront.registeredTapsAdd r.event.key
    rw [← hsame] at hadd
    refine Kept.of_emit (A := []) (x := r.withCount 1) hadd rfl rfl (fun _ => Nat.one_pos)
      (fun _ hrelease => absurd hrelease (by simp [hp])) ?_ ?_ ?_ (held_of_ne (by simp [hphase]))
      (tapOpen_of_ne (by simp [hphase]))
    · rw [heffects, processRecord_effects hr']
    · rw [hregistered, processRecord_registeredTaps]
    · rw [hothers]
      exact others_congr processRecord_waitingBuffer

variable (hr : r.event.isNoevent = false) (hcount : r.Uncounted)
  (hlookup : a.looked → r.event.pressed = false → r.event.key ∈ s.registeredTaps → 0 < r.tap.count)
  (hhead : queued = true → ∃ rest, s.waitingBuffer = r :: rest)

include hr hlookup in
/-- A record is emitted that does not close the tapping key as a tap. -/
theorem forward_kept (hfront : Owed a s.effects s.registeredTaps (r :: others queued s))
    (hheld : s.tappingKey.held = []) (hopen : s.TapOpen)
    (hclose : s.tappingKey.phase = .tapped → isTappingRecord s r = true →
      r.event.pressed = true) : Kept a queued (true, r, processRecord f d r s) := by
  refine Kept.of_emit (A := []) (x := r) hfront rfl rfl id hlookup (processRecord_effects hr)
    processRecord_registeredTaps (others_congr processRecord_waitingBuffer)
    (by rw [processRecord_tappingKey, hheld]) ?_
  intro hphase
  rw [processRecord_tappingKey] at hphase ⊢
  rw [processRecord_effects hr, isOpen_processRecord]
  split_ifs with hkey
  · exact hclose hphase (by simp [isTappingRecord, hkey])
  · exact hopen hphase

include hr in
theorem emitCounted_kept (tap : Tap) (hpos : 0 < tap.count)
    (hfront : Owed a s.effects s.registeredTaps (r :: others queued s)) (hT : T.held = [])
    (hself : T.phase = .tapped → T.event = r.event) :
    Kept a queued (true, { r with tap := tap },
      { processRecord f d { r with tap := tap } (writeBack queued { r with tap := tap } s) with
        tappingKey := T }) := by
  have hr' : ({ r with tap := tap } : Keyrecord).event.isNoevent = false := hr
  refine Kept.of_emit (A := []) (x := { r with tap := tap }) hfront rfl rfl (fun _ => hpos)
    (fun _ _ _ => hpos) ?_ ?_ ?_ hT fun hphase => ?_
  · simp [processRecord_effects hr']
  · simp
  · exact (others_congr processRecord_waitingBuffer).trans others_writeBack
  · have hp := (phase_eq_tapped.mp hphase).2.1
    have hevent := hself hphase
    simp_all [processRecord_effects hr']

include hr hcount hlookup hhead in
theorem tappingReset_kept (hphase : s.tappingKey.phase = .reset)
    (hfront : Owed a s.effects s.registeredTaps (r :: others queued s)) :
    Kept a queued (tappingReset f d queued r s) := by
  have hheld : s.tappingKey.held = [] := held_of_ne (by simp [hphase])
  simp only [tappingReset, hr, Bool.false_eq_true, if_false]
  split_ifs with hpress hflow
  · refine flowTap_kept hr hpress.1 hfront hflow writeBack_fields.1 writeBack_fields.2.1
      others_writeBack ?_
    rcases flowTapIfEnabled_cases (f := f) (d := d) (r := r) (s := s) with hcase | hcase <;>
      simpa [hcase] using hphase
  · exact startTapping_kept hr hpress.1 (hcount hpress.1) hhead hfront
  · exact forward_kept hr hlookup hfront hheld (tapOpen_of_ne (by simp [hphase]))
      (by simp [hphase])

include hr hcount hlookup hhead in
theorem tappingTapped_kept (within : Bool) (hphase : s.tappingKey.phase = .tapped)
    (hopen : s.TapOpen)
    (hfront : Owed a s.effects s.registeredTaps (r :: others queued s)) :
    Kept a queued (tappingTapped f d queued r within s) := by
  obtain ⟨hT, -, hpos⟩ := phase_eq_tapped.mp hphase
  have hheld : s.tappingKey.held = [] := held_of_ne (by simp [hphase])
  simp only [tappingTapped]
  split_ifs with hclose hwithin hpress hmany
  · exact emitCounted_kept hr _ hpos hfront (held_counted hpos) fun _ => rfl
  · exact emitCounted_kept hr _ hpos hfront held_none fun hnone => absurd hnone (by decide)
  · obtain ⟨-, hQ, hR, hE⟩ := emit_fields (f := f) (d := d) .unregister
      (unregisterRecord s r.event.time) s
    refine startTapping_kept hr hpress.2 (hcount hpress.2) (fun hq => hQ ▸ hhead hq) ?_
    rw [hR, hE hT, others_congr hQ]
    exact hfront.unregister rfl (hopen hphase)
  · exact startTapping_kept hr hpress.2 (hcount hpress.2) hhead hfront
  · refine forward_kept hr hlookup hfront hheld hopen fun _ hself => ?_
    by_contra hp
    exact hclose ⟨hself, hp⟩

include hr hcount hlookup hhead in
theorem tappingReleased_kept (hphase : s.tappingKey.phase = .released)
    (hfront : withinTappingTerm d s r.event = true →
      Owed a s.effects s.registeredTaps (r :: others queued s))
    (hstay : Ledger a [] s (hand queued r)) :
    Kept a queued (tappingReleased f d queued r s) := by
  have hheld : s.tappingKey.held = [] := held_of_ne (by simp [hphase])
  simp only [tappingReleased, hr, Bool.false_eq_true, if_false]
  split_ifs with hterm hp hkey hquick hmax htap hflow
  · exact emitCounted_kept hr _ (Nat.succ_pos _) (hfront hterm) (held_counted (Nat.succ_pos _))
      fun _ => rfl
  · exact emitCounted_kept hr _ hquick.2.2 (hfront hterm) (held_counted hquick.2.2) fun _ => rfl
  · refine ⟨?_, tapOpen_of_ne (by simp [phase_eq_undecided.mpr ⟨hr, hp, hcount hp⟩])⟩
    simp only [held_press hr hp (hcount hp), if_true]
    exact hfront hterm
  · exact flowTap_kept hr hp (hfront hterm) hflow writeBack_fields.1 writeBack_fields.2.1
      (others_congr rfl |>.trans others_writeBack) none_phase
  · exact startTapping_kept hr hp (hcount hp) hhead (hfront hterm)
  · have hphase' : (s.tappingKey.withInterrupted true).phase = .released := hphase
    exact forward_kept (s := { s with tappingKey := s.tappingKey.withInterrupted true }) hr hlookup
      (hfront hterm) (held_of_ne (by simp [hphase'])) (tapOpen_of_ne (by simp [hphase']))
      (by simp [hphase'])
  · exact forward_kept hr hlookup (hfront hterm) hheld (tapOpen_of_ne (by simp [hphase]))
      (by simp [hphase])
  · refine ⟨?_, tapOpen_of_none rfl⟩
    simp only [endTapping, held_none, Bool.false_eq_true, if_false]
    exact hstay

end Processed

section Undecided

variable {a : Account} {f : Features} {d : Decisions} {s t : Engine}
  {r x T : Keyrecord} {queued : Bool} {A B : List Keyrecord}

theorem Kept.of_ledger (h : Ledger a A t (hand queued r)) (hheld : t.tappingKey.held = A)
    (hopen : t.TapOpen) : Kept a queued (false, r, t) := by
  subst hheld
  exact ⟨h, hopen⟩

theorem Ledger.setKey (h : Ledger a [T] s B) (hevent : x.event = T.event)
    (hcount : x.tap.count = 0) (hT : T.tap.count = 0) : Ledger a [x] s B :=
  Owed.raise (A := []) h hevent (fun _ => hcount) fun hpos => absurd hT hpos.ne'

theorem Ledger.setHand (h : Ledger a [] s (hand queued r))
    (hhead : queued = true → ∃ rest, s.waitingBuffer = r :: rest) (hevent : x.event = r.event)
    (hx : x.Uncounted) (hcount : 0 < r.tap.count → 0 < x.tap.count) :
    Ledger a [] (writeBack queued x s) (hand queued x) := by
  cases queued with
  | true =>
    obtain ⟨rest, hs⟩ := hhead rfl
    rw [Ledger, hs] at h
    simp only [Ledger, writeBack, hs, if_true, List.set_cons_zero]
    exact Owed.raise (A := []) h hevent hx hcount
  | false => exact Owed.raise (A := s.waitingBuffer) (B := []) h hevent hx hcount

theorem settleAsTapped_ledger (hphase : s.tappingKey.phase = .undecided)
    (h : Ledger a [s.tappingKey] s B) : Ledger a [] (settleAsTapped f d s) B := by
  have htapped : Ledger a [s.tappingKey]
      { s with tappingKey := s.tappingKey.withCount 1 } B := h
  exact Ledger.emitHeld (x := s.tappingKey.withCount 1) (htapped.register _)
    (phase_eq_undecided.mp hphase).2.1 rfl fun _ => Nat.one_pos

theorem nextTappingKey_ledger (h : Ledger a [] s B) (hnext : nextIsNoRelease d s = true) :
    Ledger a (nextTappingKey d s).tappingKey.held (nextTappingKey d s) B ∧
      (nextTappingKey d s).tappingKey.phase ≠ .tapped := by
  cases hs : s.waitingBuffer with
  | nil =>
    simp only [nextTappingKey, hs]
    exact ⟨h, by simp [endTapping]⟩
  | cons r rest =>
    simp only [nextTappingKey, hs]
    split_ifs with htap
    · have hp : r.event.pressed = true := by simpa [nextIsNoRelease, hs, htap] using hnext
      rw [Ledger, hs] at h
      obtain ⟨hr, hcount⟩ := h.queued r (by simp)
      simp only [Ledger, waitingBufferPop, hs, List.tail_cons, held_press hr hp (hcount hp)]
      exact ⟨h, by simp [phase_eq_undecided.mpr ⟨hr, hp, hcount hp⟩]⟩
    · exact ⟨h, by simp [endTapping]⟩

theorem tappingInterrupted_ledger (hphase : s.tappingKey.phase = .undecided)
    (h : Ledger a [s.tappingKey] s B) (horder : interruptInOrder f d r s = true)
    (hok : a.looked → interruptNeedsNoLookup f d r s = true) :
    Ledger a (tappingInterrupted f d r s).tappingKey.held (tappingInterrupted f d r s) B ∧
      (tappingInterrupted f d r s).tappingKey.phase ≠ .tapped := by
  obtain ⟨-, hp, hcount⟩ := phase_eq_undecided.mp hphase
  have hnoted : Ledger a [s.tappingKey.withInterrupted true]
      { s with tappingKey := s.tappingKey.withInterrupted true } B := h.setKey rfl hcount hcount
  simp only [tappingInterrupted, interruptInOrder, interruptNeedsNoLookup] at horder hok ⊢
  split_ifs at horder hok ⊢ with hchord htap hhold hchordal
  · have hphase' : ((s.tappingKey.withInterrupted true).withInterrupted false).phase =
        .undecided := hphase
    simp only [held_of_undecided hphase']
    exact ⟨hnoted.setKey rfl hcount hcount, by simp [hphase]⟩
  · exact ⟨settleAsTapped_ledger (s := { s with
      tappingKey := (s.tappingKey.withInterrupted true).withInterrupted false }) hphase
      (hnoted.setKey rfl hcount hcount), by simp [settleAsTapped, endTapping]⟩
  · obtain ⟨hnext, hpass⟩ := (Bool.and_eq_true _ _).mp horder
    have hemitted := hnoted.emitHeld (f := f) (d := d) (x := s.tappingKey.withInterrupted true) hp
      rfl id
    obtain ⟨hledger, hnot⟩ := nextTappingKey_ledger hemitted hnext
    obtain ⟨hflushed, hkey⟩ := processRegular_ledger _ hledger hpass fun hlook =>
      ((Bool.and_eq_true _ _).mp (hok hlook)).2
    rw [hkey]
    exact ⟨hflushed, hnot⟩
  · exact ⟨hnoted.emitHeld hp rfl id, by simp [endTapping]⟩
  · have hphase' : (s.tappingKey.withInterrupted true).phase = .undecided := hphase
    simp only [held_of_undecided hphase']
    exact ⟨hnoted, by simp [hphase]⟩

/-- The tapping key is emitted as a first tap, and Flow Tap flushes the presses that follow. -/
theorem firstTap_kept (hp : r.event.pressed = false)
    (hhead : queued = true → ∃ rest, s.waitingBuffer = r :: rest)
    (hphase : s.tappingKey.phase = .undecided)
    (hstay : Ledger a [s.tappingKey] s (hand queued r))
    (ht : t = writeBack queued { r with tap := (s.tappingKey.withCount 1).tap }
      (processRecord f d (s.tappingKey.withCount 1)
        { s with tappingKey := s.tappingKey.withCount 1 })) :
    Kept a queued (false, { r with tap := (s.tappingKey.withCount 1).tap },
      if f.flowTap then flowTapQueued f d t.waitingBuffer.length s.tappingKey.event.time t
      else t) := by
  obtain ⟨hT, hpress, -⟩ := phase_eq_undecided.mp hphase
  have htapped : Ledger a [s.tappingKey]
      { s with tappingKey := s.tappingKey.withCount 1 } (hand queued r) := hstay
  have hemitted := htapped.emitHeld (f := f) (d := d) (x := s.tappingKey.withCount 1) hpress rfl
    fun _ => Nat.one_pos
  have hset : Ledger a [] t (hand queued { r with tap := (s.tappingKey.withCount 1).tap }) := by
    rw [ht]
    refine hemitted.setHand (fun hq => by simpa using hhead hq) rfl (fun hpress => ?_)
      fun _ => Nat.one_pos
    exact absurd hpress (by simp [hp])
  have hkey : t.tappingKey = s.tappingKey.withCount 1 := by
    rw [ht, writeBack_fields.2.2, processRecord_tappingKey]
  have hheld : (s.tappingKey.withCount 1).held = [] := held_counted Nat.one_pos
  have hopen : isOpen (s.tappingKey.withCount 1).event.key t.effects = true := by
    have hT' : (s.tappingKey.withCount 1).event.isNoevent = false := hT
    rw [ht, writeBack_fields.1, processRecord_effects hT', isOpen_processRecord, if_pos rfl]
    exact hpress
  split_ifs
  · obtain ⟨hflushed, hsame, hstill⟩ := flowTapQueued_ledger (f := f) (d := d)
      t.waitingBuffer.length s.tappingKey.event.time hset hopen
    refine Kept.of_ledger hflushed (by rw [hsame, hkey, hheld]) fun _ => ?_
    rw [hsame, hkey]
    exact hstill
  · exact Kept.of_ledger hset (by rw [hkey, hheld]) fun _ => by rwa [hkey]

theorem tappingUndecided_kept (hr : r.event.isNoevent = false)
    (hlookup : a.looked → r.event.pressed = false → r.event.key ∈ s.registeredTaps →
      0 < r.tap.count)
    (hhead : queued = true → ∃ rest, s.waitingBuffer = r :: rest)
    (hphase : s.tappingKey.phase = .undecided)
    (hfront : r.event.pressed = false → waitingBufferTyped s r.event = false →
      Owed a s.effects s.registeredTaps (s.tappingKey :: r :: others queued s))
    (hstay : Ledger a [s.tappingKey] s (hand queued r))
    (horder : r.event.pressed = true → interruptInOrder f d r s = true)
    (hok : a.looked → flushNeedsNoLookup f d r s = true) :
    Kept a queued (tappingUndecided f d queued r s) := by
  obtain ⟨-, hp, -⟩ := phase_eq_undecided.mp hphase
  have hheld := held_of_undecided hphase
  have hopen : s.TapOpen := tapOpen_of_ne (by simp [hphase])
  by_cases hfirst : isTappingRecord s r ∧ ¬ r.event.pressed
  · simp only [tappingUndecided, if_pos hfirst]
    exact firstTap_kept (by simpa using hfirst.2) hhead hphase hstay rfl
  simp only [tappingUndecided, flushNeedsNoLookup, if_neg hfirst] at hok ⊢
  split_ifs at hok ⊢ with hchord hpermissive hchordal hrelease hretained hpress
  · obtain ⟨hflushed, hkey⟩ := tapsUntil_ledger _ _ (settleAsTapped_ledger hphase hstay) hok
    exact Kept.of_ledger hflushed (by rw [hkey]; rfl) (tapOpen_of_none (by rw [hkey]; rfl))
  · obtain ⟨hflushed, -⟩ := tapsUntil_ledger _ _
      (processQueuedHolds_ledger (hstay.emitHeld hp rfl id)) hok
    exact Kept.of_ledger (A := []) hflushed rfl (tapOpen_of_none rfl)
  · exact Kept.of_ledger (A := []) (hstay.emitHeld hp rfl id) rfl (tapOpen_of_none rfl)
  · exact Kept.of_ledger hstay hheld hopen
  · -- A release that passes the tapping key is one of another key.
    have hkey : s.tappingKey.event.key ≠ r.event.key := fun hkey =>
      hfirst ⟨by simpa [isTappingRecord] using hkey, hrelease.1⟩
    have hfront' := hfront (by simpa using hrelease.1) (by simpa using hrelease.2)
    exact Kept.of_emit (A := [s.tappingKey]) (x := r) hfront' (keyed_other hkey []) rfl id hlookup
      (processRecord_effects hr) processRecord_registeredTaps
      (others_congr processRecord_waitingBuffer) (by rw [processRecord_tappingKey, hheld])
      (tapOpen_of_ne (by simp [hphase]))
  · obtain ⟨hledger, hnot⟩ := tappingInterrupted_ledger hphase hstay (horder hpress) hok
    exact Kept.of_ledger hledger rfl (tapOpen_of_ne hnot)
  · exact Kept.of_ledger hstay hheld hopen

end Undecided

section Calls

variable {a : Account} {f : Features} {d : Decisions} {s : Engine}
  {r : Keyrecord} {queued : Bool} {A : List Keyrecord}

theorem held_press_mem {T y : Keyrecord} (hy : y ∈ T.held) : y.event.pressed = true := by
  simp only [Keyrecord.held] at hy
  split_ifs at hy with hphase
  · rw [List.mem_singleton.mp hy]
    exact (phase_eq_undecided.mp hphase).2.1
  · cases hy

@[simp] theorem registeredTapsDelIndex_fields (i : ℕ) (s : Engine) :
    (registeredTapsDelIndex i s).tappingKey = s.tappingKey ∧
      (registeredTapsDelIndex i s).waitingBuffer = s.waitingBuffer ∧
      (registeredTapsDelIndex i s).effects = s.effects := by
  simp only [registeredTapsDelIndex]
  split <;> exact ⟨rfl, rfl, rfl⟩

theorem mem_of_registeredTapFind {key : Keypos} {i : ℕ} (hi : registeredTapFind key s = some i) :
    key ∈ s.registeredTaps := by
  obtain ⟨hlt, hget, -⟩ := List.idxOf?_eq_some_iff.mp hi
  rw [← hget]
  exact List.getElem_mem hlt

theorem writeBack_head {x : Keyrecord} {rest : List Keyrecord} (hs : s.waitingBuffer = r :: rest) :
    (writeBack true x s).waitingBuffer = x :: rest := by
  simp [writeBack, hs]

theorem writeBack_events {x : Keyrecord}
    (hhead : queued = true → ∃ rest, s.waitingBuffer = r :: rest) (hevent : x.event = r.event) :
    (writeBack queued x s).waitingBuffer.map (·.event) = s.waitingBuffer.map (·.event) := by
  cases queued with
  | false => rfl
  | true =>
    obtain ⟨rest, hs⟩ := hhead rfl
    simp [writeBack_head hs, hs, hevent]

/-- The record in hand is looked up, and counts as a tap afterwards. -/
theorem Ledger.take {t : Engine} (h : Ledger a A s (hand queued r))
    (hp : r.event.pressed = false) (hhead : queued = true → ∃ rest, s.waitingBuffer = r :: rest)
    (hA : ∀ y ∈ A, y.event.pressed = true)
    (horder : a.looked → queued = false →
      ∀ x ∈ keyed r.event.key s.waitingBuffer, x.event.pressed = false → 0 < x.tap.count)
    (hE : t.effects = s.effects)
    (hQ : t.waitingBuffer = (writeBack queued (r.withCount 1) s).waitingBuffer)
    (hR : ∀ k, k ≠ r.event.key → (k ∈ t.registeredTaps ↔ k ∈ s.registeredTaps)) :
    Ledger a A t (hand queued (r.withCount 1)) := by
  have hA' (y : Keyrecord) (hy : y ∈ A) (hrelease : y.event.pressed = false) : 0 < y.tap.count :=
    absurd (hA y hy) (by simp [hrelease])
  cases queued with
  | true =>
    obtain ⟨rest, hs⟩ := hhead rfl
    rw [Ledger, hs] at h
    rw [Ledger, hE, hQ, writeBack_head hs]
    exact Owed.take (x := r.withCount 1) h rfl hp Nat.one_pos (fun _ y hy _ => hA' y hy) hR
  | false =>
    have hQ' : t.waitingBuffer = s.waitingBuffer := hQ
    rw [Ledger, ← List.append_assoc] at h
    rw [Ledger, hE, hQ', ← List.append_assoc]
    refine Owed.take (x := r.withCount 1) h rfl hp Nat.one_pos (fun hlook y hy hkey => ?_) hR
    rcases List.mem_append.mp hy with hy | hy
    · exact hA' y hy
    · exact horder hlook rfl y (List.mem_filter.mpr ⟨hy, by simp [hkey]⟩)

/-- What the look-up has made of the record in hand `r` and the state `s`. -/
structure LookedUp (a : Account) (queued : Bool) (r : Keyrecord) (s : Engine) (r' : Keyrecord)
    (s' : Engine) : Prop where
  event : r'.event = r.event
  uncounted : r'.Uncounted
  tappingKey : s'.tappingKey = s.tappingKey
  effects : s'.effects = s.effects
  buffer : s'.waitingBuffer.map (·.event) = s.waitingBuffer.map (·.event)
  head : queued = true → ∃ rest, s'.waitingBuffer = r' :: rest
  press : r.event.pressed = true → r' = r ∧ s' = s
  counted : a.looked → r'.event.pressed = false → r'.event.key ∈ s'.registeredTaps →
    0 < r'.tap.count
  ledger : Ledger a s.tappingKey.held s' (hand queued r')

theorem takeRegisteredTap_lookedUp (hf : a.looked → f.chordalHold = true ∨ f.flowTap = true)
    (hcount : r.Uncounted) (hhead : queued = true → ∃ rest, s.waitingBuffer = r :: rest)
    (horder : a.looked → queued = false → r.event.pressed = false →
      r.event.key ∈ s.registeredTaps →
      ∀ x ∈ keyed r.event.key s.waitingBuffer, x.event.pressed = false → 0 < x.tap.count)
    (h : Ledger a s.tappingKey.held s (hand queued r)) :
    LookedUp a queued r s (takeRegisteredTap f queued r s).1
      (takeRegisteredTap f queued r s).2 := by
  simp only [takeRegisteredTap]
  split_ifs with hlook
  · obtain ⟨-, hp⟩ := hlook
    rw [Bool.not_eq_true] at hp
    cases hi : registeredTapFind r.event.key s with
    | none =>
      have hnot : r.event.key ∉ s.registeredTaps := List.idxOf?_eq_none_iff.mp hi
      exact ⟨rfl, hcount, rfl, rfl, rfl, hhead, fun _ => ⟨rfl, rfl⟩,
        fun _ _ hmem => absurd hmem hnot, h⟩
    | some i =>
      have hmem := mem_of_registeredTapFind hi
      obtain ⟨hT, hQ, hE⟩ := registeredTapsDelIndex_fields i (writeBack queued (r.withCount 1) s)
      have hE' : (writeBack queued (r.withCount 1) s).effects = s.effects := writeBack_fields.1
      have hR' : (writeBack queued (r.withCount 1) s).registeredTaps = s.registeredTaps :=
        writeBack_fields.2.1
      have hT' : (writeBack queued (r.withCount 1) s).tappingKey = s.tappingKey :=
        writeBack_fields.2.2
      have hnew (k : Keypos) (hk : k ≠ r.event.key) :
          k ∈ (registeredTapsDelIndex i (writeBack queued (r.withCount 1) s)).registeredTaps ↔
            k ∈ s.registeredTaps := by
        rw [← hR']
        exact mem_registeredTapsDelIndex (by rwa [registeredTapFind, hR']) hk
      refine ⟨rfl, fun hpress => absurd hpress (by simp [hp]), hT.trans hT', hE.trans hE', ?_, ?_,
        fun hpress => absurd hpress (by simp [hp]), fun _ _ _ => Nat.one_pos, ?_⟩
      · rw [hQ]
        exact writeBack_events hhead rfl
      · rintro rfl
        obtain ⟨rest, hs⟩ := hhead rfl
        exact ⟨rest, by rw [hQ, writeBack_head hs]⟩
      · exact h.take hp hhead (fun y hy => held_press_mem hy)
          (fun hlook hq => horder hlook hq hp hmem) (hE.trans hE') hQ hnew
  · refine ⟨rfl, hcount, rfl, rfl, rfl, hhead, fun _ => ⟨rfl, rfl⟩, fun hlooked hp => ?_, h⟩
    exact absurd ⟨hf hlooked, by simp_all⟩ hlook

section LookedUp

variable {r' : Keyrecord} {s' : Engine} (h : LookedUp a queued r s r' s')

include h in
theorem LookedUp.withinTappingTerm_eq (e : Keyevent) :
    withinTappingTerm d s' e = withinTappingTerm d s e := by
  simp only [withinTappingTerm, h.tappingKey, h.effects]

include h in
theorem LookedUp.typed_eq (e : Keyevent) : waitingBufferTyped s' e = waitingBufferTyped s e := by
  have hany (t : Engine) : waitingBufferTyped t e = (t.waitingBuffer.map (·.event)).any fun x =>
      decide (x.key = e.key ∧ e.pressed ≠ x.pressed) := by
    simp [waitingBufferTyped, List.any_map, Function.comp_def]
  rw [hany, hany, h.buffer]

include h in
/-- The record in hand may be taken for one at the front of the buffer when no other one of its key
is in the buffer. -/
theorem LookedUp.front (hnone : queued = false → keyed r.event.key s.waitingBuffer = []) :
    Owed a s'.effects s'.registeredTaps (s.tappingKey.held ++ r' :: others queued s') := by
  have hledger := h.ledger
  cases queued with
  | true =>
    obtain ⟨rest, hs⟩ := h.head rfl
    simpa [Ledger, others, hand, hs] using hledger
  | false =>
    have hkeys : s'.waitingBuffer.map (·.event.key) = s.waitingBuffer.map (·.event.key) := by
      simpa [Function.comp_def] using congrArg (List.map (·.key)) h.buffer
    have hnone' : keyed r'.event.key s'.waitingBuffer = [] := by
      rw [keyed_eq_nil_iff, hkeys, h.event]
      exact keyed_eq_nil_iff.mp (hnone rfl)
    refine hledger.congr (fun k => ?_) fun _ _ => Iff.rfl
    rw [keyed_append, keyed_append]
    exact congrArg (keyed k s.tappingKey.held ++ ·) (keyed_swap hnone')

end LookedUp

theorem processTapping_kept (hf : a.looked → f.chordalHold = true ∨ f.flowTap = true)
    (hr : r.event.isNoevent = false) (hcount : r.Uncounted)
    (hhead : queued = true → ∃ rest, s.waitingBuffer = r :: rest)
    (hlookup : a.looked → queued = false → lookupInOrder r s = true)
    (hbehind : queued = false → keptBehind d r s = true)
    (horder : callInOrder f d r s = true)
    (hok : a.looked → callNeedsNoLookup f d queued r s = true) (hopen : s.TapOpen)
    (h : Ledger a s.tappingKey.held s (hand queued r)) :
    Kept a queued (processTapping f d queued r s) := by
  have hlook := takeRegisteredTap_lookedUp hf hcount hhead
    (fun hlooked hq => of_decide_eq_true (hlookup hlooked hq)) h
  -- What passes the records of the buffer has none of its key there.
  have hnone (hpass : accepting d s r.event ∨
      r.event.pressed = false ∧ waitingBufferTyped s r.event = false) (hq : queued = false) :
      keyed r.event.key s.waitingBuffer = [] := by
    by_contra hne
    obtain ⟨hkept, htyped⟩ := of_decide_eq_true (hbehind hq) hne
    rcases hpass with hpass | ⟨hp, hnot⟩
    · exact hkept hpass
    · exact absurd (hnot.symm.trans (htyped hp)) (by decide)
  simp only [processTapping, callNeedsNoLookup] at hok ⊢
  generalize takeRegisteredTap f queued r s = o at hlook hok ⊢
  obtain ⟨r', s'⟩ := o
  have hr' : r'.event.isNoevent = false := hlook.event ▸ hr
  have hT := hlook.tappingKey
  have hledger : Ledger a s'.tappingKey.held s' (hand queued r') := hT ▸ hlook.ledger
  have hopen' : s'.TapOpen := by
    rw [Engine.TapOpen, hT, hlook.effects]
    exact hopen
  have hfront (hpass : accepting d s r.event) (hheld : s'.tappingKey.held = []) :
      Owed a s'.effects s'.registeredTaps (r' :: others queued s') := by
    have := hlook.front (hnone (.inl hpass))
    rwa [← hT, hheld] at this
  simp only [hr', Bool.false_eq_true, if_false]
  split_ifs with hreset hpressed hterm hzero hzero
  · have hphase := phase_eq_reset.mpr hreset
    refine tappingReset_kept hr' hlook.uncounted hlook.counted hlook.head hphase
      (hfront ⟨by simp [← hT, hphase], by simp [← hT, hphase]⟩ (held_of_ne (by simp [hphase])))
  · have hphase := phase_eq_undecided.mpr ⟨by simpa using hreset, hpressed, hzero⟩
    refine tappingUndecided_kept hr' hlook.counted hlook.head hphase (fun hp hnot => ?_) ?_
      (fun hp => ?_) fun hlooked => ?_
    · rw [hlook.event] at hp hnot
      rw [hlook.typed_eq] at hnot
      simpa [← hT, held_of_undecided hphase] using hlook.front (hnone (.inr ⟨hp, hnot⟩))
    · rwa [held_of_undecided hphase] at hledger
    · obtain ⟨rfl, rfl⟩ := hlook.press (hlook.event ▸ hp)
      simpa [callInOrder, hphase, hterm, hp] using horder
    · simpa [hphase, hterm] using hok hlooked
  · have hphase := phase_eq_tapped.mpr ⟨by simpa using hreset, hpressed, Nat.pos_of_ne_zero hzero⟩
    exact tappingTapped_kept hr' hlook.uncounted hlook.counted hlook.head true hphase hopen'
      (hfront ⟨by simp [← hT, hphase], by simp [← hT, hphase]⟩ (held_of_ne (by simp [hphase])))
  · have hphase := phase_eq_undecided.mpr ⟨by simpa using hreset, hpressed, hzero⟩
    rw [held_of_undecided hphase] at hledger
    exact Kept.of_ledger (A := []) (hledger.emitHeld hpressed rfl id) held_none
      (tapOpen_of_none rfl)
  · have hphase := phase_eq_tapped.mpr ⟨by simpa using hreset, hpressed, Nat.pos_of_ne_zero hzero⟩
    exact tappingTapped_kept hr' hlook.uncounted hlook.counted hlook.head false hphase hopen'
      (hfront ⟨by simp [← hT, hphase], by simp [← hT, hphase]⟩ (held_of_ne (by simp [hphase])))
  · have hphase := phase_eq_released.mpr ⟨by simpa using hreset, by simpa using hpressed⟩
    have hheld : s'.tappingKey.held = [] := held_of_ne (by simp [hphase])
    refine tappingReleased_kept hr' hlook.uncounted hlook.counted hlook.head hphase
      (fun hterm => hfront ⟨by simp [← hT, hphase], fun _ => ?_⟩ hheld) (hheld ▸ hledger)
    rw [← hlook.withinTappingTerm_eq, ← hlook.event]
    exact hterm

end Calls

section Runs

variable {a : Account} {f : Features} {d : Decisions} {s : Engine} {r : Keyrecord}

/-- The ledger between two calls of `process_tapping`. -/
structure Balanced (a : Account) (s : Engine) : Prop where
  ledger : Owed a s.effects s.registeredTaps s.pending
  tapOpen : s.TapOpen

theorem ledger_iff_pending :
    Ledger a s.tappingKey.held s [] ↔ Owed a s.effects s.registeredTaps s.pending := by
  rw [Ledger, List.append_nil, Engine.pending]

theorem Balanced.takeRegisteredTap (h : Balanced a s) (htick : r.event.isNoevent = true)
    (hmiss : a.looked → tickMissesTaps r s = true) :
    Balanced a (takeRegisteredTap f false r s).2 ∧
      (takeRegisteredTap f false r s).1.event = r.event := by
  simp only [Tapping.takeRegisteredTap]
  split_ifs with hlookup
  · cases hi : registeredTapFind r.event.key s with
    | none => exact ⟨h, rfl⟩
    | some i =>
      obtain ⟨hT, hQ, hE⟩ := registeredTapsDelIndex_fields i s
      refine ⟨⟨?_, ?_⟩, rfl⟩
      · simp only [writeBack, Bool.false_eq_true, if_false, Engine.pending, hT, hQ, hE]
        refine h.ledger.congr (fun _ => rfl) fun hlooked => ?_
        exact absurd (mem_of_registeredTapFind hi)
          (of_decide_eq_true (hmiss hlooked) htick (by simpa using hlookup.2))
      · rw [Engine.TapOpen, writeBack, if_neg (by decide), hT, hE]
        exact h.tapOpen
  · exact ⟨h, rfl⟩

theorem Balanced.tick (h : Balanced a s) (htick : r.event.isNoevent = true)
    (hmiss : a.looked → tickMissesTaps r s = true) : Balanced a (processOrEnqueue f d r s) := by
  obtain ⟨hbalanced, hevent⟩ := h.takeRegisteredTap (f := f) htick hmiss
  obtain ⟨hsame, hcall⟩ : (processTapping f d false r s).2.1.event = r.event ∧
      Balanced a (processTapping f d false r s).2.2 := by
    simp only [processTapping]
    generalize Tapping.takeRegisteredTap f false r s = o at hbalanced hevent ⊢
    obtain ⟨r', s'⟩ := o
    have htick' : r'.event.isNoevent = true := hevent ▸ htick
    have hledger := ledger_iff_pending.mpr hbalanced.ledger
    simp only [tappingReset, tappingReleased, htick', if_true]
    split_ifs with hreset hpressed hterm hzero hterm
    · exact ⟨hevent, hbalanced⟩
    · exact ⟨hevent, hbalanced⟩
    · rw [held_of_undecided (phase_eq_undecided.mpr ⟨by simpa using hreset, hpressed, hzero⟩)]
        at hledger
      exact ⟨hevent, ledger_iff_pending.mp (hledger.emitHeld hpressed rfl id), tapOpen_of_none rfl⟩
    · exact ⟨hevent, hbalanced⟩
    · exact ⟨hevent, hbalanced⟩
    · rw [held_of_ne (by simp [phase_eq_undecided, hpressed])] at hledger
      exact ⟨hevent, ledger_iff_pending.mp hledger, tapOpen_of_none rfl⟩
  have henqueue (t : Engine) : enqueueOrClear (processTapping f d false r s).2.1 t = t := by
    simp only [enqueueOrClear, waitingBufferEnq, hsame, htick, if_true]
  simp only [processOrEnqueue, henqueue, ite_self]
  exact hcall

theorem Kept.enqueue {o : Bool × Keyrecord × Engine} (h : Kept a false o) :
    Balanced a (if o.1 then o.2.2 else enqueueOrClear o.2.1 o.2.2) := by
  obtain ⟨hledger, hopen⟩ := h
  simp only [hand, others, Bool.false_eq_true, if_false] at hledger
  split_ifs at hledger ⊢ with hprocessed
  · exact ⟨hledger, hopen⟩
  · rcases enqueueOrClear_cases o.2.1 o.2.2 with happend | ⟨hE, hQ, hT⟩
    · have hevent : o.2.1.event.isNoevent = false := (hledger.queued _ (by simp)).1
      rw [happend, Engine.append, hevent]
      exact ⟨hledger, hopen⟩
    · refine ⟨?_, tapOpen_of_ne (by simp [hT])⟩
      rw [Engine.pending, hQ, hT, hE]
      exact Owed.of_clear (P := []) (hledger.grown.trans (List.prefix_append _ _))
        (by simp [QueuedRecords]) (by simp)

theorem Kept.feed {o : Bool × Keyrecord × Engine} (h : Kept a true o) :
    Balanced a (if o.1 then waitingBufferPop o.2.2 else o.2.2) := by
  obtain ⟨hledger, hopen⟩ := h
  simp only [hand, others, if_true, List.append_nil] at hledger
  split_ifs at hledger ⊢ <;> exact ⟨hledger, hopen⟩

theorem Account.arrive_tick {e : Keyevent} (he : e.isNoevent = true) : a.arrive e = a := by
  have hnone (k : Keypos) : arrivals k [e] = [] := by simp [arrivals, he]
  simp only [Account.arrive, hnone, List.append_nil]

theorem Balanced.arrive (hf : a.looked → f.chordalHold = true ∨ f.flowTap = true) {e : Keyevent}
    (h : Balanced a s) (hguard : (keysInTurn f).arriving d { event := e } s = true)
    (hlooked : a.looked → (tapsLookedUp f).arriving d { event := e } s = true) :
    Balanced (a.arrive e) (processOrEnqueue f d { event := e } s) := by
  simp only [keysInTurn, tapsLookedUp] at hguard hlooked
  cases he : e.isNoevent with
  | true =>
    rw [Account.arrive_tick he]
    exact h.tick he fun hlook => by simpa [he] using hlooked hlook
  | false =>
    simp only [he, Bool.false_or, Bool.false_eq_true, if_false, Bool.and_eq_true] at hguard hlooked
    have harrived := Owed.arrive h.ledger he
    rw [Engine.pending, List.append_assoc] at harrived
    exact Kept.enqueue (processTapping_kept hf he (fun _ => rfl) (by simp)
      (fun hlook _ => (hlooked hlook).1.1) (fun _ => hguard.1) hguard.2
      (fun hlook => (hlooked hlook).2) h.tapOpen harrived)

theorem Balanced.feed (hf : a.looked → f.chordalHold = true ∨ f.flowTap = true) (n : ℕ)
    (h : Balanced a s) (hguard : feedsOnly f d ((keysInTurn f).queued d) n s = true)
    (hlooked : a.looked → feedsOnly f d ((tapsLookedUp f).queued d) n s = true) :
    Balanced a (processWaitingBuffer f d n s) := by
  induction n generalizing s with
  | zero => exact h
  | succ n ih =>
    cases hs : s.waitingBuffer with
    | nil =>
      rw [processWaitingBuffer, hs]
      exact h
    | cons r rest =>
      simp only [feedsOnly, hs, keysInTurn, tapsLookedUp, Bool.and_eq_true, Bool.or_eq_true,
        Bool.not_eq_true'] at hguard hlooked
      have hpush : Engine.push { s with waitingBuffer := rest } r = s :=
        (Engine.exists_push hs).symm
      rw [hpush] at hguard hlooked
      obtain ⟨hr, hcount⟩ := h.ledger.queued r (by simp [Engine.pending, hs])
      have hfed := Kept.feed (processTapping_kept hf hr hcount (fun _ => ⟨rest, hs⟩) (by simp)
        (by simp) hguard.1 (fun hlook => (hlooked hlook).1) h.tapOpen
        (ledger_iff_pending.mpr h.ledger))
      simp only [processWaitingBuffer, hs]
      split_ifs at hfed ⊢ with hprocessed
      · exact ih hfed (hguard.2.resolve_left (by simp [hprocessed]))
          fun hlook => (hlooked hlook).2.resolve_left (by simp [hprocessed])
      · exact hfed

theorem Balanced.step (hf : a.looked → f.chordalHold = true ∨ f.flowTap = true) (i : Input)
    (h : Balanced a s) (hguard : ((keysInTurn f).runs f).ok s i)
    (hlooked : a.looked → ((tapsLookedUp f).runs f).ok s i) :
    Balanced (a.arrive i.event) (step f s i) := by
  have harrived := h.arrive hf hguard.1 fun hlook => (hlooked hlook).1
  have hfed := Balanced.feed (a := a.arrive i.event) hf _ harrived hguard.2
    fun hlook => (hlooked hlook).2
  simp only [Tapping.step, actionTappingProcess]
  split_ifs <;> exact ⟨hfed.ledger, hfed.tapOpen⟩

theorem Balanced.since (h : Balanced a s) : Balanced { a with before := s.effects } s := by
  refine ⟨⟨List.prefix_refl _, h.ledger.queued, fun hclean k => ?_⟩, h.tapOpen⟩
  obtain ⟨horder, hmadeUp, haccepts, howed⟩ := h.ledger.keys hclean k
  exact ⟨horder, hmadeUp, haccepts, howed⟩

theorem Balanced.effects_prefix (h : Balanced a s) (hlooked : ¬ a.looked) {i : Input}
    (hguard : ((keysInTurn f).runs f).ok s i) : s.effects <+: (Tapping.step f s i).effects := by
  have hstep := Balanced.step (a := { a with before := s.effects })
    (fun hlook => absurd hlook hlooked) i h.since hguard fun hlook => absurd hlook hlooked
  exact hstep.ledger.grown

/-- What arrives in a run. -/
def accountOf (looked : Prop) (inputs : List Input) : Account where
  looked := looked
  before := []
  arrived k := arrivals k (inputs.map (·.event))

theorem balanced_run {looked : Prop} (hf : looked → f.chordalHold = true ∨ f.flowTap = true)
    (inputs : List Input) (hguard : ((keysInTurn f).runs f).Accepts {} inputs)
    (hlooked : looked → ((tapsLookedUp f).runs f).Accepts {} inputs) :
    Balanced (accountOf looked inputs) (run f {} inputs) := by
  induction inputs using List.reverseRecOn with
  | nil =>
    exact ⟨⟨List.nil_prefix, nofun, fun _ k => ⟨rfl, trivial, fun _ => trivial, nofun⟩⟩,
      tapOpen_of_none rfl⟩
  | append_singleton inputs i ih =>
    simp only [Monitor.accepts_append, Monitor.accepts_cons, Guard.after_runs] at hguard hlooked
    have hstep := (ih hguard.1 fun hlook => (hlooked hlook).1).step hf i hguard.2.1
      fun hlook => (hlooked hlook).2.1
    simpa only [accountOf, Account.arrive, run, List.foldl_append, List.foldl_cons,
      List.foldl_nil, List.map_append, List.map_cons, List.map_nil, arrivals_append] using hstep

theorem feedsOnly_inTurn (n : ℕ) (h : feedsOnly f d ((tapsLookedUp f).queued d) n s = true) :
    feedsOnly f d ((keysInTurn f).queued d) n s = true := by
  induction n generalizing s with
  | zero => rfl
  | succ n ih =>
    simp only [feedsOnly] at h ⊢
    split at h
    · rfl
    · rw [Bool.and_eq_true, Bool.or_eq_true] at h ⊢
      exact ⟨callInOrder_of_needsNoLookup h.1, h.2.imp_right ih⟩

theorem keysInTurn_of_tapsLookedUp (inputs : List Input)
    (h : ((tapsLookedUp f).runs f).Accepts s inputs) :
    ((keysInTurn f).runs f).Accepts s inputs := by
  induction inputs generalizing s with
  | nil => exact trivial
  | cons i inputs ih =>
    obtain ⟨⟨harrive, hfeed⟩, hrest⟩ := h
    refine ⟨⟨?_, feedsOnly_inTurn _ hfeed⟩, ih hrest⟩
    simp only [tapsLookedUp, keysInTurn] at harrive ⊢
    split_ifs at harrive with htick
    · rw [htick, Bool.true_or]
    · rw [Bool.and_eq_true, Bool.and_eq_true] at harrive
      rw [Bool.or_eq_true, Bool.and_eq_true]
      exact .inr ⟨harrive.1.2, callInOrder_of_needsNoLookup harrive.2⟩

/-- A key that is settled as tapped is released as tapped in every run in which no look-up is
missed, made for a tick or made for a later release. -/
theorem settled_taps_released (hf : f.chordalHold = true ∨ f.flowTap = true) (inputs : List Input)
    (hguard : ((tapsLookedUp f).runs f).Accepts {} inputs)
    (hclean : .clearKeyboard ∉ (run f {} inputs).effects) : SettledTapsReleased f inputs := by
  have hkeys := (balanced_run (fun _ : True => hf) inputs
    (keysInTurn_of_tapsLookedUp inputs hguard) fun _ => hguard).ledger.keys hclean
  constructor
  · intro k
    rw [keyed_append]
    exact (hkeys k).order
  · exact fun k => (hkeys k).accepts trivial
  · intro k howed hpending
    apply ((hkeys k).owed trivial howed).resolve_right
    rintro ⟨r, hr, -⟩
    obtain ⟨hmem, hkey⟩ := List.mem_filter.mp (List.mem_of_find?_eq_some hr)
    have hrelease : r.event.pressed = false := by simpa using List.find?_some hr
    exact absurd (hpending r hmem (by simpa using hkey)) (by simp [hrelease])

def chordal : Features := { chordalHold := true }

/-- The keys of rows 0 and 1 are mod-taps, all others are letters, and the keys of columns 0 and 1
are on one hand. A chord of the two hands is not considered a tap. -/
def Decisions.hands : Decisions := { Decisions.small with
  layerSwitchGetAction := fun _ key => if key.row < 2 then 0x2204 else 0x0004
  getRecordKeycode := fun _ record => if record.event.key.row < 2 then 0x2204 else 0x0004
  getChordalHold := fun _ tapHold other =>
    decide (tapHold.event.key.col < 2) != decide (other.event.key.col < 2) }

/-- A tap-hold key is settled as tapped by a letter of the same hand, before its release. -/
def settledByLetter : List Input :=
  [.press .hands ⟨1, 1⟩ 0, .press .hands ⟨1, 2⟩ 10, .tick .hands 20, .release .hands ⟨1, 1⟩ 30,
    .release .hands ⟨1, 2⟩ 40]

theorem settled_taps_released_letter : ((tapsLookedUp chordal).runs chordal).Accepts {}
      settledByLetter ∧ SettledTapsReleased chordal settledByLetter :=
  ⟨by decide +kernel, settled_taps_released (.inl rfl) settledByLetter (by decide +kernel)
    (by decide +kernel)⟩

/-- The key at row 0 and column 0 is settled as tapped, and a tick follows before its release. -/
def tickedTap : List Input :=
  [.press .hands ⟨0, 0⟩ 0, .press .hands ⟨0, 2⟩ 10, .tick .hands 20, .release .hands ⟨0, 0⟩ 30]

/-- The press and the release of a tap-hold key wait in the buffer when another key settles it as
tapped. -/
def flushedTap : List Input :=
  [.press .hands ⟨0, 1⟩ 0, .press .hands ⟨2, 1⟩ 10, .release .hands ⟨2, 1⟩ 20,
    .press .hands ⟨1, 1⟩ 30, .release .hands ⟨1, 1⟩ 40]

/-- A tick takes the key at row 0 and column 0 out of `registered_taps`, and its release is emitted
as if it had been held; and a queued release that is flushed is not looked up, so its key stays
registered after it. -/
theorem settled_tap_released_as_hold :
    ((run chordal {} (tickedTap.take 2)).registeredTaps = [⟨0, 0⟩] ∧
      (run chordal {} (tickedTap.take 3)).registeredTaps = [] ∧
      .clearKeyboard ∉ (run chordal {} tickedTap).effects ∧
      ¬ SettledTapsReleased chordal tickedTap) ∧
    (⟨2, 1⟩ ∈ (run chordal {} flushedTap).registeredTaps ∧
      .clearKeyboard ∉ (run chordal {} flushedTap).effects ∧
      ¬ SettledTapsReleased chordal flushedTap) := by
  refine ⟨⟨by decide +kernel, by decide +kernel, by decide +kernel, fun h => ?_⟩,
    by decide +kernel, by decide +kernel, fun h => ?_⟩
  · exact absurd (h.released ⟨0, 0⟩) (by decide +kernel)
  · exact absurd (h.released ⟨2, 1⟩) (by decide +kernel)

end Runs

end Qmk.Tapping
