import Qmk.Monitor
import Qmk.Tapping.Outcome

/-! # Runs of the default configuration

A rule for invariants of whole runs: it is enough to keep the invariant when a
record arrives and when the record at the front of the waiting buffer is fed
again. Runs may be restricted to those whose calls of `process_tapping` satisfy
a condition on the record and on the state before the call.
-/

namespace Qmk.Tapping

/-- The state with one more record at the front of the waiting buffer. -/
def Engine.push (s : Engine) (r : Keyrecord) : Engine :=
  { s with waitingBuffer := r :: s.waitingBuffer }

section Push

@[simp] theorem push_tappingKey (s : Engine) (r : Keyrecord) :
    (s.push r).tappingKey = s.tappingKey := rfl

@[simp] theorem push_effects (s : Engine) (r : Keyrecord) : (s.push r).effects = s.effects := rfl

@[simp] theorem push_waitingBuffer (s : Engine) (r : Keyrecord) :
    (s.push r).waitingBuffer = r :: s.waitingBuffer := rfl

variable {d : Decisions} {r x : Keyrecord} {s : Engine}

theorem processRecord_push : processRecord {} d r (s.push x) = (processRecord {} d r s).push x := by
  simp only [processRecord, emit, Bool.false_eq_true, if_false]
  split_ifs <;> rfl

theorem waitingBufferTyped_push :
    waitingBufferTyped (s.push r) r.event = waitingBufferTyped s r.event := by
  simp [waitingBufferTyped, Engine.push]

theorem waitingBufferScanTap_push (hp : x.event.pressed = true) :
    waitingBufferScanTap {} d (s.push x) = (waitingBufferScanTap {} d s).push x := by
  have hx : isTapRelease d s x = false := by simp [isTapRelease, hp]
  have hsame : isTapRelease d (s.push x) = isTapRelease d s := rfl
  simp only [waitingBufferScanTap, push_tappingKey, push_waitingBuffer, hsame, markTap, hx,
    Bool.false_eq_true, if_false]
  split_ifs
  · rfl
  · cases markTap (isTapRelease d s) s.waitingBuffer with
    | none => rfl
    | some buffer => exact processRecord_push (s := { s with
        tappingKey := s.tappingKey.withCount 1, waitingBuffer := buffer })

theorem startTapping_push (hp : r.event.pressed = true) :
    startTapping {} d r (s.push r) = (startTapping {} d r s).push r :=
  waitingBufferScanTap_push (s := { s with tappingKey := r }) hp

/-- An answer about a record, put back at the front of the waiting buffer. -/
def putBack (o : Bool × Keyrecord × Engine) : Bool × Keyrecord × Engine :=
  (o.1, o.2.1, o.2.2.push o.2.1)

theorem tappingReset_push :
    tappingReset {} d true r (s.push r) = putBack (tappingReset {} d false r s) := by
  have htap : isTapRecord d (s.push r) r = isTapRecord d s r := rfl
  simp only [tappingReset, flowTapIfEnabled_eq, Bool.false_eq_true, if_false, processRecord_push,
    htap]
  split_ifs with htick hp
  · rfl
  · rw [startTapping_push hp.1]
    rfl
  · rfl

theorem tappingInterrupted_push (hT : s.tappingKey.event.isNoevent = false) :
    tappingInterrupted {} d r (s.push r) = (tappingInterrupted {} d r s).push r := by
  have hinterrupted : (s.tappingKey.withInterrupted true).event.isNoevent = false := hT
  simp only [tappingInterrupted, chordConsideredTap_eq, Bool.false_eq_true, if_false,
    push_tappingKey, push_effects, processRecord_eq hinterrupted]
  split_ifs <;> rfl

theorem tappingUndecided_push (hr : r.event.isNoevent = false)
    (hT : s.tappingKey.event.isNoevent = false) :
    tappingUndecided {} d true r (s.push r) = putBack (tappingUndecided {} d false r s) := by
  have htapped : (s.tappingKey.withCount 1).event.isNoevent = false := hT
  have hself : isTappingRecord (s.push r) r = isTappingRecord s r := rfl
  simp only [tappingUndecided, chordConsideredTap_eq, Bool.false_eq_true, if_false, and_false,
    push_tappingKey, push_effects, hself, waitingBufferTyped_push, tappingInterrupted_push hT,
    processRecord_eq hr, processRecord_eq hT, processRecord_eq htapped]
  split_ifs <;> rfl

theorem tappingTapped_push (within : Bool) (hr : r.event.isNoevent = false)
    (hT : s.tappingKey.event.isNoevent = false) :
    tappingTapped {} d true r within (s.push r) =
      putBack (tappingTapped {} d false r within s) := by
  have hclosing : ({ r with tap := s.tappingKey.tap } : Keyrecord).event.isNoevent = false := hr
  have hreleased (t : UInt16) : (unregisterRecord s t).event.isNoevent = false := hT
  have hself : isTappingRecord (s.push r) r = isTappingRecord s r := rfl
  have htap : isTapRecord d (s.push r) r = isTapRecord d s r := rfl
  have hunreg (t : UInt16) : unregisterRecord (s.push r) t = unregisterRecord s t := rfl
  simp only [tappingTapped, push_tappingKey, push_effects, hself, htap, hunreg,
    processRecord_eq hr, processRecord_eq hclosing, emit_eq .unregister (hreleased _)]
  split_ifs with hclose hwithin hpress
  · rfl
  · rfl
  · exact congrArg (true, r, ·) (startTapping_push (s := { s with
      effects := s.effects ++ [.unregister (unregisterRecord s r.event.time)] }) hpress.2)
  · rw [startTapping_push hpress.2]
    rfl
  · rfl

theorem tappingReleased_push :
    tappingReleased {} d true r (s.push r) = putBack (tappingReleased {} d false r s) := by
  have hself : isTappingRecord (s.push r) r = isTappingRecord s r := rfl
  have htap : isTapRecord d (s.push r) r = isTapRecord d s r := rfl
  have hterm : withinTappingTerm d (s.push r) r.event = withinTappingTerm d s r.event := rfl
  have hquick : withinQuickTapTerm d (s.push r) r.event = withinQuickTapTerm d s r.event := rfl
  have hrepeat (hr : ¬ r.event.isNoevent = true) (t : Tap) (s : Engine) :
      processRecord {} d ⟨r.event, t⟩ s = s.emits ⟨r.event, t⟩ :=
    processRecord_eq (r := ⟨r.event, t⟩) (by simpa using hr)
  simp only [tappingReleased, flowTapIfEnabled_eq, hself, htap, hterm, hquick,
    Bool.false_eq_true, if_false, push_tappingKey, Bool.not_eq_true]
  split_ifs with hwithin htick hp hkey hagain hmax hpress
  · rfl
  · simp only [hrepeat htick, hmax, if_true]
    rfl
  · simp only [hrepeat htick, hmax, if_false]
    rfl
  · rfl
  · rw [startTapping_push hp]
    rfl
  · exact congrArg (true, r, ·) (processRecord_push
      (s := { s with tappingKey := s.tappingKey.withInterrupted true }))
  · rw [processRecord_push]
    rfl
  · rfl

/-- A record at the front of the buffer is treated like one that arrives at the buffer behind it. -/
theorem processTapping_push (d : Decisions) (r : Keyrecord) (s : Engine) :
    processTapping {} d true r (s.push r) = putBack (processTapping {} d false r s) := by
  have hterm : withinTappingTerm d (s.push r) r.event = withinTappingTerm d s r.event := rfl
  simp only [processTapping, takeRegisteredTap_eq, push_tappingKey, hterm]
  split_ifs with hreset hpressed hwithin htick hcount hcount htick
  · exact tappingReset_push
  · rfl
  · exact tappingUndecided_push (by simpa using htick) (by simpa using hreset)
  · exact tappingTapped_push true (by simpa using htick) (by simpa using hreset)
  · have hT : s.tappingKey.event.isNoevent = false := by simpa using hreset
    rw [processRecord_eq hT, processRecord_eq hT]
    rfl
  · rfl
  · exact tappingTapped_push false (by simpa using htick) (by simpa using hreset)
  · exact tappingReleased_push

end Push

section Guarded

/-- Every record that the loop over the waiting buffer feeds satisfies the condition; the state that
the condition is given holds only the records behind. -/
def feedsOnly (f : Features) (d : Decisions) (c : Keyrecord → Engine → Bool) : ℕ → Engine → Bool
  | 0, _ => true
  | n + 1, s =>
    match s.waitingBuffer with
    | [] => true
    | record :: rest =>
      let r := processTapping f d true record s
      c record { s with waitingBuffer := rest } &&
        (!r.1 || feedsOnly f d c n (waitingBufferPop r.2.2))

/-- A condition on the calls of `process_tapping`, for arriving and for queued records. -/
structure Guard where
  arriving : Decisions → Keyrecord → Engine → Bool := fun _ _ _ => true
  queued : Decisions → Keyrecord → Engine → Bool := fun _ _ _ => true

/-- The runs in which every call of `process_tapping` satisfies the condition. -/
def Guard.runs (g : Guard) (f : Features) : Monitor Input Engine where
  next := step f
  ok s i :=
    g.arriving i.decisions { event := i.event } s = true ∧
      let s := processOrEnqueue f i.decisions { event := i.event } s
      feedsOnly f i.decisions (g.queued i.decisions) s.waitingBuffer.length s = true

instance (g : Guard) (f : Features) (s : Engine) (i : Input) : Decidable ((g.runs f).ok s i) :=
  inferInstanceAs (Decidable (_ ∧ _))

theorem Guard.after_runs (g : Guard) (f : Features) (s : Engine) (inputs : List Input) :
    (g.runs f).after s inputs = run f s inputs := rfl

end Guarded

section Invariants

variable {d : Decisions} {r : Keyrecord} {s : Engine}

/-- A record that arrives and is not processed goes to the end of the buffer, unless it is a
tick. -/
def Engine.append (s : Engine) (r : Keyrecord) : Engine :=
  if r.event.isNoevent then s else { s with waitingBuffer := s.waitingBuffer ++ [r] }

@[simp] theorem append_effects (s : Engine) (r : Keyrecord) :
    (s.append r).effects = s.effects := by
  simp only [Engine.append]
  split_ifs <;> rfl

@[simp] theorem append_tappingKey (s : Engine) (r : Keyrecord) :
    (s.append r).tappingKey = s.tappingKey := by
  simp only [Engine.append]
  split_ifs <;> rfl

/-- The state after an answer about an arriving record. -/
def afterArrival (o : Bool × Keyrecord × Engine) : Engine :=
  if o.1 then o.2.2 else o.2.2.append o.2.1

/-- The state after an answer about the record at the front of the buffer. -/
def afterFeed (o : Bool × Keyrecord × Engine) : Engine :=
  if o.1 then o.2.2 else o.2.2.push o.2.1

section After

variable {o : Bool × Keyrecord × Engine}

@[simp] theorem afterArrival_effects : (afterArrival o).effects = o.2.2.effects := by
  simp only [afterArrival]
  split_ifs <;> simp

@[simp] theorem afterArrival_tappingKey : (afterArrival o).tappingKey = o.2.2.tappingKey := by
  simp only [afterArrival]
  split_ifs <;> simp

@[simp] theorem afterFeed_effects : (afterFeed o).effects = o.2.2.effects := by
  simp only [afterFeed]
  split_ifs <;> rfl

@[simp] theorem afterFeed_tappingKey : (afterFeed o).tappingKey = o.2.2.tappingKey := by
  simp only [afterFeed]
  split_ifs <;> rfl

theorem afterFeed_waitingBuffer : (afterFeed o).waitingBuffer =
    (if o.1 = true then [] else [o.2.1]) ++ o.2.2.waitingBuffer := by
  simp only [afterFeed]
  split_ifs <;> rfl

theorem Outcome.event_eq (h : Outcome d r s o) : o.2.1.event = r.event := by
  cases h with
  | repeatTap _ _ _ _ _ _ hevent => exact hevent
  | idle | start | interruptTap | restart | forward | forwardInterrupt | earlyRelease | closeTap
  | firstTap | hold | wait | expire => rfl

theorem Outcome.afterArrival_waitingBuffer (h : Outcome d r s o) :
    (afterArrival o).waitingBuffer = o.2.2.waitingBuffer ++
      if o.1 = false ∧ r.event.isNoevent = false then [o.2.1] else [] := by
  simp only [afterArrival, Engine.append, h.event_eq]
  cases o.1 <;> cases r.event.isNoevent <;> simp

end After

theorem Started.effects_subset {t : Engine} (h : Started d r s t) : s.effects ⊆ t.effects := by
  cases h with
  | alone => exact List.Subset.refl _
  | tapped => exact List.subset_append_left _ _

theorem Outcome.effects_subset {o : Bool × Keyrecord × Engine} (h : Outcome d r s o) :
    s.effects ⊆ o.2.2.effects := by
  cases h with
  | start t _ _ _ _ _ _ _ ht => exact ht.effects_subset
  | interruptTap t _ _ _ _ _ ht =>
    exact List.Subset.trans (List.subset_append_left _ _) ht.effects_subset
  | idle | restart | wait | expire => exact List.Subset.refl _
  | repeatTap | forward | forwardInterrupt | earlyRelease | closeTap | firstTap | hold =>
    exact List.subset_append_left _ _

theorem processWaitingBuffer_push (n : ℕ) : processWaitingBuffer {} d (n + 1) (s.push r) =
    if (processTapping {} d false r s).1 then
      processWaitingBuffer {} d n (afterFeed (processTapping {} d false r s))
    else afterFeed (processTapping {} d false r s) := by
  simp only [processWaitingBuffer, push_waitingBuffer, processTapping_push, putBack, afterFeed]
  split_ifs <;> rfl

theorem feedsOnly_push {c : Keyrecord → Engine → Bool} {n : ℕ}
    (h : feedsOnly {} d c (n + 1) (s.push r) = true) : c r s = true ∧
      ((processTapping {} d false r s).1 = true →
        feedsOnly {} d c n (afterFeed (processTapping {} d false r s)) = true) := by
  simp only [feedsOnly, push_waitingBuffer, processTapping_push, putBack, Bool.and_eq_true,
    Bool.or_eq_true, Bool.not_eq_true'] at h
  constructor
  · exact h.1
  intro ho
  have hrest := h.2.resolve_left (by simp [ho])
  rw [afterFeed, if_pos ho]
  exact hrest

theorem Engine.exists_push {rest : List Keyrecord} (h : s.waitingBuffer = r :: rest) :
    s = Engine.push { s with waitingBuffer := rest } r := by
  simp only [Engine.push, ← h]

theorem processWaitingBuffer_invariant {I : Engine → Prop} {c : Keyrecord → Engine → Bool}
    (hfeed : ∀ r s o, I (s.push r) → c r s = true → Outcome d r s o → I (afterFeed o))
    {n : ℕ} (hs : I s) (hc : feedsOnly {} d c n s = true) : I (processWaitingBuffer {} d n s) := by
  induction n generalizing s with
  | zero => exact hs
  | succ n ih =>
    cases hb : s.waitingBuffer with
    | nil =>
      rw [processWaitingBuffer, hb]
      exact hs
    | cons r rest =>
      rw [Engine.exists_push hb] at hs hc ⊢
      obtain ⟨hr, hrest⟩ := feedsOnly_push hc
      have ho := hfeed r _ _ hs hr (processTapping_outcome d r _)
      rw [processWaitingBuffer_push]
      split_ifs with haccepted
      · exact ih ho (hrest haccepted)
      · exact ho

theorem feedsOnly_true (f : Features) (n : ℕ) (s : Engine) :
    feedsOnly f d (fun _ _ => true) n s = true := by
  induction n generalizing s with
  | zero => rfl
  | succ n ih =>
    simp only [feedsOnly]
    split
    · rfl
    · simp only [Bool.true_and, ih, Bool.or_true]

theorem processWaitingBuffer_effects_subset (n : ℕ) (s : Engine) :
    s.effects ⊆ (processWaitingBuffer {} d n s).effects := by
  refine processWaitingBuffer_invariant (I := fun t => s.effects ⊆ t.effects)
    (fun r t o hs _ ho => ?_) (List.Subset.refl _) (feedsOnly_true {} n s)
  have hpush : t.effects ⊆ o.2.2.effects := ho.effects_subset
  simp only [afterFeed]
  split_ifs <;> exact List.Subset.trans hs hpush

theorem enqueueOrClear_cases (r : Keyrecord) (s : Engine) : enqueueOrClear r s = s.append r ∨
    (enqueueOrClear r s).effects = s.effects ++ [.clearKeyboard] ∧
      (enqueueOrClear r s).waitingBuffer = [] ∧ (enqueueOrClear r s).tappingKey = .none := by
  simp only [enqueueOrClear, waitingBufferEnq, Engine.append]
  by_cases htick : r.event.isNoevent = true
  · exact .inl (by simp only [htick, if_true])
  · simp only [htick, Bool.false_eq_true, if_false]
    by_cases hfull : s.waitingBuffer.length + 1 = waitingBufferSize
    · simp only [hfull, if_true, Bool.false_eq_true, if_false]
      exact .inr ⟨rfl, rfl, rfl⟩
    · exact .inl (by simp only [hfull, if_true, if_false])

/-- Unless the buffer overflows, an arriving record that is not processed is put at its end. -/
theorem processOrEnqueue_eq (hclean : .clearKeyboard ∉ (processOrEnqueue {} d r s).effects) :
    processOrEnqueue {} d r s = afterArrival (processTapping {} d false r s) := by
  simp only [processOrEnqueue, afterArrival] at hclean ⊢
  split_ifs at hclean ⊢
  · rfl
  · rcases enqueueOrClear_cases (processTapping {} d false r s).2.1
      (processTapping {} d false r s).2.2 with h | ⟨h, -⟩
    · exact h
    · exact absurd (by simp [h]) hclean

theorem actionTappingProcess_eq : actionTappingProcess {} d r s =
    processWaitingBuffer {} d (processOrEnqueue {} d r s).waitingBuffer.length
      (processOrEnqueue {} d r s) := by
  simp [actionTappingProcess]

theorem processOrEnqueue_effects_subset : s.effects ⊆ (processOrEnqueue {} d r s).effects := by
  have ho := (processTapping_outcome d r s).effects_subset
  simp only [processOrEnqueue]
  split_ifs
  · exact ho
  · rcases enqueueOrClear_cases (processTapping {} d false r s).2.1
      (processTapping {} d false r s).2.2 with h | ⟨h, -⟩
    · rw [h, append_effects]
      exact ho
    · rw [h]
      exact List.Subset.trans ho (List.subset_append_left _ _)

theorem step_effects_subset (i : Input) : s.effects ⊆ (step {} s i).effects := by
  rw [step, actionTappingProcess_eq]
  exact List.Subset.trans processOrEnqueue_effects_subset
    (processWaitingBuffer_effects_subset _ _)

/-- What holds at first, and is kept by every arrival and every feeding that satisfies the guard,
holds after every guarded run in which the buffer does not overflow. -/
theorem Guard.invariant (g : Guard) {I : List Keyevent → Engine → Prop} (h₀ : I [] {})
    (harrive : ∀ d e es s o, I es s → g.arriving d { event := e } s = true →
      Outcome d { event := e } s o → I (es ++ [e]) (afterArrival o))
    (hfeed : ∀ d r es s o, I es (s.push r) → g.queued d r s = true → Outcome d r s o →
      I es (afterFeed o))
    (inputs : List Input) (hruns : (g.runs {}).Accepts {} inputs)
    (hclean : .clearKeyboard ∉ (run {} {} inputs).effects) :
    I (inputs.map (·.event)) (run {} {} inputs) := by
  induction inputs using List.reverseRecOn with
  | nil => exact h₀
  | append_singleton inputs i ih =>
    rw [Monitor.accepts_append, Monitor.accepts_cons, g.after_runs] at hruns
    obtain ⟨hbefore, ⟨harriving, hqueued⟩, -⟩ := hruns
    have hrun : run {} {} (inputs ++ [i]) = step {} (run {} {} inputs) i := by
      simp only [run, List.foldl_append, List.foldl_cons, List.foldl_nil]
    rw [hrun] at hclean ⊢
    have hI := ih hbefore fun h => hclean (step_effects_subset i h)
    rw [step, actionTappingProcess_eq] at hclean ⊢
    have heq := processOrEnqueue_eq fun h => hclean (processWaitingBuffer_effects_subset _ _ h)
    rw [List.map_append, List.map_cons, List.map_nil]
    refine processWaitingBuffer_invariant (fun r s o => hfeed _ r _ s o) ?_ hqueued
    rw [heq]
    exact harrive _ _ _ _ _ hI harriving (processTapping_outcome _ _ _)

end Invariants

end Qmk.Tapping
