import Qmk.Tapping.Conservation

/-! # Order of presses

The loop over the waiting buffer stops after the record at its front has ended
the tapping key, and the record stays there. A press that arrives next finds no
tapping key and overtakes it. As long as no press arrives in such a state while
another one waits, presses are emitted in the order of their arrival.
-/

namespace Qmk.Tapping

/-- The records of all calls of `process_record`. -/
def emitted (effects : List Effect) : List Keyrecord :=
  effects.filterMap fun
    | .processRecord r => some r
    | .unregister r => some r
    | _ => none

def presses (rs : List Keyrecord) : List Keyevent := (rs.map (·.event)).filter (·.pressed)

def arrivedPresses (inputs : List Input) : List Keyevent :=
  (inputs.map (·.event)).filter fun e => e.isEvent && e.pressed

/-- The presses emitted in a run stand in the order of their arrival. -/
def PressesInOrder (inputs : List Input) : Prop :=
  (presses (emitted (run {} {} inputs).effects)).Sublist (arrivedPresses inputs)

/-- An event is not kept back by the tapping key: it is settled, and if it has been released its
tapping term has not passed. -/
def accepting (d : Decisions) (s : Engine) (e : Keyevent) : Prop :=
  s.tappingKey.phase ≠ .undecided ∧
    (s.tappingKey.phase = .released → withinTappingTerm d s e = true)

instance (d : Decisions) (s : Engine) (e : Keyevent) : Decidable (accepting d s e) :=
  inferInstanceAs (Decidable (_ ∧ _))

/-- A press that is not kept back finds no press in the buffer. -/
def noPressOvertaken : Guard where
  arriving d r s :=
    decide (r.event.isEvent = true → r.event.pressed = true → accepting d s r.event →
      ∀ x ∈ s.waitingBuffer, x.event.pressed = false)

section Lists

@[simp] theorem emitted_append (es es' : List Effect) :
    emitted (es ++ es') = emitted es ++ emitted es' :=
  List.filterMap_append

@[simp] theorem emitted_processRecord (r : Keyrecord) : emitted [.processRecord r] = [r] := rfl

@[simp] theorem emitted_unregister (r : Keyrecord) : emitted [.unregister r] = [r] := rfl

@[simp] theorem presses_append (rs rs' : List Keyrecord) :
    presses (rs ++ rs') = presses rs ++ presses rs' := by
  simp only [presses, List.map_append, List.filter_append]

@[simp] theorem presses_nil : presses [] = [] := rfl

theorem presses_cons_press {r : Keyrecord} (hp : r.event.pressed = true) (rs : List Keyrecord) :
    presses (r :: rs) = r.event :: presses rs := by
  simp [presses, hp]

theorem presses_cons_release {r : Keyrecord} (hp : r.event.pressed = false) (rs : List Keyrecord) :
    presses (r :: rs) = presses rs := by
  simp [presses, hp]

theorem presses_cons (r : Keyrecord) (rs : List Keyrecord) :
    presses (r :: rs) = presses [r] ++ presses rs :=
  presses_append [r] rs

theorem presses_singleton_congr {r r' : Keyrecord} (h : r'.event = r.event) :
    presses [r'] = presses [r] := by
  simp only [presses, List.map_cons, List.map_nil, h]

theorem presses_eq_nil {rs : List Keyrecord} (h : ∀ r ∈ rs, r.event.pressed = false) :
    presses rs = [] := by
  simpa [presses, List.filter_eq_nil_iff] using h

end Lists

/-- The presses that have been emitted, and behind them the tapping key if it is undecided. -/
def Engine.line (s : Engine) : List Keyevent :=
  presses (emitted s.effects) ++ presses s.tappingKey.held

/-- The presses that have arrived are, in order, those emitted, the undecided tapping key and those
in the buffer. -/
structure InOrder (es : List Keyevent) (s : Engine) : Prop where
  order : es.filter (fun e => e.isEvent && e.pressed) = s.line ++ presses s.waitingBuffer
  queued : QueuedRecords s.waitingBuffer

variable {d : Decisions} {r T : Keyrecord} {s : Engine}

section Line

theorem line_emits (hheld : s.tappingKey.held = []) :
    (s.emits r).line = s.line ++ presses [r] := by
  simp [Engine.line, hheld]

theorem line_setKey (hT : T.held = []) (hheld : s.tappingKey.held = []) :
    ({ s with tappingKey := T } : Engine).line = s.line := by
  simp only [Engine.line, hT, hheld]

theorem line_startKey (hr : r.event.isNoevent = false) (hp : r.event.pressed = true)
    (hcount : r.tap.count = 0) (hheld : s.tappingKey.held = []) :
    ({ s with tappingKey := r } : Engine).line = s.line ++ presses [r] := by
  simp [Engine.line, held_press hr hp hcount, hheld]

theorem Started.line_eq {t : Engine} (h : Started d r s t) (hr : r.event.isNoevent = false)
    (hp : r.event.pressed = true) (hcount : r.tap.count = 0) (hheld : s.tappingKey.held = []) :
    t.line = s.line ++ presses [r] ∧ presses t.waitingBuffer = presses s.waitingBuffer := by
  cases h with
  | alone => exact ⟨line_startKey hr hp hcount hheld, rfl⟩
  | tapped pre c post _ hbuffer _ _ =>
    have htapped : (r.withCount 1).held = [] := held_counted Nat.one_pos
    constructor
    · rw [line_emits htapped, presses_singleton_congr (withCount_event r 1)]
      simp only [Engine.line, htapped, hheld]
    · simp only [Engine.emits_waitingBuffer, hbuffer, presses, List.map_append, List.map_cons,
        withCount_event]

/-- A processed press joins the end of the line; nothing else changes the line or the presses in the
buffer. -/
theorem Outcome.line_eq {o : Bool × Keyrecord × Engine} (h : Outcome d r s o)
    (hcount : r.Uncounted) :
    o.2.2.line = s.line ++ (if o.1 = true ∧ r.event.isNoevent = false then presses [r] else []) ∧
      presses o.2.2.waitingBuffer = presses s.waitingBuffer := by
  cases h with
  | idle htick => simp [htick]
  | start t hr hp _ hphase _ _ _ ht =>
    simpa [hr] using ht.line_eq hr hp (hcount hp) (held_of_ne hphase)
  | interruptTap t hr hp _ hphase _ ht =>
    have hline := ht.line_eq hr hp (hcount hp) (held_of_ne (by simp [hphase]))
    have hmadeUp : presses [unregisterRecord s r.event.time] = [] := rfl
    simpa [hr, Engine.line, hmadeUp] using hline
  | restart hr hp hphase _ _ =>
    simpa [hr] using line_startKey hr hp (hcount hp) (held_of_ne (by simp [hphase]))
  | repeatTap r' hr hp hphase _ _ hevent hrepeat =>
    have hheld : s.tappingKey.held = [] := held_of_ne (by simp [hphase])
    have hline := line_setKey (s := s.emits r') (held_counted (Nat.zero_lt_of_lt hrepeat)) hheld
    rw [line_emits hheld, presses_singleton_congr hevent] at hline
    simpa [hr] using hline
  | forward hr hphase _ _ =>
    have hline := line_emits (r := r) (held_of_ne hphase)
    simpa [hr] using hline
  | forwardInterrupt hr hp hphase _ =>
    have hheld : s.tappingKey.held = [] := held_of_ne (by simp [hphase])
    have hheld' : (s.tappingKey.withInterrupted true).held = [] := held_of_ne (by simp [hphase])
    have hline := line_emits (s := { s with tappingKey := s.tappingKey.withInterrupted true })
      (r := r) hheld'
    rw [line_setKey hheld' hheld] at hline
    simpa [hr] using hline
  | earlyRelease hr hp hphase _ _ =>
    -- The release passes the undecided tapping key, but it is not a press.
    simp [Engine.line, presses_cons_release hp]
  | closeTap T hr hp hphase _ hT =>
    have hheld : s.tappingKey.held = [] := held_of_ne (by simp [hphase])
    have hT' : T.held = [] := by
      rcases hT with rfl | rfl
      · exact held_counted (phase_eq_tapped.mp hphase).2.2
      · rfl
    have hclosing : presses [{ r with tap := s.tappingKey.tap }] = presses [r] := rfl
    have hline := line_setKey (s := s.emits { r with tap := s.tappingKey.tap }) hT' hheld
    rw [line_emits hheld, hclosing] at hline
    simpa [hr] using hline
  | firstTap hr hp hphase _ _ =>
    have hT : (s.tappingKey.withCount 1).held = [] := held_counted Nat.one_pos
    have hkey : presses [s.tappingKey.withCount 1] = presses [s.tappingKey] :=
      presses_singleton_congr rfl
    simp [Engine.line, hT, hkey, held_of_undecided hphase]
  | hold b hphase =>
    have hkey : presses [s.tappingKey.withInterrupted b] = presses [s.tappingKey] :=
      presses_singleton_congr rfl
    simp [Engine.line, hkey, held_of_undecided hphase]
  | wait b _ hphase =>
    have hphase' : (s.tappingKey.withInterrupted b).phase = .undecided := hphase
    have hkey : presses [s.tappingKey.withInterrupted b] = presses [s.tappingKey] :=
      presses_singleton_congr rfl
    simp [Engine.line, hkey, held_of_undecided hphase, held_of_undecided hphase']
  | expire hphase _ =>
    have hheld : s.tappingKey.held = [] := held_of_ne (by simp [hphase])
    simpa using line_setKey held_none hheld

end Line

section Runs

theorem Outcome.accepting_of_press {o : Bool × Keyrecord × Engine} (h : Outcome d r s o)
    (ho : o.1 = true) (hr : r.event.isNoevent = false) (hp : r.event.pressed = true) :
    accepting d s r.event := by
  cases h with
  | idle htick => exact absurd (htick.symm.trans hr) (by decide)
  | start _ _ _ _ hphase _ hterm => exact ⟨hphase, hterm⟩
  | forward _ hphase hterm => exact ⟨hphase, hterm⟩
  | interruptTap _ _ _ _ hphase => exact ⟨by simp [hphase], by simp [hphase]⟩
  | restart _ _ hphase hterm | repeatTap _ _ _ hphase hterm | forwardInterrupt _ _ hphase hterm =>
    exact ⟨by simp [hphase], fun _ => hterm⟩
  | earlyRelease _ hp' => exact absurd (hp'.symm.trans hp) (by decide)
  | closeTap _ _ hp' => exact absurd (hp'.symm.trans hp) (by decide)
  | firstTap | hold | wait | expire => cases ho

theorem InOrder.arrive {es : List Keyevent} {e : Keyevent} {o : Bool × Keyrecord × Engine}
    (h : InOrder es s) (hguard : noPressOvertaken.arriving d { event := e } s = true)
    (ho : Outcome d { event := e } s o) : InOrder (es ++ [e]) (afterArrival o) := by
  have hcount : ({ event := e } : Keyrecord).Uncounted := fun _ => rfl
  obtain ⟨hline, hpresses⟩ := ho.line_eq hcount
  refine ⟨?_, ho.queued_arrival hcount h.queued⟩
  have hline' : (afterArrival o).line = o.2.2.line := by
    simp only [Engine.line, afterArrival_effects, afterArrival_tappingKey]
  rw [List.filter_append, h.order, hline', hline, ho.afterArrival_waitingBuffer, presses_append,
    hpresses]
  cases htick : e.isNoevent with
  | true => simp [htick]
  | false =>
    cases hp : e.pressed with
    | false =>
      have hrelease : presses [(⟨e, {}⟩ : Keyrecord)] = [] := presses_cons_release hp []
      have hkept : presses [o.2.1] = [] := by rw [presses_singleton_congr ho.event_eq, hrelease]
      cases o.1 <;> simp [htick, hp, hrelease, hkept]
    | true =>
      have hpress : presses [(⟨e, {}⟩ : Keyrecord)] = [e] := presses_cons_press hp []
      have hkept : presses [o.2.1] = [e] := by rw [presses_singleton_congr ho.event_eq, hpress]
      cases ho' : o.1 with
      | true =>
        -- A press that is processed finds no other press waiting.
        have hbuffer : presses s.waitingBuffer = [] :=
          presses_eq_nil (of_decide_eq_true hguard (by simpa using htick) hp
            (ho.accepting_of_press ho' htick hp))
        simp [htick, hp, hpress, hbuffer]
      | false => simp [htick, hp, hkept]

theorem InOrder.feed {es : List Keyevent} {o : Bool × Keyrecord × Engine}
    (h : InOrder es (s.push r)) (ho : Outcome d r s o) : InOrder es (afterFeed o) := by
  obtain ⟨hr, hcount⟩ := h.queued r List.mem_cons_self
  obtain ⟨hline, hpresses⟩ := ho.line_eq hcount
  refine ⟨?_, ho.queued_feed h.queued⟩
  have hline' : (afterFeed o).line = o.2.2.line := by
    simp only [Engine.line, afterFeed_effects, afterFeed_tappingKey]
  have hpush : (s.push r).line = s.line := rfl
  rw [h.order, hline', hline, afterFeed_waitingBuffer, presses_append, hpresses, hpush,
    push_waitingBuffer, presses_cons]
  cases o.1 with
  | true => simp [hr]
  | false => simp [presses_singleton_congr ho.event_eq]

theorem inOrder_run (inputs : List Input) (hguard : (noPressOvertaken.runs {}).Accepts {} inputs)
    (hclean : .clearKeyboard ∉ (run {} {} inputs).effects) :
    InOrder (inputs.map (·.event)) (run {} {} inputs) :=
  noPressOvertaken.invariant ⟨rfl, nofun⟩ (fun _ _ _ _ _ h hg ho => h.arrive hg ho)
    (fun _ _ _ _ _ h _ ho => h.feed ho) inputs hguard hclean

/-- Presses are emitted in the order of their arrival in every run in which none of them overtakes
another in the buffer. -/
theorem presses_in_order (inputs : List Input)
    (hguard : (noPressOvertaken.runs {}).Accepts {} inputs)
    (hclean : .clearKeyboard ∉ (run {} {} inputs).effects) : PressesInOrder inputs := by
  rw [PressesInOrder, arrivedPresses, (inOrder_run inputs hguard hclean).order, Engine.line,
    List.append_assoc]
  exact List.sublist_append_left _ _

/-- Two tap-hold keys are held past their terms, and the press that ends the second one waits. -/
theorem presses_in_order_roll :
    let inputs := [Input.press .small ⟨1, 1⟩ 0, .press .small ⟨2, 1⟩ 10,
      .press .small ⟨1, 2⟩ 215, .tick .small 216, .press .small ⟨2, 2⟩ 217]
    (noPressOvertaken.runs {}).Accepts {} inputs ∧ PressesInOrder inputs :=
  ⟨by decide +kernel, presses_in_order _ (by decide +kernel) (by decide +kernel)⟩

/-- Without the tick, the last press overtakes the one before. -/
theorem press_overtaken :
    let inputs := [Input.press .small ⟨1, 1⟩ 0, .press .small ⟨2, 1⟩ 10,
      .press .small ⟨1, 2⟩ 215, .press .small ⟨2, 2⟩ 215]
    .clearKeyboard ∉ (run {} {} inputs).effects ∧ ¬ PressesInOrder inputs := by
  unfold PressesInOrder
  decide +kernel

end Runs

end Qmk.Tapping
