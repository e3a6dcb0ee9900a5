import Qmk.Tapping.Runs

/-! # Conservation of events

In the default configuration every press and release that has arrived has been
given to `process_record` once, or it is the undecided tapping key, or it waits in
the buffer. Whatever else is emitted is a release that the engine makes up for a
key whose press it has emitted as a repeated tap.
-/

namespace Qmk.Tapping

/-- The records given to `process_record`, without the releases that the engine makes up. -/
def processed (effects : List Effect) : List Keyrecord :=
  effects.filterMap fun
    | .processRecord r => some r
    | _ => none

/-- The tapping key as long as it is undecided, and so not emitted. -/
def Keyrecord.held (T : Keyrecord) : List Keyrecord :=
  if T.phase = .undecided then [T] else []

/-- The records that have arrived and are not emitted, oldest first. -/
def Engine.pending (s : Engine) : List Keyrecord := s.tappingKey.held ++ s.waitingBuffer

section Views

@[simp] theorem processed_append (es es' : List Effect) :
    processed (es ++ es') = processed es ++ processed es' :=
  List.filterMap_append

@[simp] theorem processed_processRecord (r : Keyrecord) : processed [.processRecord r] = [r] := rfl

@[simp] theorem processed_unregister (r : Keyrecord) : processed [.unregister r] = [] := rfl

theorem held_of_undecided {T : Keyrecord} (h : T.phase = .undecided) : T.held = [T] := if_pos h

theorem held_of_ne {T : Keyrecord} (h : T.phase ≠ .undecided) : T.held = [] := if_neg h

@[simp] theorem held_none : Keyrecord.none.held = [] := rfl

theorem held_press {r : Keyrecord} (hr : r.event.isNoevent = false)
    (hp : r.event.pressed = true) (hcount : r.tap.count = 0) : r.held = [r] :=
  held_of_undecided (phase_eq_undecided.mpr ⟨hr, hp, hcount⟩)

theorem held_counted {r : Keyrecord} (hcount : 0 < r.tap.count) : r.held = [] :=
  held_of_ne fun h => hcount.ne' (phase_eq_undecided.mp h).2.2

end Views

def Engine.load (s : Engine) : Multiset Keyevent :=
  ↑((processed s.effects).map (·.event)) + ↑(s.tappingKey.held.map (·.event)) +
    ↑(s.waitingBuffer.map (·.event))

/-- Unless it is a release, the record has not been counted as a tap. -/
def Keyrecord.Uncounted (r : Keyrecord) : Prop := r.event.pressed = true → r.tap.count = 0

/-- The buffer holds no ticks, and its presses have not been counted. -/
def QueuedRecords (rs : List Keyrecord) : Prop :=
  ∀ r ∈ rs, r.event.isNoevent = false ∧ r.Uncounted

/-- Every release that the engine has made up copies the tap of an emitted press. -/
def MadeUpReleases (effects : List Effect) : Prop :=
  ∀ r, .unregister r ∈ effects → r.event.pressed = false ∧ 1 < r.tap.count ∧
    ∃ p, .processRecord p ∈ effects ∧ p.event.pressed = true ∧ p.event.key = r.event.key ∧
      p.tap = r.tap

/-- What has arrived and what the engine has emitted or keeps agree, and a tapping key that counts
as a tap has been emitted. -/
structure Conserved (es : List Keyevent) (s : Engine) : Prop where
  balance : ↑(es.filter (·.isEvent)) = s.load
  queued : QueuedRecords s.waitingBuffer
  emitted : s.tappingKey.phase = .tapped → .processRecord s.tappingKey ∈ s.effects
  madeUp : MadeUpReleases s.effects

variable {d : Decisions} {r T : Keyrecord} {s : Engine}

section Load

theorem load_emits (s : Engine) (r : Keyrecord) : (s.emits r).load = s.load + {r.event} := by
  simp only [Engine.load, Engine.emits_effects, Engine.emits_tappingKey,
    Engine.emits_waitingBuffer, processed_append, processed_processRecord, List.map_append,
    List.map_cons, List.map_nil, ← Multiset.coe_add, Multiset.coe_singleton]
  abel

theorem load_setKey (s : Engine) (h : T.held.map (·.event) = s.tappingKey.held.map (·.event)) :
    ({ s with tappingKey := T } : Engine).load = s.load := by
  simp only [Engine.load, h]

theorem load_startKey (hr : r.event.isNoevent = false) (hp : r.event.pressed = true)
    (hcount : r.tap.count = 0) (hheld : s.tappingKey.held = []) :
    ({ s with tappingKey := r } : Engine).load = s.load + {r.event} := by
  simp only [Engine.load, held_press hr hp hcount, hheld, List.map_cons, List.map_nil,
    Multiset.coe_nil, Multiset.coe_singleton]
  abel

theorem load_endKey (hphase : s.tappingKey.phase = .undecided) (hT : T.held = []) :
    ({ s with tappingKey := T } : Engine).load + {s.tappingKey.event} = s.load := by
  simp only [Engine.load, held_of_undecided hphase, hT, List.map_cons, List.map_nil,
    Multiset.coe_nil, Multiset.coe_singleton]
  abel

theorem load_push (s : Engine) (r : Keyrecord) : (s.push r).load = s.load + {r.event} := by
  simp only [Engine.load, push_effects, push_tappingKey, push_waitingBuffer, List.map_cons,
    ← Multiset.cons_coe, ← Multiset.singleton_add]
  abel

end Load

theorem Started.load_eq {t : Engine} (h : Started d r s t) (hr : r.event.isNoevent = false)
    (hp : r.event.pressed = true) (hcount : r.tap.count = 0) (hheld : s.tappingKey.held = []) :
    t.load = s.load + {r.event} := by
  cases h with
  | alone => exact load_startKey hr hp hcount hheld
  | tapped pre c post _ hbuffer _ _ =>
    have htapped : (r.withCount 1).held = [] := held_counted Nat.one_pos
    rw [load_emits]
    simp only [Engine.load, htapped, hheld, hbuffer, List.map_append, List.map_cons,
      withCount_event]

/-- A processed event is added to what has been emitted or is kept; otherwise nothing changes. -/
theorem Outcome.load_eq {o : Bool × Keyrecord × Engine} (h : Outcome d r s o)
    (hcount : r.Uncounted) :
    o.2.2.load = s.load + if o.1 = true ∧ r.event.isNoevent = false then {r.event} else 0 := by
  cases h with
  | idle htick => simp [htick]
  | start t hr hp _ hphase _ _ _ ht =>
    simpa [hr] using ht.load_eq hr hp (hcount hp) (held_of_ne hphase)
  | interruptTap t hr hp _ hphase _ ht =>
    have hload := ht.load_eq hr hp (hcount hp) (held_of_ne (by simp [hphase]))
    simpa [hr, Engine.load] using hload
  | restart hr hp hphase _ _ =>
    simpa [hr] using load_startKey hr hp (hcount hp) (held_of_ne (by simp [hphase]))
  | repeatTap r' hr hp hphase _ _ hevent hrepeat =>
    have hheld : r'.held = [] := held_counted (Nat.zero_lt_of_lt hrepeat)
    have hkey := load_setKey (T := r') (s.emits r')
      (by rw [hheld, Engine.emits_tappingKey, held_of_ne (by simp [hphase])])
    simpa [hr, hevent, load_emits] using hkey
  | forward hr _ _ _ => simpa [hr] using load_emits s r
  | forwardInterrupt hr hp hphase _ =>
    have hkey := load_setKey (T := s.tappingKey.withInterrupted true) s
      (by rw [held_of_ne (by simp [hphase]), held_of_ne (by simp [hphase])])
    simp [hr, load_emits, hkey]
  | earlyRelease hr _ _ _ _ => simpa [hr] using load_emits s r
  | closeTap T hr hp hphase _ hT =>
    have hheld : T.held = [] := by
      rcases hT with rfl | rfl
      · exact held_counted (phase_eq_tapped.mp hphase).2.2
      · rfl
    have hkey := load_setKey (T := T) (s.emits { r with tap := s.tappingKey.tap })
      (by rw [hheld, Engine.emits_tappingKey, held_of_ne (by simp [hphase])])
    simpa [hr, load_emits] using hkey
  | firstTap hr hp hphase _ _ =>
    have hkey := load_endKey (T := s.tappingKey.withCount 1) hphase (held_counted Nat.one_pos)
    simpa [load_emits] using hkey
  | hold b hphase =>
    have hkey := load_endKey (T := .none) hphase held_none
    have hemits := load_emits { s with tappingKey := .none } (s.tappingKey.withInterrupted b)
    simp only [withInterrupted_event, hkey] at hemits
    exact hemits.trans (by simp)
  | wait b _ hphase =>
    have hkey := load_setKey (T := s.tappingKey.withInterrupted b) s
      (by rw [held_of_undecided hphase, held_of_undecided (by simpa using hphase)]; rfl)
    simpa using hkey
  | expire hphase _ =>
    have hkey := load_setKey (T := .none) s (by rw [held_none, held_of_ne (by simp [hphase])])
    simpa using hkey

section Emitted

theorem Started.queued {t : Engine} (h : Started d r s t) (hs : QueuedRecords s.waitingBuffer) :
    QueuedRecords t.waitingBuffer := by
  cases h with
  | alone => exact hs
  | tapped pre c post _ hbuffer _ hc =>
    have hrelease : c.event.pressed = false := by simp_all [isTapRelease]
    intro x hx
    rw [Engine.emits_waitingBuffer, List.mem_append, List.mem_cons] at hx
    rw [hbuffer] at hs
    rcases hx with hx | rfl | hx
    · exact hs x (by simp [hx])
    · exact ⟨(hs c (by simp)).1, fun hp => absurd hp (by simp [hrelease])⟩
    · exact hs x (by simp [hx])

theorem Outcome.queued {o : Bool × Keyrecord × Engine} (h : Outcome d r s o)
    (hs : QueuedRecords s.waitingBuffer) : QueuedRecords o.2.2.waitingBuffer := by
  cases h with
  | start t _ _ _ _ _ _ _ ht => exact ht.queued hs
  | interruptTap t _ _ _ _ _ ht => exact ht.queued hs
  | idle | restart | repeatTap | forward | forwardInterrupt | earlyRelease | closeTap | firstTap
  | hold | wait | expire => exact hs

/-- A record that is not processed keeps its tap, unless it is the release of the first tap. -/
theorem Outcome.uncounted_kept {o : Bool × Keyrecord × Engine} (h : Outcome d r s o)
    (ho : o.1 = false) (hr : r.Uncounted) : o.2.1.Uncounted := by
  cases h with
  | firstTap _ hp => exact fun h => absurd h (by simp [hp])
  | hold | wait | expire => exact hr
  | idle | start | interruptTap | restart | repeatTap | forward | forwardInterrupt | earlyRelease
  | closeTap => cases ho

theorem Outcome.queued_arrival {o : Bool × Keyrecord × Engine} (h : Outcome d r s o)
    (hr : r.Uncounted) (hs : QueuedRecords s.waitingBuffer) :
    QueuedRecords (afterArrival o).waitingBuffer := by
  rw [h.afterArrival_waitingBuffer]
  split_ifs with hkept
  · intro x hx
    rcases List.mem_append.mp hx with hx | hx
    · exact h.queued hs x hx
    · cases List.mem_singleton.mp hx
      exact ⟨h.event_eq ▸ hkept.2, h.uncounted_kept hkept.1 hr⟩
  · simpa using h.queued hs

theorem Outcome.queued_feed {o : Bool × Keyrecord × Engine} (h : Outcome d r s o)
    (hs : QueuedRecords (s.push r).waitingBuffer) :
    QueuedRecords (afterFeed o).waitingBuffer := by
  obtain ⟨hr, hcount⟩ := hs r List.mem_cons_self
  have hrest := h.queued fun x hx => hs x (List.mem_cons_of_mem _ hx)
  rw [afterFeed_waitingBuffer]
  split_ifs with hprocessed
  · exact hrest
  · rintro x (_ | ⟨_, hx⟩)
    · exact ⟨h.event_eq ▸ hr, h.uncounted_kept (by simpa using hprocessed) hcount⟩
    · exact hrest x hx

theorem Started.emitted {t : Engine} (h : Started d r s t) (hr : r.tap.count = 0)
    (ht : t.tappingKey.phase = .tapped) : .processRecord t.tappingKey ∈ t.effects := by
  cases h with
  | alone => exact absurd hr (phase_eq_tapped.mp ht).2.2.ne'
  | tapped => exact List.mem_append_right _ (List.mem_singleton_self _)

theorem Outcome.emitted {o : Bool × Keyrecord × Engine} (h : Outcome d r s o) (hr : r.Uncounted)
    (hs : s.tappingKey.phase = .tapped → .processRecord s.tappingKey ∈ s.effects)
    (ho : o.2.2.tappingKey.phase = .tapped) :
    .processRecord o.2.2.tappingKey ∈ o.2.2.effects := by
  cases h with
  | idle => exact hs ho
  | start t _ hp _ _ _ _ _ ht => exact ht.emitted (hr hp) ho
  | interruptTap t _ hp _ _ _ ht => exact ht.emitted (hr hp) ho
  | restart _ hp => exact absurd (hr hp) (phase_eq_tapped.mp ho).2.2.ne'
  | repeatTap | firstTap => exact List.mem_append_right _ (List.mem_singleton_self _)
  | forward | earlyRelease => exact List.mem_append_left _ (hs ho)
  | forwardInterrupt _ _ hphase => exact absurd (hphase.symm.trans ho) (by decide)
  | closeTap T _ hp _ _ hT =>
    rcases hT with rfl | rfl
    · exact absurd (hp.symm.trans (phase_eq_tapped.mp ho).2.1) (by decide)
    · cases ho
  | hold | expire => cases ho
  | wait b _ hphase => exact absurd (hphase.symm.trans ho) (by decide)

theorem MadeUpReleases.append {es : List Effect} (h : MadeUpReleases es) {x : Keyrecord} :
    MadeUpReleases (es ++ [.processRecord x]) := by
  intro r hr
  rw [List.mem_append, List.mem_singleton] at hr
  obtain ⟨hp, hcount, p, hmem, hrest⟩ := h r (hr.resolve_right (by simp))
  exact ⟨hp, hcount, p, List.mem_append_left _ hmem, hrest⟩

theorem Started.madeUp {t : Engine} (h : Started d r s t) (hs : MadeUpReleases s.effects) :
    MadeUpReleases t.effects := by
  cases h with
  | alone => exact hs
  | tapped => exact hs.append

theorem Outcome.madeUp {o : Bool × Keyrecord × Engine} (h : Outcome d r s o)
    (hemitted : s.tappingKey.phase = .tapped → .processRecord s.tappingKey ∈ s.effects)
    (hs : MadeUpReleases s.effects) : MadeUpReleases o.2.2.effects := by
  cases h with
  | start t _ _ _ _ _ _ _ ht => exact ht.madeUp hs
  | interruptTap t _ _ _ hphase hcount ht =>
    refine ht.madeUp fun x hx => ?_
    rw [List.mem_append, List.mem_singleton] at hx
    rcases hx with hx | hx
    · obtain ⟨hp, hcount, p, hmem, hrest⟩ := hs x hx
      exact ⟨hp, hcount, p, List.mem_append_left _ hmem, hrest⟩
    · -- The made-up release copies the tapping key, which has been emitted.
      cases hx
      exact ⟨rfl, hcount, s.tappingKey, List.mem_append_left _ (hemitted hphase),
        (phase_eq_tapped.mp hphase).2.1, rfl, rfl⟩
  | idle | restart | wait | expire => exact hs
  | repeatTap | forward | forwardInterrupt | earlyRelease | closeTap | firstTap | hold =>
    exact hs.append

end Emitted

section Runs

theorem Conserved.arrive {es : List Keyevent} {e : Keyevent} {o : Bool × Keyrecord × Engine}
    (h : Conserved es s) (ho : Outcome d { event := e } s o) :
    Conserved (es ++ [e]) (afterArrival o) := by
  have hcount : ({ event := e } : Keyrecord).Uncounted := fun _ => rfl
  refine ⟨?_, ho.queued_arrival hcount h.queued, ?_, ?_⟩
  · have hload : (afterArrival o).load = o.2.2.load +
        if o.1 = false ∧ e.isNoevent = false then {e} else 0 := by
      simp only [Engine.load, afterArrival_effects, afterArrival_tappingKey,
        ho.afterArrival_waitingBuffer, List.map_append, ← Multiset.coe_add, ← add_assoc]
      congr 1
      split_ifs
      · simp [ho.event_eq]
      · rfl
    rw [hload, ho.load_eq hcount, List.filter_append, ← Multiset.coe_add, h.balance]
    cases o.1 <;> cases htick : e.isNoevent <;> simp [htick]
  · simpa using ho.emitted hcount h.emitted
  · simpa using ho.madeUp h.emitted h.madeUp

theorem Conserved.feed {es : List Keyevent} {o : Bool × Keyrecord × Engine}
    (h : Conserved es (s.push r)) (ho : Outcome d r s o) : Conserved es (afterFeed o) := by
  obtain ⟨hr, hcount⟩ := h.queued r List.mem_cons_self
  refine ⟨?_, ho.queued_feed h.queued, ?_, ?_⟩
  · have hload : (afterFeed o).load = o.2.2.load + if o.1 = true then 0 else {r.event} := by
      simp only [afterFeed]
      split_ifs
      · rw [add_zero]
      · rw [load_push, ho.event_eq]
    rw [hload, ho.load_eq hcount, h.balance, load_push]
    cases o.1 <;> simp [hr]
  · simpa using ho.emitted hcount h.emitted
  · simpa using ho.madeUp h.emitted h.madeUp

theorem conserved_run (inputs : List Input)
    (hclean : .clearKeyboard ∉ (run {} {} inputs).effects) :
    Conserved (inputs.map (·.event)) (run {} {} inputs) := by
  refine Guard.invariant {} ⟨rfl, nofun, nofun, nofun⟩ (fun d e es s o h _ ho => h.arrive ho)
    (fun d r es s o h _ ho => h.feed ho) inputs ?_ hclean
  exact Monitor.accepts_of_ok (Guard.runs {} {}) fun s i => ⟨rfl, feedsOnly_true {} _ _⟩

/-- The presses and releases that have arrived are, up to order, those given to `process_record` and
those that are pending; all other emissions are made up by the engine. -/
theorem conserves_events (inputs : List Input)
    (hclean : .clearKeyboard ∉ (run {} {} inputs).effects) :
    List.Perm ((inputs.map (·.event)).filter (·.isEvent))
        ((processed (run {} {} inputs).effects ++ (run {} {} inputs).pending).map (·.event)) ∧
      MadeUpReleases (run {} {} inputs).effects := by
  have h := conserved_run inputs hclean
  refine ⟨Multiset.coe_eq_coe.mp (h.balance.trans ?_), h.madeUp⟩
  simp only [Engine.load, Engine.pending, List.map_append, ← Multiset.coe_add, add_assoc]

/-- A rolled press of two tap-hold keys and a regular key, with a repeated tap that is cut short. -/
theorem conserves_events_roll :
    let inputs := [Input.press .small ⟨1, 1⟩ 0, .release .small ⟨1, 1⟩ 10,
      .press .small ⟨1, 1⟩ 20, .press .small ⟨2, 1⟩ 30, .press .small ⟨1, 2⟩ 40,
      .release .small ⟨1, 1⟩ 50, .tick .small 300, .release .small ⟨2, 1⟩ 310]
    .clearKeyboard ∉ (run {} {} inputs).effects ∧
    List.Perm ((inputs.map (·.event)).filter (·.isEvent))
        ((processed (run {} {} inputs).effects ++ (run {} {} inputs).pending).map (·.event)) ∧
      MadeUpReleases (run {} {} inputs).effects :=
  ⟨by decide +kernel, conserves_events _ (by decide +kernel)⟩

end Runs

end Qmk.Tapping
