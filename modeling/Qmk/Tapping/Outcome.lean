import Qmk.Tapping.Engine

/-! # The transitions of the default configuration

Without Chordal Hold and Flow Tap, one call of `process_tapping` does one of
thirteen things. A record of the waiting buffer is treated as one that has just
arrived would be if the buffer held only the records behind it.
-/

namespace Qmk.Tapping

/-- What the engine is doing with the tapping key: there is none, it is pressed and undecided, it is
pressed and counts as a tap, or it has been released. -/
inductive Phase
  | reset | undecided | tapped | released
  deriving DecidableEq, Repr

/-- The phase of the engine when `T` is the tapping key. -/
def Keyrecord.phase (T : Keyrecord) : Phase :=
  if T.event.isNoevent then .reset
  else if T.event.pressed then if T.tap.count = 0 then .undecided else .tapped
  else .released

namespace Engine

/-- The state after a record has been given to `process_record`. -/
def emits (s : Engine) (record : Keyrecord) : Engine :=
  { s with effects := s.effects ++ [.processRecord record] }

@[simp] theorem emits_tappingKey (s : Engine) (r : Keyrecord) :
    (s.emits r).tappingKey = s.tappingKey := rfl

@[simp] theorem emits_waitingBuffer (s : Engine) (r : Keyrecord) :
    (s.emits r).waitingBuffer = s.waitingBuffer := rfl

@[simp] theorem emits_effects (s : Engine) (r : Keyrecord) :
    (s.emits r).effects = s.effects ++ [.processRecord r] := rfl

end Engine

section Records

@[simp] theorem isEvent_eq_not (e : Keyevent) : e.isEvent = !e.isNoevent := by
  simp [Keyevent.isEvent, Keyevent.isNoevent]

@[simp] theorem withCount_event (r : Keyrecord) (n : ℕ) : (r.withCount n).event = r.event := rfl

@[simp] theorem withCount_count (r : Keyrecord) (n : ℕ) : (r.withCount n).tap.count = n := rfl

@[simp] theorem withInterrupted_event (r : Keyrecord) (b : Bool) :
    (r.withInterrupted b).event = r.event := rfl

@[simp] theorem withInterrupted_count (r : Keyrecord) (b : Bool) :
    (r.withInterrupted b).tap.count = r.tap.count := rfl

variable {T : Keyrecord}

theorem phase_eq_reset : T.phase = .reset ↔ T.event.isNoevent = true := by
  simp only [Keyrecord.phase]
  split_ifs <;> simp_all

theorem phase_eq_undecided : T.phase = .undecided ↔
    T.event.isNoevent = false ∧ T.event.pressed = true ∧ T.tap.count = 0 := by
  simp only [Keyrecord.phase]
  split_ifs <;> simp_all

theorem phase_eq_tapped : T.phase = .tapped ↔
    T.event.isNoevent = false ∧ T.event.pressed = true ∧ 0 < T.tap.count := by
  simp only [Keyrecord.phase]
  split_ifs <;> simp_all [Nat.pos_iff_ne_zero]

theorem phase_eq_released : T.phase = .released ↔
    T.event.isNoevent = false ∧ T.event.pressed = false := by
  simp only [Keyrecord.phase]
  split_ifs <;> simp_all

@[simp] theorem none_phase : Keyrecord.none.phase = .reset := rfl

@[simp] theorem withInterrupted_phase (b : Bool) : (T.withInterrupted b).phase = T.phase := rfl

theorem withCount_phase (h : T.phase = .undecided) : (T.withCount 1).phase = .tapped := by
  obtain ⟨hevent, hpressed, -⟩ := phase_eq_undecided.mp h
  exact phase_eq_tapped.mpr ⟨hevent, hpressed, Nat.one_pos⟩

end Records

/-- The tapping key becomes a record, and perhaps a tap at once, when its release already waits. -/
inductive Started (d : Decisions) (r : Keyrecord) (s : Engine) : Engine → Prop
  | alone : Started d r s { s with tappingKey := r }
  | tapped (pre : List Keyrecord) (c : Keyrecord) (post : List Keyrecord)
      (hcount : r.tap.count = 0)
      (hbuffer : s.waitingBuffer = pre ++ c :: post)
      (hpre : ∀ x ∈ pre, isTapRelease d { s with tappingKey := r } x = false)
      (hc : isTapRelease d { s with tappingKey := r } c = true) :
      Started d r s (({ s with
        tappingKey := r.withCount 1
        waitingBuffer := pre ++ c.withCount 1 :: post } : Engine).emits (r.withCount 1))

/-- What `process_tapping` does with a record that is not in the buffer: its answer, the record and
the state afterwards. -/
inductive Outcome (d : Decisions) (r : Keyrecord) (s : Engine) : Bool × Keyrecord × Engine → Prop
  | idle (htick : r.event.isNoevent = true) : Outcome d r s (true, r, s)
  | start (t : Engine)
      (hr : r.event.isNoevent = false) (hp : r.event.pressed = true)
      (htap : isTapRecord d s r = true)
      (hphase : s.tappingKey.phase ≠ .undecided)
      (hcount : s.tappingKey.phase = .tapped → s.tappingKey.tap.count = 1)
      (hterm : s.tappingKey.phase = .released → withinTappingTerm d s r.event = true)
      (hkey : s.tappingKey.phase = .released → s.tappingKey.event.key ≠ r.event.key)
      (ht : Started d r s t) : Outcome d r s (true, r, t)
  | interruptTap (t : Engine)
      (hr : r.event.isNoevent = false) (hp : r.event.pressed = true)
      (htap : isTapRecord d s r = true)
      (hphase : s.tappingKey.phase = .tapped) (hcount : 1 < s.tappingKey.tap.count)
      (ht : Started d r
        { s with effects := s.effects ++ [.unregister (unregisterRecord s r.event.time)] } t) :
      Outcome d r s (true, r, t)
  | restart
      (hr : r.event.isNoevent = false) (hp : r.event.pressed = true)
      (hphase : s.tappingKey.phase = .released) (hterm : withinTappingTerm d s r.event = true)
      (hkey : s.tappingKey.event.key = r.event.key) :
      Outcome d r s (true, r, { s with tappingKey := r })
  | repeatTap (r' : Keyrecord)
      (hr : r.event.isNoevent = false) (hp : r.event.pressed = true)
      (hphase : s.tappingKey.phase = .released) (hterm : withinTappingTerm d s r.event = true)
      (hkey : s.tappingKey.event.key = r.event.key)
      (hevent : r'.event = r.event) (hcount : 1 < r'.tap.count) :
      Outcome d r s (true, r', { s.emits r' with tappingKey := r' })
  | forward
      (hr : r.event.isNoevent = false)
      (hphase : s.tappingKey.phase ≠ .undecided)
      (hterm : s.tappingKey.phase = .released → withinTappingTerm d s r.event = true)
      (hkey : s.tappingKey.phase = .tapped → s.tappingKey.event.key = r.event.key →
        r.event.pressed = true) :
      Outcome d r s (true, r, s.emits r)
  | forwardInterrupt
      (hr : r.event.isNoevent = false) (hp : r.event.pressed = true)
      (hphase : s.tappingKey.phase = .released) (hterm : withinTappingTerm d s r.event = true) :
      Outcome d r s (true, r,
        ({ s with tappingKey := s.tappingKey.withInterrupted true } : Engine).emits r)
  | earlyRelease
      (hr : r.event.isNoevent = false) (hp : r.event.pressed = false)
      (hphase : s.tappingKey.phase = .undecided)
      (hkey : s.tappingKey.event.key ≠ r.event.key)
      (htyped : waitingBufferTyped s r.event = false) :
      Outcome d r s (true, r, s.emits r)
  | closeTap (T : Keyrecord)
      (hr : r.event.isNoevent = false) (hp : r.event.pressed = false)
      (hphase : s.tappingKey.phase = .tapped)
      (hkey : s.tappingKey.event.key = r.event.key)
      (hT : T = { r with tap := s.tappingKey.tap } ∨ T = .none) :
      Outcome d r s (true, { r with tap := s.tappingKey.tap },
        { s.emits { r with tap := s.tappingKey.tap } with tappingKey := T })
  | firstTap
      (hr : r.event.isNoevent = false) (hp : r.event.pressed = false)
      (hphase : s.tappingKey.phase = .undecided) (hterm : withinTappingTerm d s r.event = true)
      (hkey : s.tappingKey.event.key = r.event.key) :
      Outcome d r s (false, { r with tap := { s.tappingKey.tap with count := 1 } },
        ({ s with tappingKey := s.tappingKey.withCount 1 } : Engine).emits
          (s.tappingKey.withCount 1))
  | hold (b : Bool)
      (hphase : s.tappingKey.phase = .undecided) :
      Outcome d r s (false, r,
        { s.emits (s.tappingKey.withInterrupted b) with tappingKey := .none })
  | wait (b : Bool)
      (hr : r.event.isNoevent = false)
      (hphase : s.tappingKey.phase = .undecided) :
      Outcome d r s (false, r, { s with tappingKey := s.tappingKey.withInterrupted b })
  | expire
      (hphase : s.tappingKey.phase = .released) (hterm : withinTappingTerm d s r.event = false) :
      Outcome d r s (false, r, { s with tappingKey := .none })

section Inversion

variable {d : Decisions} {r : Keyrecord} {s : Engine}

theorem emit_eq (effect : Keyrecord → Effect) (hr : r.event.isNoevent = false) :
    emit {} d effect r s = { s with effects := s.effects ++ [effect r] } := by
  simp [emit, hr]

theorem processRecord_eq (hr : r.event.isNoevent = false) : processRecord {} d r s = s.emits r :=
  emit_eq .processRecord hr

theorem takeRegisteredTap_eq (queued : Bool) : takeRegisteredTap {} queued r s = (r, s) := by
  simp [takeRegisteredTap]

theorem flowTapIfEnabled_eq : flowTapIfEnabled {} d r s = (false, r, s) := rfl

theorem chordConsideredTap_eq : chordConsideredTap {} d r s = false := rfl

theorem markTap_eq_some {p : Keyrecord → Bool} {rs rs' : List Keyrecord}
    (h : markTap p rs = some rs') : ∃ pre c post, rs = pre ++ c :: post ∧
      (∀ x ∈ pre, p x = false) ∧ p c = true ∧ rs' = pre ++ c.withCount 1 :: post := by
  induction rs generalizing rs' with
  | nil => cases h
  | cons x rs ih =>
    simp only [markTap] at h
    cases hx : p x with
    | true =>
      simp only [hx, if_true, Option.some.injEq] at h
      exact ⟨[], x, rs, rfl, by simp, hx, h.symm⟩
    | false =>
      simp only [hx, Bool.false_eq_true, if_false, Option.map_eq_some_iff] at h
      obtain ⟨rs₁, h₁, rfl⟩ := h
      obtain ⟨pre, c, post, rfl, hpre, hc, rfl⟩ := ih h₁
      refine ⟨x :: pre, c, post, rfl, ?_, hc, rfl⟩
      rintro y (_ | ⟨_, hy⟩)
      · exact hx
      · exact hpre y hy

theorem startTapping_started (hr : r.event.isNoevent = false) :
    Started d r s (startTapping {} d r s) := by
  simp only [startTapping, waitingBufferScanTap]
  split_ifs with h
  · exact .alone
  · obtain ⟨hcount, -⟩ := not_or.mp h
    cases hm : markTap (isTapRelease d { s with tappingKey := r }) s.waitingBuffer with
    | none => exact .alone
    | some buffer =>
      obtain ⟨pre, c, post, hbuffer, hpre, hc, rfl⟩ := markTap_eq_some hm
      simp only
      rw [processRecord_eq (r := r.withCount 1) hr]
      exact .tapped pre c post (Nat.eq_zero_of_not_pos hcount) hbuffer hpre hc

theorem tappingReset_outcome (hphase : s.tappingKey.phase = .reset) :
    Outcome d r s (tappingReset {} d false r s) := by
  simp only [tappingReset, flowTapIfEnabled_eq, Bool.false_eq_true, if_false]
  split_ifs with htick htap
  · exact .idle htick
  · have hr : r.event.isNoevent = false := by simpa using htick
    exact .start _ hr htap.1 htap.2 (by simp [hphase]) (by simp [hphase]) (by simp [hphase])
      (by simp [hphase]) (startTapping_started hr)
  · have hr : r.event.isNoevent = false := by simpa using htick
    rw [processRecord_eq hr]
    exact .forward hr (by simp [hphase]) (by simp [hphase]) (by simp [hphase])

theorem tappingInterrupted_outcome (hr : r.event.isNoevent = false)
    (hphase : s.tappingKey.phase = .undecided) :
    Outcome d r s (false, r, tappingInterrupted {} d r s) := by
  have hT := (phase_eq_undecided.mp hphase).1
  simp only [tappingInterrupted, chordConsideredTap_eq, Bool.false_eq_true, if_false]
  split_ifs
  · rw [processRecord_eq (r := s.tappingKey.withInterrupted true) hT]
    exact .hold true hphase
  · exact .wait true hr hphase

theorem tappingUndecided_outcome (hr : r.event.isNoevent = false)
    (hphase : s.tappingKey.phase = .undecided) (hterm : withinTappingTerm d s r.event = true) :
    Outcome d r s (tappingUndecided {} d false r s) := by
  have hT := (phase_eq_undecided.mp hphase).1
  have hcounted : (s.tappingKey.withCount 1).event.isNoevent = false := hT
  simp only [tappingUndecided, chordConsideredTap_eq, Bool.false_eq_true, and_false, if_false,
    isTappingRecord, decide_eq_true_eq, Bool.not_eq_true, processRecord_eq hcounted,
    processRecord_eq hT, writeBack]
  split_ifs with hfirst hpermissive hrelease hretained hpress
  · exact .firstTap hr hfirst.2 hphase hterm hfirst.1
  · exact .hold s.tappingKey.tap.interrupted hphase
  · exact .wait s.tappingKey.tap.interrupted hr hphase
  · rw [processRecord_eq hr]
    exact .earlyRelease hr hrelease.1 hphase (fun h => hfirst ⟨h, hrelease.1⟩) hrelease.2
  · exact tappingInterrupted_outcome hr hphase
  · exact .wait s.tappingKey.tap.interrupted hr hphase

theorem tappingTapped_outcome (within : Bool) (hr : r.event.isNoevent = false)
    (hphase : s.tappingKey.phase = .tapped) :
    Outcome d r s (tappingTapped {} d false r within s) := by
  obtain ⟨hT, -, hpos⟩ := phase_eq_tapped.mp hphase
  have hclosing : ({ r with tap := s.tappingKey.tap } : Keyrecord).event.isNoevent = false := hr
  have hreleased : (unregisterRecord s r.event.time).event.isNoevent = false := hT
  simp only [tappingTapped, isTappingRecord, decide_eq_true_eq, Bool.not_eq_true, writeBack,
    Bool.false_eq_true, if_false, processRecord_eq hclosing, emit_eq .unregister hreleased]
  split_ifs with hclose hwithin hpress hcount
  · exact .closeTap _ hr hclose.2 hphase hclose.1 (.inl rfl)
  · exact .closeTap _ hr hclose.2 hphase hclose.1 (.inr rfl)
  · exact .interruptTap _ hr hpress.2 hpress.1 hphase hcount (startTapping_started hr)
  · exact .start _ hr hpress.2 hpress.1 (by simp [hphase]) (fun _ => by omega)
      (by simp [hphase]) (by simp [hphase]) (startTapping_started hr)
  · rw [processRecord_eq hr]
    refine .forward hr (by simp [hphase]) (by simp [hphase]) fun _ hkey => ?_
    cases hp : r.event.pressed with
    | true => rfl
    | false => exact absurd ⟨hkey, hp⟩ hclose

theorem tappingReleased_outcome (hphase : s.tappingKey.phase = .released) :
    Outcome d r s (tappingReleased {} d false r s) := by
  have hne : s.tappingKey.phase ≠ .undecided ∧ s.tappingKey.phase ≠ .tapped := by simp [hphase]
  have hrepeat (hr : r.event.isNoevent = false) (tap : Tap) :
      processRecord {} d ⟨r.event, tap⟩ s = s.emits ⟨r.event, tap⟩ :=
    processRecord_eq (r := ⟨r.event, tap⟩) hr
  simp only [tappingReleased, flowTapIfEnabled_eq, isTappingRecord, decide_eq_true_eq,
    Bool.false_eq_true, if_false, writeBack]
  split_ifs with hterm htick hp hkey hquick hmax htap
  · exact .idle htick
  · have hr : r.event.isNoevent = false := by simpa using htick
    rw [hrepeat hr]
    exact .repeatTap _ hr hp hphase hterm hkey rfl (Nat.succ_lt_succ hquick.2.2)
  · have hr : r.event.isNoevent = false := by simpa using htick
    rw [hrepeat hr]
    exact .repeatTap _ hr hp hphase hterm hkey rfl
      ((by decide : 1 < 15).trans_le (Nat.le_of_not_lt hmax))
  · exact .restart (by simpa using htick) hp hphase hterm hkey
  · have hr : r.event.isNoevent = false := by simpa using htick
    exact .start _ hr hp htap hne.1 (fun h => absurd h hne.2) (fun _ => hterm) (fun _ => hkey)
      (startTapping_started hr)
  · have hr : r.event.isNoevent = false := by simpa using htick
    rw [processRecord_eq hr]
    exact .forwardInterrupt hr hp hphase hterm
  · have hr : r.event.isNoevent = false := by simpa using htick
    rw [processRecord_eq hr]
    exact .forward hr hne.1 (fun _ => hterm) fun h => absurd h hne.2
  · exact .expire hphase (by simpa using hterm)

theorem processTapping_outcome (d : Decisions) (r : Keyrecord) (s : Engine) :
    Outcome d r s (processTapping {} d false r s) := by
  simp only [processTapping, takeRegisteredTap_eq]
  split_ifs with hreset hpressed hterm htick hcount hcount htick
  · exact tappingReset_outcome (phase_eq_reset.mpr hreset)
  · exact .idle htick
  · exact tappingUndecided_outcome (by simpa using htick)
      (phase_eq_undecided.mpr ⟨by simpa using hreset, hpressed, hcount⟩) hterm
  · exact tappingTapped_outcome true (by simpa using htick)
      (phase_eq_tapped.mpr ⟨by simpa using hreset, hpressed, Nat.pos_of_ne_zero hcount⟩)
  · have hT : s.tappingKey.event.isNoevent = false := by simpa using hreset
    rw [processRecord_eq hT]
    exact .hold s.tappingKey.tap.interrupted (phase_eq_undecided.mpr ⟨hT, hpressed, hcount⟩)
  · exact .idle htick
  · exact tappingTapped_outcome false (by simpa using htick)
      (phase_eq_tapped.mpr ⟨by simpa using hreset, hpressed, Nat.pos_of_ne_zero hcount⟩)
  · exact tappingReleased_outcome (phase_eq_released.mpr
      ⟨by simpa using hreset, by simpa using hpressed⟩)

end Inversion

end Qmk.Tapping
