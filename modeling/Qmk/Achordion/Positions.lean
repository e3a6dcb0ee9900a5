import Qmk.Achordion

/-! # Achordion on keymaps that repeat a tap-hold key

Achordion takes a release for that of its active key if the keycode is the same. On a keymap with
the keycode at several positions this may be the release of another key.
-/

namespace Qmk.Achordion

open Tapping (Keyrecord Keypos)

/-- Each position alternates press and release, and a release has the keycode of its press; the
state says for which keycodes the positions are down. -/
def positions : Monitor (UInt16 × Keyrecord) (Keypos → Option UInt16) where
  next q x := Function.update q x.2.event.key (if x.2.event.pressed then some x.1 else none)
  ok q x := q x.2.event.key = if x.2.event.pressed then none else some x.1

instance (q : Keypos → Option UInt16) (x : UInt16 × Keyrecord) : Decidable (positions.ok q x) :=
  inferInstanceAs (Decidable (_ = _))

/-- No position is down. -/
def allUp : Keypos → Option UInt16 := fun _ => none

/-- The positions that are down according to the records that reached the handlers behind
Achordion. -/
def State.reached (s : State) : Keypos → Option UInt16 := positions.after allUp (handled s.effects)

/-- Whenever a release is blocked, it is that of the stored position, or its press was not passed
on; and the handlers see a press and a release in turn for each position, the release at the latest
when the position goes up. -/
structure BlocksOwn (inputs : List Input) : Prop where
  blocked : ∀ pre d k r rest, inputs = pre ++ .event d k r :: rest → r.event.pressed = false →
    (processAchordion d k r (run {} pre)).1 = false →
    r.event.key = (run {} pre).tapHoldRecord.event.key ∨
      (run {} pre).reached r.event.key = none
  handled : positions.Accepts allUp (handled (run {} inputs).effects)
  released : ∀ pre rest, inputs = pre ++ rest → ∀ p,
    positions.after allUp (arrived pre) p = none → (run {} pre).reached p = none

/-- While Achordion is active, a release with the keycode of the active key is at the stored
position. -/
def OwnRelease (s : State) : Input → Prop
  | .event _ keycode record =>
    s.achordionState ≠ .released → record.event.pressed = false → keycode = s.tapHoldKeycode →
      record.event.key = s.tapHoldRecord.event.key
  | .task _ _ => True

instance (s : State) (i : Input) : Decidable (OwnRelease s i) :=
  match i with
  | .event .. => inferInstanceAs (Decidable (_ → _ → _ → _))
  | .task .. => isTrue trivial

/-- Every step of a run meets the condition. -/
def OwnReleases : State → List Input → Prop
  | _, [] => True
  | s, i :: inputs => OwnRelease s i ∧ OwnReleases (step s i) inputs

instance instDecidableOwnReleases : (s : State) → (inputs : List Input) →
    Decidable (OwnReleases s inputs)
  | _, [] => isTrue trivial
  | s, i :: inputs =>
    have := instDecidableOwnReleases (step s i) inputs
    inferInstanceAs (Decidable (_ ∧ _))

section Invariant

variable {down : Keypos → Option UInt16} {s : State} {k : UInt16} {r : Keyrecord} {d : Decisions}
  {es : List Effect} {q : Keypos → Option UInt16}

/-- What the handlers take to be down: of the active key only its hold. -/
def State.handles (s : State) (down : Keypos → Option UInt16) : Keypos → Option UInt16 :=
  if s.achordionState = .released then down
  else Function.update down s.tapHoldRecord.event.key
    (if s.achordionState = .holding then some s.tapHoldKeycode else none)

/-- The handled records of a trace alternate at each position, and leave `q` down. -/
def Alternates (es : List Effect) (q : Keypos → Option UInt16) : Prop :=
  positions.Accepts allUp (handled es) ∧ positions.after allUp (handled es) = q

/-- The invariant between two inputs; `down` says which positions are down. -/
structure Placed (down : Keypos → Option UInt16) (s : State) : Prop where
  alternates : Alternates s.effects (s.handles down)
  awake : s.achordionState ≠ .recursing
  active : s.achordionState ≠ .released →
    down s.tapHoldRecord.event.key = some s.tapHoldKeycode
  press : s.achordionState = .unsettled → s.tapHoldRecord.event.pressed = true

theorem Alternates.note (h : Alternates es q) {e : Effect} (he : Achordion.handled [e] = []) :
    Alternates (es ++ [e]) q := by
  rwa [Alternates, handled_append, he, List.append_nil]

theorem Alternates.record (h : Alternates es q) {e : Effect}
    (he : Achordion.handled [e] = [(k, r)]) (hok : positions.ok q (k, r)) :
    Alternates (es ++ [e]) (positions.next q (k, r)) := by
  obtain ⟨haccepts, rfl⟩ := h
  constructor
  · rw [handled_append, he, Monitor.accepts_append]
    exact ⟨haccepts, hok, trivial⟩
  · rw [handled_append, he, Monitor.after_append]
    rfl

theorem Alternates.press (h : Alternates es q) {e : Effect}
    (he : Achordion.handled [e] = [(k, r)]) (hp : r.event.pressed = true)
    (hup : q r.event.key = none) :
    Alternates (es ++ [e]) (Function.update q r.event.key (some k)) := by
  have hrecord := h.record he (by simpa [positions, hp] using hup)
  simpa only [positions, hp, if_true] using hrecord

theorem Alternates.release (h : Alternates es q) {e : Effect}
    (he : Achordion.handled [e] = [(k, r)]) (hp : r.event.pressed = false)
    (hdown : q r.event.key = some k) :
    Alternates (es ++ [e]) (Function.update q r.event.key none) := by
  have hrecord := h.record he (by simpa [positions, hp] using hdown)
  simpa only [positions, hp, Bool.false_eq_true, if_false] using hrecord

theorem Placed.unsettled (h : Placed down s) (hs : s.achordionState = .unsettled) :
    Alternates (s.effects ++ [.unregisterMods s.eagerMods])
      (Function.update down s.tapHoldRecord.event.key none) := by
  have hhandles : s.handles down = Function.update down s.tapHoldRecord.event.key none := by
    simp [State.handles, hs]
  exact hhandles ▸ h.alternates.note rfl

theorem processRecord_key : (processRecord d k r).event.key = r.event.key := by
  simp only [processRecord]
  split_ifs <;> rfl

theorem settleAsHold_key : (settleAsHold d s).tapHoldRecord.event.key = s.tapHoldRecord.event.key :=
  processRecord_key

theorem settleAsTap_key :
    (settleAsTap d s).tapHoldRecord.event.key = s.tapHoldRecord.event.key := by
  rw [settleAsTap_eq]
  exact processRecord_key

theorem Placed.settleAsHold (h : Placed down s) (hs : s.achordionState = .unsettled)
    (d : Decisions) : Placed down (settleAsHold d s) := by
  have hplumb := (h.unsettled hs).press
    (e := .plumb s.tapHoldKeycode s.tapHoldRecord) (k := s.tapHoldKeycode) rfl (h.press hs)
    (Function.update_self ..)
  rw [Function.update_idem] at hplumb
  rw [settleAsHold_eq]
  constructor
  · simpa [State.handles, processRecord_key] using hplumb
  · exact Status.noConfusion
  · intro _
    simpa only [processRecord_key] using h.active (by simp [hs])
  · exact Status.noConfusion

theorem Placed.settleAsTap (h : Placed down s) (hs : s.achordionState = .unsettled)
    (d : Decisions) : Placed down (settleAsTap d s) := by
  rw [settleAsTap_eq]
  set press := Keyrecord.tapped s.tapHoldRecord
  set release := Keyrecord.withPressed (processRecord d s.tapHoldKeycode press) false
  have hpress : press.event.key = s.tapHoldRecord.event.key := rfl
  have hkey : release.event.key = s.tapHoldRecord.event.key := processRecord_key
  have hplumb := (h.unsettled hs).press (r := press)
    (e := .plumb s.tapHoldKeycode press) (k := s.tapHoldKeycode) rfl (h.press hs)
    (Function.update_self ..)
  rw [hpress, Function.update_idem] at hplumb
  have hclosing := (hplumb.note (e := .sendKeyboardReport) rfl).release (r := release)
    (e := .plumb s.tapHoldKeycode release) (k := s.tapHoldKeycode) rfl rfl
    (by rw [hkey]; exact Function.update_self ..)
  rw [hkey, Function.update_idem] at hclosing
  constructor
  · simpa [State.handles, hkey] using hclosing
  · exact Status.noConfusion
  · intro _
    simpa only [hkey] using h.active (by simp [hs])
  · exact Status.noConfusion

theorem Placed.task (h : Placed down s) (d : Decisions) (now : UInt16) :
    Placed down (achordionTask d now s) := by
  simp only [achordionTask]
  split_ifs with hs
  · exact h.settleAsHold hs.1 d
  · exact h

theorem Placed.handle (h : Placed down s) (hok : positions.ok down (k, r))
    (hkey : s.achordionState ≠ .released → r.event.key ≠ s.tapHoldRecord.event.key) :
    Placed (positions.next down (k, r)) (s.emit (.handle k r)) := by
  have hsame : s.handles down r.event.key = down r.event.key := by
    simp only [State.handles]
    split_ifs with hs
    · rfl
    · exact Function.update_of_ne (hkey hs) _ _
    · exact Function.update_of_ne (hkey hs) _ _
  have hnext : positions.next (s.handles down) (k, r) =
      s.handles (positions.next down (k, r)) := by
    simp only [State.handles, positions]
    by_cases hs : s.achordionState = .released
    · rw [if_pos hs, if_pos hs]
    · rw [if_neg hs, if_neg hs]
      exact Function.update_comm (hkey hs).symm _ _ _
  constructor
  · have hrecord := h.alternates.record (k := k) (r := r) (e := .handle k r) rfl
      (by simpa only [positions, hsame] using hok)
    rw [hnext] at hrecord
    exact hrecord
  · exact h.awake
  · intro hs
    exact (Function.update_of_ne (hkey hs).symm _ _).trans (h.active hs)
  · exact h.press

theorem Placed.startUnsettled (h : Placed down s) (hs : s.achordionState = .released)
    (hok : positions.ok down (k, r)) (hp : r.event.pressed = true) (timeout : UInt16) :
    Placed (positions.next down (k, r)) (startUnsettled d k r timeout s) := by
  have hup : down r.event.key = none := by simpa [positions, hp] using hok
  have hnext : positions.next down (k, r) = Function.update down r.event.key (some k) := by
    simp [positions, hp]
  have hhandles : s.handles down = down := if_pos hs
  have halternates := h.alternates
  rw [hhandles] at halternates
  have hdown : Function.update (Function.update down r.event.key (some k)) r.event.key none =
      down := by
    rw [Function.update_idem, ← hup, Function.update_eq_self]
  have hstarted : Placed (positions.next down (k, r)) { s with
      achordionState := .unsettled
      tapHoldKeycode := k
      tapHoldRecord := r
      holdTimer := r.event.time + timeout } := by
    rw [hnext]
    constructor
    · simpa [State.handles, hdown] using halternates
    · exact Status.noConfusion
    · intro _
      exact Function.update_self ..
    · intro _
      exact hp
  simp only [Achordion.startUnsettled]
  generalize (if d.modConfig (modTapGetMods k) &&& 0x10 = 0 then d.modConfig (modTapGetMods k)
    else d.modConfig (modTapGetMods k) <<< 4) = mods
  split_ifs
  · exact ⟨hstarted.alternates.note (e := .registerMods mods) rfl, hstarted.awake,
      hstarted.active, hstarted.press⟩
  · exact hstarted
  · exact hstarted

theorem Placed.releaseTapHold (h : Placed down s) (hs : s.achordionState ≠ .released)
    (hp : r.event.pressed = false) (hkey : r.event.key = s.tapHoldRecord.event.key) :
    Placed (positions.next down (s.tapHoldKeycode, r)) (releaseTapHold d s.tapHoldKeycode s) := by
  have hnext : positions.next down (s.tapHoldKeycode, r) =
      Function.update down s.tapHoldRecord.event.key none := by
    simp [positions, hp, hkey]
  have halternates := h.alternates
  simp only [State.handles, if_neg hs] at halternates
  have hreleased {s' : State} (hs' : s'.achordionState = .released)
      (heffects : Alternates s'.effects
        (Function.update down s.tapHoldRecord.event.key none)) :
      Placed (positions.next down (s.tapHoldKeycode, r)) s' := by
    rw [hnext]
    constructor
    · simpa only [State.handles, if_pos hs'] using heffects
    · simp [hs']
    · exact fun hnot => absurd hs' hnot
    · simp [hs']
  simp only [Achordion.releaseTapHold]
  split_ifs with hholding hmod
  · rw [if_pos hholding] at halternates
    have hplumb := halternates.release (r := Keyrecord.withPressed s.tapHoldRecord false)
      (e := .plumb s.tapHoldKeycode (Keyrecord.withPressed s.tapHoldRecord false))
      (k := s.tapHoldKeycode) rfl rfl (Function.update_self ..)
    have hsame : (Keyrecord.withPressed s.tapHoldRecord false).event.key =
        s.tapHoldRecord.event.key := rfl
    rw [hsame, Function.update_idem] at hplumb
    exact hreleased rfl hplumb
  · rw [if_neg hholding] at halternates
    exact hreleased rfl (halternates.note (e := .unregisterMods s.eagerMods) rfl)
  · rw [if_neg hholding] at halternates
    exact hreleased rfl halternates

theorem Placed.settleByPress (h : Placed down s) (hs : s.achordionState = .unsettled)
    (hok : positions.ok down (k, r)) (hkey : r.event.key ≠ s.tapHoldRecord.event.key) :
    Placed (positions.next down (k, r)) (settleByPress d k r s) := by
  have hhold := (h.settleAsHold hs d).handle hok fun _ => by rwa [settleAsHold_key]
  have htap := (h.settleAsTap hs d).handle hok fun _ => by rwa [settleAsTap_key]
  simp only [Achordion.settleByPress]
  split_ifs
  · exact hhold
  · exact htap

theorem Placed.event (h : Placed down s) (hok : positions.ok down (k, r)) (d : Decisions)
    (hown : OwnRelease s (.event d k r)) :
    Placed (positions.next down (k, r)) (step s (.event d k r)) := by
  -- The stored position is down, so its next event is the release of the active key.
  have hother (hs : s.achordionState ≠ .released)
      (hpass : r.event.pressed = false → k ≠ s.tapHoldKeycode) :
      r.event.key ≠ s.tapHoldRecord.event.key := by
    intro hkey
    have hdown : some s.tapHoldKeycode = if r.event.pressed then none else some k :=
      (h.active hs).symm.trans (hkey ▸ hok)
    cases hp : r.event.pressed with
    | true => simp [hp] at hdown
    | false => exact hpass hp (by simpa [hp] using hdown.symm)
  rcases processAchordion_cases h.awake d k r with ⟨hs, hp, -, timeout, hcase⟩ |
    ⟨hs, hp, rfl, hcase⟩ | ⟨hs, hp, hcase⟩ | ⟨hpass, hcase⟩ <;>
    simp only [step, hcase, Bool.false_eq_true, if_false, if_true]
  · exact h.startUnsettled hs hok hp timeout
  · exact h.releaseTapHold hs hp (hown hs hp rfl)
  · refine h.settleByPress hs hok (hother (by simp [hs]) fun hnot => ?_)
    exact absurd (hp.symm.trans hnot) (by decide)
  · exact h.handle hok fun hs => hother hs (hpass hs)

end Invariant

section Runs

variable {inputs : List Input} {s : State} {i : Input}

theorem ownReleases_append (s : State) (pre rest : List Input) :
    OwnReleases s (pre ++ rest) ↔ OwnReleases s pre ∧ OwnReleases (run s pre) rest := by
  induction pre generalizing s with
  | nil => simp [OwnReleases, run]
  | cons i pre ih =>
    simp only [List.cons_append, OwnReleases, ih, and_assoc]
    rfl

theorem placed_run (hpos : positions.Accepts allUp (arrived inputs))
    (hown : OwnReleases {} inputs) :
    Placed (positions.after allUp (arrived inputs)) (run {} inputs) := by
  induction inputs using List.reverseRecOn with
  | nil => exact ⟨⟨trivial, rfl⟩, by decide, fun h => absurd rfl h, by decide⟩
  | append_singleton inputs i ih =>
    rw [arrived_append, Monitor.accepts_append] at hpos
    rw [ownReleases_append] at hown
    rw [run_append, arrived_append, Monitor.after_append]
    have hplaced := ih hpos.1 hown.1
    cases i with
    | event d k r => exact hplaced.event hpos.2.1 d hown.2.1
    | task d now => exact hplaced.task d now

theorem Placed.reached_eq_none {down : Keypos → Option UInt16} (h : Placed down s) {p : Keypos}
    (hp : down p = none) : s.reached p = none := by
  rw [State.reached, h.alternates.2]
  simp only [State.handles]
  by_cases hs : s.achordionState = .released
  · rwa [if_pos hs]
  · have hkey : p ≠ s.tapHoldRecord.event.key := by
      rintro rfl
      exact absurd (hp.symm.trans (h.active hs)) (by simp)
    rwa [if_neg hs, Function.update_of_ne hkey]

theorem Placed.blocked {down : Keypos → Option UInt16} (h : Placed down s) {d : Decisions}
    {k : UInt16} {r : Keyrecord} (hown : OwnRelease s (.event d k r))
    (hp : r.event.pressed = false) (hblocked : (processAchordion d k r s).1 = false) :
    r.event.key = s.tapHoldRecord.event.key := by
  rcases processAchordion_cases h.awake d k r with ⟨-, hpress, -⟩ | ⟨hs, -, hk, -⟩ |
    ⟨-, hpress, -⟩ | ⟨-, hcase⟩
  · exact absurd (hp.symm.trans hpress) (by decide)
  · exact hown hs hp hk
  · exact absurd (hp.symm.trans hpress) (by decide)
  · rw [hcase] at hblocked
    cases hblocked

/-- A release with the active keycode at another position is blocked although its press was
handled. -/
theorem Placed.not_blocksOwn {pre rest : List Input} {down : Keypos → Option UInt16}
    (h : Placed down (run {} pre)) (hok : ∀ d k r, i = .event d k r → positions.ok down (k, r))
    (hi : ¬ OwnRelease (run {} pre) i) : ¬ BlocksOwn (pre ++ i :: rest) := by
  intro hblocks
  cases i with
  | task d now => exact hi trivial
  | event d k r =>
    simp only [OwnRelease, Classical.not_imp] at hi
    obtain ⟨hs, hp, rfl, hkey⟩ := hi
    have hcase : (processAchordion d (run {} pre).tapHoldKeycode r (run {} pre)).1 = false := by
      simp [processAchordion, h.awake, hs, hp]
    rcases hblocks.blocked pre d _ r rest rfl hp hcase with hsame | hnone
    · exact hkey hsame
    · have hdown : down r.event.key = some (run {} pre).tapHoldKeycode := by
        simpa [positions, hp] using hok d _ r rfl
      rw [State.reached, h.alternates.2, State.handles, if_neg hs,
        Function.update_of_ne hkey, hdown] at hnone
      exact absurd hnone (by simp)

/-- On a keymap on which a tap-hold key may be repeated, Achordion blocks only the releases of its
own key, and every press that reaches the handlers gets its release, exactly if no release with the
active keycode comes from another position than the stored one. -/
theorem blocksOwn_iff (inputs : List Input) (hpos : positions.Accepts allUp (arrived inputs)) :
    BlocksOwn inputs ↔ OwnReleases {} inputs := by
  constructor
  · intro hblocks
    -- The condition is extended input by input.
    have hprefix (pre : List Input) : ∀ rest, inputs = pre ++ rest → OwnReleases {} pre := by
      induction pre using List.reverseRecOn with
      | nil => exact fun _ _ => trivial
      | append_singleton pre i ih =>
        intro rest hinputs
        rw [List.append_assoc, List.singleton_append] at hinputs
        have hpre := ih (i :: rest) hinputs
        rw [hinputs, arrived_append, Monitor.accepts_append] at hpos
        rw [ownReleases_append]
        refine ⟨hpre, ?_, trivial⟩
        by_contra hi
        have hok : ∀ d k r, i = .event d k r →
            positions.ok (positions.after allUp (arrived pre)) (k, r) := by
          rintro d k r rfl
          exact hpos.2.1
        exact (placed_run hpos.1 hpre).not_blocksOwn hok hi (hinputs ▸ hblocks)
    exact hprefix inputs [] (List.append_nil _).symm
  · intro hown
    constructor
    · rintro pre d k r rest rfl hp hblocked
      rw [arrived_append, Monitor.accepts_append] at hpos
      rw [ownReleases_append] at hown
      exact .inl ((placed_run hpos.1 hown.1).blocked hown.2.1 hp hblocked)
    · exact (placed_run hpos hown).alternates.1
    · rintro pre rest rfl p hp
      rw [arrived_append, Monitor.accepts_append] at hpos
      rw [ownReleases_append] at hown
      exact (placed_run hpos.1 hown.1).reached_eq_none hp

/-- The mod-tap key at one position is held while that at another one is typed and released
after it. -/
def releasedInOrder : List Input :=
  [keyEvent 0x2204 ⟨0, 0⟩ 0 true, keyEvent 0x2204 ⟨0, 9⟩ 50 true,
    keyEvent 0x2204 ⟨0, 0⟩ 80 false, keyEvent 0x2204 ⟨0, 9⟩ 100 false]

theorem blocksOwn_releasedInOrder : BlocksOwn releasedInOrder :=
  (blocksOwn_iff releasedInOrder (by decide)).mpr (by decide)

/-- The same keys, but the second one is released first. -/
def releasedNested : List Input :=
  [keyEvent 0x2204 ⟨0, 0⟩ 0 true, keyEvent 0x2204 ⟨0, 9⟩ 50 true,
    keyEvent 0x2204 ⟨0, 9⟩ 80 false, keyEvent 0x2204 ⟨0, 0⟩ 100 false]

theorem not_blocksOwn_releasedNested :
    ¬ ∀ inputs, positions.Accepts allUp (arrived inputs) → BlocksOwn inputs := by
  intro h
  have hblocks := h releasedNested (by decide)
  rcases hblocks.blocked (releasedNested.take 2) .small 0x2204 _ (releasedNested.drop 3) rfl rfl
    (by decide) with hkey | hnone
  · exact absurd hkey (by decide)
  · exact absurd hnone (by decide)

end Runs

end Qmk.Achordion
