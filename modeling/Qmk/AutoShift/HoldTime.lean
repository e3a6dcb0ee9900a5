import Mathlib.Data.List.Infix
import Qmk.AutoShift.HeldShift

/-! # The hold time of a key under Auto Shift

`autoshift_time` is the press of the key that waits, until another auto-shift key is released. From
then on it is that release.
-/

namespace Qmk.AutoShift

inductive Input
  | key (keycode : Keycode) (pressed : Bool) (tapCount : ℕ)
  | scan
  deriving DecidableEq

/-- An event at a time that does not wrap. -/
structure Timed where
  time : ℕ
  input : Input
  deriving DecidableEq

section Specification

/-- The event as the firmware sees it. -/
def Timed.event (e : Timed) : Event :=
  match e.input with
  | .key keycode press tapCount => .key keycode press tapCount (BitVec.ofNat 16 e.time)
  | .scan => .scan (BitVec.ofNat 16 e.time)

/-- The release of an auto-shift key. -/
def Timed.Releases (e : Timed) : Prop :=
  match e.input with
  | .key keycode press _ => GetAutoShiftedKey keycode ∧ press = false
  | .scan => False

instance (e : Timed) : Decidable e.Releases := by
  unfold Timed.Releases
  split <;> infer_instance

def stateAfter (cfg : Config) (events : List Timed) : State :=
  run cfg (start cfg) (events.map Timed.event)

/-- An auto-shift key in a run, from its press with no modifier but the left shift held to the event
in which it is settled. -/
structure Hold (cfg : Config) (events : List Timed) where
  before : List Timed
  keycode : Keycode
  tapCount : ℕ
  pressedAt : ℕ
  between : List Timed
  settling : Timed
  rest : List Timed
  shifted : Bool
  split : events =
    (before ++ [⟨pressedAt, .key keycode true tapCount⟩] ++ between) ++ settling :: rest
  enabled : (stateAfter cfg before).enabled = true
  autoShifted : GetAutoShiftedKey keycode
  onlyLeft : (stateAfter cfg before).realMods &&& ~~~lshift = 0
  waits : ∀ shifted, .autoshiftPressUser keycode shifted ∉
    trace cfg (stateAfter cfg (before ++ [⟨pressedAt, .key keycode true tapCount⟩]))
      (between.map Timed.event)
  settles : .autoshiftPressUser keycode shifted ∈
    (step cfg settling.event (stateAfter cfg
      (before ++ [⟨pressedAt, .key keycode true tapCount⟩] ++ between))).calls
  short : settling.time < pressedAt + 65536

variable {cfg : Config} {events : List Timed}

/-- Left shift was held at the press. -/
def Hold.LeftShift (h : Hold cfg events) : Prop :=
  (stateAfter cfg h.before).realMods &&& lshift ≠ 0

instance (h : Hold cfg events) : Decidable h.LeftShift := inferInstanceAs (Decidable (_ ≠ _))

def Hold.timeout (h : Hold cfg events) : ℕ := (stateAfter cfg h.before).autoshiftTimeout.toNat

/-- The time from the press to the event in which the key is settled. -/
def Hold.duration (h : Hold cfg events) : ℕ := h.settling.time - h.pressedAt

end Specification

section Settling

variable {cfg : Config} {s t : Processing} {keycode k : Keycode} {now : BitVec 16}

structure SameWait (s t : State) : Prop where
  lastshifted : t.lastshifted = s.lastshifted
  timeout : t.autoshiftTimeout = s.autoshiftTimeout

theorem sameWait_autoshiftFlushShift (s : Processing) :
    SameWait s.toState (autoshiftFlushShift s).toState := by
  unfold autoshiftFlushShift addMods
  dsimp only
  split_ifs <;> exact ⟨rfl, rfl⟩

theorem sameWait_processAction (cfg : Config) (keycode : Keycode) (press : Bool) (tapCount : ℕ)
    (s : Processing) :
    SameWait s.toState (processAction cfg keycode press tapCount s).toState ∧
      (processAction cfg keycode press tapCount s).autoshiftTime = s.autoshiftTime := by
  unfold processAction
  cases actionFor keycode tapCount with
  | mods mods => cases press <;> exact ⟨⟨rfl, rfl⟩, rfl⟩
  | _ => exact ⟨⟨rfl, rfl⟩, rfl⟩

theorem autoshiftEnd_restamps (cfg : Config) (now : BitVec 16) (trigger : Bool)
    (h : ¬ (s.inProgress ∧ (keycode = s.autoshiftLastkey ∨ keycode = 0))) :
    SameWait s.toState (autoshiftEnd cfg keycode now trigger s).toState ∧
      (autoshiftEnd cfg keycode now trigger s).autoshiftTime = now := by
  rw [autoshiftEnd, if_neg h]
  extract_lets u v
  have hv : SameWait u.toState v.toState := by
    unfold v
    split_ifs
    · exact sameWait_autoshiftFlushShift u
    · exact ⟨rfl, rfl⟩
  exact ⟨⟨hv.lastshifted, hv.timeout⟩, rfl⟩

theorem shifts_putBack : ∀ mods : BitVec 8,
    (mods &&& ~~~lshift &&& ~~~rshift ||| if mods.getLsbD 1 then lshift else 0) |||
      (if mods.getLsbD 5 then rshift else 0) = mods := by
  decide

theorem and_not_lshift :
    ∀ {mods : BitVec 8}, mods.getLsbD 1 = false → mods &&& ~~~lshift = mods := by
  decide

theorem and_not_rshift :
    ∀ {mods : BitVec 8}, mods.getLsbD 5 = false → mods &&& ~~~rshift = mods := by
  decide

theorem realMods_autoshiftFlushShift (s : Processing) :
    (autoshiftFlushShift s).realMods =
      (s.realMods ||| if s.cancellingLshift then lshift else 0) |||
        if s.cancellingRshift then rshift else 0 := by
  unfold autoshiftFlushShift addMods
  cases hleft : s.cancellingLshift <;> cases hright : s.cancellingRshift <;> simp

theorem cancelShift_mods (s : Processing) :
    (cancelShift s).realMods = s.realMods &&& ~~~lshift &&& ~~~rshift ∧
    (cancelShift s).cancellingLshift = (s.cancellingLshift || s.realMods.getLsbD 1) ∧
    (cancelShift s).cancellingRshift = (s.cancellingRshift || s.realMods.getLsbD 5) := by
  have hone : s.realMods.getLsbD 1 = s.realMods[1] := rfl
  have hfive : s.realMods.getLsbD 5 = s.realMods[5] := rfl
  rw [hone, hfive]
  unfold cancelShift delMods
  cases hleft : s.realMods[1] <;> cases hright : s.realMods[5] <;>
    simp [hleft, hright, and_not_lshift, and_not_rshift]

theorem autoshiftTimeout_cancelShift (s : Processing) :
    (cancelShift s).autoshiftTimeout = s.autoshiftTimeout := by
  unfold cancelShift delMods
  dsimp only
  split_ifs <;> rfl

theorem autoshiftEnd_keepsMods (hrepeat : cfg.autoShiftRepeat = false)
    (hnone : NoneCancelled s.toState) (now : BitVec 16) (trigger : Bool)
    (h : s.inProgress ∧ (keycode = s.autoshiftLastkey ∨ keycode = 0)) :
    (autoshiftEnd cfg keycode now trigger s).realMods = s.realMods ∧
      (autoshiftEnd cfg keycode now trigger s).autoshiftTimeout = s.autoshiftTimeout := by
  rw [autoshiftEnd, if_pos h]
  extract_lets u v w x y z
  have hnot : ¬ (cfg.autoShiftRepeat ∧ ¬ cfg.autoShiftNoAutoRepeat ∧ trigger) := by simp [hrepeat]
  obtain ⟨hmods, hleft, hright⟩ := cancelShift_mods v
  simp only [if_neg hnot]
  constructor
  · change (autoshiftFlushShift y).realMods = _
    rw [realMods_autoshiftFlushShift]
    change (w.realMods ||| if w.cancellingLshift then lshift else 0) |||
      (if w.cancellingRshift then rshift else 0) = _
    rw [hmods, hleft, hright]
    change (s.realMods &&& ~~~lshift &&& ~~~rshift |||
      if s.cancellingLshift || s.realMods.getLsbD 1 then lshift else 0) |||
      (if s.cancellingRshift || s.realMods.getLsbD 5 then rshift else 0) = _
    rw [hnone.left, hnone.right, Bool.false_or, Bool.false_or]
    exact shifts_putBack s.realMods
  · exact (sameWait_autoshiftFlushShift y).timeout.trans (autoshiftTimeout_cancelShift v)

end Settling

section Decisions

variable {cfg : Config} {s : Processing} {keycode k : Keycode} {now : BitVec 16}

def decisions (keycode : Keycode) (calls : List Call) : List Bool :=
  calls.filterMap fun
    | .autoshiftPressUser k shifted => if k = keycode then some shifted else none
    | _ => none

theorem mem_decisions {shifted : Bool} {calls : List Call} :
    shifted ∈ decisions keycode calls ↔ .autoshiftPressUser keycode shifted ∈ calls := by
  unfold decisions
  rw [List.mem_filterMap]
  constructor
  · rintro ⟨c, hc, hshifted⟩
    cases c with
    | autoshiftPressUser k b =>
      simp only [Option.ite_none_right_eq_some, Option.some.injEq] at hshifted
      obtain ⟨rfl, rfl⟩ := hshifted
      exact hc
    | _ => simp at hshifted
  · intro hmem
    exact ⟨_, hmem, if_pos rfl⟩

theorem decisions_eq_nil {calls : List Call} :
    decisions keycode calls = [] ↔ ∀ shifted, .autoshiftPressUser keycode shifted ∉ calls := by
  rw [List.eq_nil_iff_forall_not_mem]
  simp only [mem_decisions]

@[simp] theorem decisions_append (calls calls' : List Call) :
    decisions keycode (calls ++ calls') = decisions keycode calls ++ decisions keycode calls' :=
  List.filterMap_append

@[simp] theorem decisions_pressCalls (shifted : Bool) :
    decisions keycode (pressCalls keycode shifted) = [shifted] := by
  simp [decisions, pressCalls]

@[simp] theorem decisions_pressCalls_of_ne (h : k ≠ keycode) (shifted : Bool) :
    decisions keycode (pressCalls k shifted) = [] := by
  simp [decisions, pressCalls, h]

@[simp] theorem decisions_releaseCalls (shifted : Bool) :
    decisions keycode (releaseCalls k shifted) = [] := rfl

theorem decisions_processAction (cfg : Config) (press : Bool) (tapCount : ℕ) (s : Processing) :
    decisions keycode (processAction cfg k press tapCount s).calls = decisions keycode s.calls := by
  rcases processAction_calls cfg k press tapCount s with ⟨code, -, hcalls⟩ | ⟨-, hcalls⟩
  · rw [hcalls, decisions_append]
    cases press <;> exact List.append_nil _
  · rw [hcalls]

theorem decisions_modeKey (k : Keycode) (s : Processing) :
    decisions keycode (modeKey k s).calls = decisions keycode s.calls := by
  obtain ⟨-, -, hcalls | hcalls⟩ := modeKey_keys k s
  · rw [hcalls]
  · rw [hcalls, decisions_append]
    exact List.append_nil _

/-- The press of another key decides nothing but the key that waits. -/
theorem decisions_pressed (hrepeat : cfg.autoShiftRepeat = false) (hne : k ≠ keycode) :
    decisions keycode (pressed cfg k now s).2.calls =
      decisions keycode (s.settled cfg now).calls := by
  by_cases hkey : GetAutoShiftedKey k
  · rw [pressed_autoShifted cfg now hkey]
    split_ifs
    · unfold autoshiftPress
      rw [if_neg (show ¬ (cfg.autoShiftRepeat ∧ _) by simp [hrepeat])]
      split_ifs
      · rw [calls_autoshiftPressUser, decisions_append, decisions_pressCalls_of_ne hne,
          List.append_nil]
        rfl
      · rfl
    · rfl
  · obtain ⟨last, hpassed⟩ := pressed_other cfg now hkey s
    rw [hpassed]
    exact decisions_modeKey k (s.settled cfg now)

end Decisions

section Waiting

variable {cfg : Config} {keycode k : Keycode} {leftShift : Bool} {timeout : BitVec 16}
  {stamp : ℕ} {down : Keycode → Bool}

/-- A key waits, with the time that its hold time is taken from. -/
structure Pending (keycode : Keycode) (leftShift : Bool) (timeout : BitVec 16) (stamp : ℕ)
    (down : Keycode → Bool) (s : State) : Prop where
  inProgress : s.inProgress = true
  lastkey : s.autoshiftLastkey = keycode
  lastshifted : s.lastshifted = leftShift
  timeout : s.autoshiftTimeout = timeout
  time : s.autoshiftTime = BitVec.ofNat 16 stamp
  enabled : s.enabled = true
  down : down keycode = true

def decidedAt (leftShift : Bool) (timeout : BitVec 16) (stamp : ℕ) (now : BitVec 16) : Bool :=
  leftShift || decide (timeout ≤ now - BitVec.ofNat 16 stamp)

theorem Pending.shiftedAt {s : Processing}
    (h : Pending keycode leftShift timeout stamp down s.toState) (now : BitVec 16) :
    s.shiftedAt now = decidedAt leftShift timeout stamp now := by
  have htimedOut : TimedOut now s ↔ timeout ≤ now - BitVec.ofNat 16 stamp := by
    rw [TimedOut, h.timeout, h.time]
  rw [Processing.shiftedAt, decidedAt, h.lastshifted, decide_eq_decide.mpr htimedOut]

theorem Pending.settle {s : Processing}
    (h : Pending keycode leftShift timeout stamp down s.toState) (hk : k = keycode ∨ k = 0)
    (cfg : Config) (now : BitVec 16) (trigger : Bool) :
    decisions keycode (autoshiftEnd cfg k now trigger s).calls =
      decisions keycode s.calls ++ [decidedAt leftShift timeout stamp now] := by
  have hend : s.inProgress ∧ (k = s.autoshiftLastkey ∨ k = 0) := by
    rw [h.lastkey]
    exact ⟨h.inProgress, hk⟩
  obtain ⟨-, -, -, hcalls⟩ := autoshiftEnd_waiting cfg now trigger hend
  rw [hcalls, h.lastkey, h.shiftedAt, decisions_append, decisions_append, decisions_pressCalls]
  split_ifs
  · exact List.append_nil _
  · rw [decisions_releaseCalls, List.append_nil]

/-- An event settles the key that waits, or leaves it waiting. Another auto-shift key that is
released takes the time stamp. -/
def Goes (cfg : Config) (keycode : Keycode) (leftShift : Bool) (timeout : BitVec 16) (stamp : ℕ)
    (down : Keycode → Bool) (s : State) (e : Timed) : Prop :=
  decisions keycode (step cfg e.event s).calls =
      [decidedAt leftShift timeout stamp (BitVec.ofNat 16 e.time)] ∨
    decisions keycode (step cfg e.event s).calls = [] ∧
      Pending keycode leftShift timeout (if e.Releases then e.time else stamp)
        (downAfter down e.event) (step cfg e.event s).toState

theorem Pending.scan {s : State} (h : Pending keycode leftShift timeout stamp down s)
    (cfg : Config) (time : ℕ) : Goes cfg keycode leftShift timeout stamp down s ⟨time, .scan⟩ := by
  have hstep : step cfg (Timed.event ⟨time, .scan⟩) s =
      autoshiftMatrixScan cfg (BitVec.ofNat 16 time) { toState := s } := rfl
  have hnot : ¬ Timed.Releases ⟨time, .scan⟩ := id
  rw [Goes, if_neg hnot, hstep, autoshiftMatrixScan]
  split_ifs with hout
  · exact Or.inl (Pending.settle (s := { toState := s }) h (Or.inl h.lastkey) cfg _ true)
  · exact Or.inr ⟨rfl, h⟩

theorem Pending.press {s : State} (h : Pending keycode leftShift timeout stamp down s)
    (hrepeat : cfg.autoShiftRepeat = false) (hne : k ≠ keycode) (tapCount time : ℕ) :
    Goes cfg keycode leftShift timeout stamp down s ⟨time, .key k true tapCount⟩ := by
  refine Or.inl ?_
  set arrived := Processing.call (.arrives k true s.enabled) { toState := s }
  set r := AutoShift.pressed cfg k (BitVec.ofNat 16 time) arrived with hr
  have hstep : step cfg (Timed.event ⟨time, .key k true tapCount⟩) s =
      (if r.1 then processAction cfg k true tapCount (r.2.call (.passOn k true)) else r.2).call
        (.handled k true) := rfl
  have hsettled : decisions keycode r.2.calls =
      [decidedAt leftShift timeout stamp (BitVec.ofNat 16 time)] := by
    have hin : arrived.inProgress = true := h.inProgress
    rw [hr, decisions_pressed hrepeat hne, Processing.settled, if_pos hin]
    exact Pending.settle (s := arrived) h (Or.inr rfl) cfg _ false
  have hcall (c : Call) (hc : decisions keycode [c] = []) (t : Processing) :
      decisions keycode (t.call c).calls = decisions keycode t.calls := by
    change decisions keycode (t.calls ++ [c]) = _
    rw [decisions_append, hc, List.append_nil]
  rw [hstep, hcall _ rfl]
  split_ifs
  · rw [decisions_processAction, hcall _ rfl, hsettled]
  · exact hsettled

theorem Pending.release_autoShifted {s : State}
    (h : Pending keycode leftShift timeout stamp down s) (hk : GetAutoShiftedKey k) (cfg : Config)
    (tapCount time : ℕ) :
    Goes cfg keycode leftShift timeout stamp down s ⟨time, .key k false tapCount⟩ := by
  set now := BitVec.ofNat 16 time
  set arrived := Processing.call (.arrives k false s.enabled) { toState := s }
  have harrived : Pending keycode leftShift timeout stamp down arrived.toState := h
  have hr : AutoShift.released cfg k now arrived =
      (false, autoshiftEnd cfg k now false arrived) := by
    rw [released_autoShifted cfg now hk, if_pos harrived.enabled]
  have hstep : step cfg (Timed.event ⟨time, .key k false tapCount⟩) s =
      (autoshiftEnd cfg k now false arrived).call (.handled k false) := by
    change (if (AutoShift.released cfg k now arrived).1 then _
      else (AutoShift.released cfg k now arrived).2).call _ = _
    rw [hr]
    rfl
  have hcalls : (step cfg (Timed.event ⟨time, .key k false tapCount⟩) s).calls =
      (autoshiftEnd cfg k now false arrived).calls ++ [.handled k false] := by
    rw [hstep]
    rfl
  by_cases heq : k = keycode
  · refine Or.inl ?_
    rw [hcalls, decisions_append, harrived.settle (Or.inl heq) cfg _ false]
    rfl
  · have hnot : ¬ (arrived.inProgress ∧ (k = arrived.autoshiftLastkey ∨ k = 0)) := by
      rw [harrived.lastkey]
      exact fun hend => hend.2.elim heq hk.ne_zero
    have hreleases : Timed.Releases ⟨time, .key k false tapCount⟩ := ⟨hk, rfl⟩
    obtain ⟨henabled, hin, hlast, shifted, hend⟩ := autoshiftEnd_other cfg now false hnot
    obtain ⟨hwait, htime⟩ := autoshiftEnd_restamps cfg now false hnot
    refine Or.inr ⟨?_, ?_⟩
    · rw [hcalls, hend, decisions_append, decisions_append, decisions_releaseCalls]
      rfl
    · rw [if_pos hreleases, hstep]
      exact ⟨hin.trans harrived.inProgress, hlast.trans harrived.lastkey,
        hwait.lastshifted.trans harrived.lastshifted, hwait.timeout.trans harrived.timeout, htime,
        henabled.trans harrived.enabled,
        (Function.update_of_ne (Ne.symm heq) ..).trans harrived.down⟩

theorem Pending.release_other {s : State} (h : Pending keycode leftShift timeout stamp down s)
    (hkey : GetAutoShiftedKey keycode) (hk : ¬ GetAutoShiftedKey k) (cfg : Config)
    (tapCount time : ℕ) :
    Goes cfg keycode leftShift timeout stamp down s ⟨time, .key k false tapCount⟩ := by
  set now := BitVec.ofNat 16 time
  set arrived := Processing.call (.arrives k false s.enabled) { toState := s }
  have hreleases : ¬ Timed.Releases ⟨time, .key k false tapCount⟩ := fun hrel => hk hrel.1
  have heq : keycode ≠ k := fun heq => hk (heq ▸ hkey)
  obtain ⟨left, right, hr⟩ : ∃ left right, AutoShift.released cfg k now arrived =
      (true, { arrived with cancellingLshift := left, cancellingRshift := right }) := by
    rcases released_other cfg now hk arrived with ⟨-, hr⟩ | ⟨-, hr⟩ | ⟨-, hr⟩ <;> exact ⟨_, _, hr⟩
  set passed : Processing := Processing.call (.passOn k false)
    { arrived with cancellingLshift := left, cancellingRshift := right }
  obtain ⟨hwait, htime⟩ := sameWait_processAction cfg k false tapCount passed
  obtain ⟨henabled, hin, hlast⟩ := processAction_keys cfg k false tapCount passed
  have hstep : step cfg (Timed.event ⟨time, .key k false tapCount⟩) s =
      (processAction cfg k false tapCount passed).call (.handled k false) := by
    change (if (AutoShift.released cfg k now arrived).1 then
      processAction cfg k false tapCount
        ((AutoShift.released cfg k now arrived).2.call (.passOn k false)) else _).call _ = _
    rw [hr]
    rfl
  refine Or.inr ⟨?_, ?_⟩
  · rw [hstep]
    change decisions keycode ((processAction cfg k false tapCount passed).calls ++ _) = []
    rw [decisions_append, decisions_processAction]
    rfl
  · rw [if_neg hreleases, hstep]
    exact ⟨hin.trans h.inProgress, hlast.trans h.lastkey, hwait.lastshifted.trans h.lastshifted,
      hwait.timeout.trans h.timeout, htime.trans h.time, henabled.trans h.enabled,
      (Function.update_of_ne heq ..).trans h.down⟩

theorem Pending.step {s : State} (h : Pending keycode leftShift timeout stamp down s)
    (hrepeat : cfg.autoShiftRepeat = false) (hkey : GetAutoShiftedKey keycode) {e : Timed}
    (halternates : Alternating down [e.event]) :
    Goes cfg keycode leftShift timeout stamp down s e := by
  obtain ⟨time, input⟩ := e
  cases input with
  | scan => exact h.scan cfg time
  | key k press tapCount =>
    cases press with
    | false =>
      by_cases hk : GetAutoShiftedKey k
      · exact h.release_autoShifted hk cfg tapCount time
      · exact h.release_other hkey hk cfg tapCount time
    | true =>
      have hne : k ≠ keycode := by
        rintro rfl
        exact absurd h.down (ne_true_of_eq_false halternates.1)
      exact h.press hrepeat hne tapCount time

theorem pending_press {s : State} (hrepeat : cfg.autoShiftRepeat = false) (hnone : NoneCancelled s)
    (henabled : s.enabled = true) (hkey : GetAutoShiftedKey keycode)
    (honly : s.realMods &&& ~~~lshift = 0) (down : Keycode → Bool) (tapCount time : ℕ) :
    Pending keycode (decide (s.realMods &&& lshift ≠ 0)) s.autoshiftTimeout time
      (downAfter down (Timed.event ⟨time, .key keycode true tapCount⟩))
      (AutoShift.step cfg (Timed.event ⟨time, .key keycode true tapCount⟩) s).toState := by
  set now := BitVec.ofNat 16 time
  set arrived := Processing.call (.arrives keycode true s.enabled) { toState := s }
  set settled := arrived.settled cfg now with hsettled
  obtain ⟨hmods, htimeout⟩ : settled.realMods = s.realMods ∧
      settled.autoshiftTimeout = s.autoshiftTimeout := by
    rw [hsettled, Processing.settled]
    split_ifs with hin
    · exact autoshiftEnd_keepsMods (s := arrived) hrepeat hnone now false ⟨hin, Or.inr rfl⟩
    · exact ⟨rfl, rfl⟩
  have hon : settled.enabled = true := (enabled_settled cfg now arrived).trans henabled
  have hpressed : AutoShift.pressed cfg keycode now arrived =
      (false, { settled with
        lastshifted := decide (settled.realMods &&& lshift ≠ 0)
        autoshiftLastkey := keycode
        autoshiftTime := now
        inProgress := true }) := by
    have hnot : ¬ settled.realMods &&& ~~~lshift ≠ 0 := by
      rw [hmods]
      exact not_not.mpr honly
    rw [pressed_autoShifted cfg now hkey, if_pos (show arrived.enabled = true from henabled),
      autoshiftPress, if_neg hnot, if_neg (by simp [hrepeat])]
  have hstep : AutoShift.step cfg (Timed.event ⟨time, .key keycode true tapCount⟩) s =
      (if (AutoShift.pressed cfg keycode now arrived).1 then
        processAction cfg keycode true tapCount
          ((AutoShift.pressed cfg keycode now arrived).2.call (.passOn keycode true))
      else (AutoShift.pressed cfg keycode now arrived).2).call (.handled keycode true) := rfl
  rw [hstep, hpressed]
  exact ⟨rfl, rfl, by rw [← hmods]; rfl, htimeout, rfl, hon, Function.update_self ..⟩

end Waiting

section Runs

variable {cfg : Config} {events : List Timed}

theorem alternating_append {down : Keycode → Bool} (first second : List Event) :
    Alternating down (first ++ second) ↔
      Alternating down first ∧ Alternating (first.foldl downAfter down) second := by
  induction first generalizing down with
  | nil => simp [Alternating]
  | cons e first ih =>
    change _ ∧ Alternating _ (first ++ second) ↔ (_ ∧ Alternating _ first) ∧ _
    rw [ih, and_assoc]
    rfl

theorem stateAfter_append (first second : List Timed) :
    stateAfter cfg (first ++ second) =
      run cfg (stateAfter cfg first) (second.map Timed.event) := by
  rw [stateAfter, stateAfter, List.map_append, run, run, run, List.foldl_append]

theorem noneCancelled_stateAfter (hrepeat : cfg.autoShiftRepeat = false) (events : List Timed) :
    NoneCancelled (stateAfter cfg events) := by
  have hrun : ∀ (events : List Event) (s : State), NoneCancelled s →
      NoneCancelled (run cfg s events) := by
    intro events
    induction events with
    | nil => exact fun _ hs => hs
    | cons e events ih => exact fun s hs => ih _ (hs.step hrepeat e)
  exact hrun _ _ ⟨rfl, rfl⟩

def stampAfter (stamp : ℕ) (events : List Timed) : ℕ :=
  events.foldl (fun stamp e => if e.Releases then e.time else stamp) stamp

theorem Pending.run {keycode : Keycode} {leftShift : Bool} {timeout : BitVec 16} {stamp : ℕ}
    {down : Keycode → Bool} {s : State} (h : Pending keycode leftShift timeout stamp down s)
    (hrepeat : cfg.autoShiftRepeat = false) (hkey : GetAutoShiftedKey keycode)
    (halternates : Alternating down (events.map Timed.event))
    (hwaits : ∀ shifted, .autoshiftPressUser keycode shifted ∉
      trace cfg s (events.map Timed.event)) :
    Pending keycode leftShift timeout (stampAfter stamp events)
      ((events.map Timed.event).foldl downAfter down)
      (AutoShift.run cfg s (events.map Timed.event)) := by
  induction events generalizing stamp down s with
  | nil => exact h
  | cons e events ih =>
    have hquiet : decisions keycode (AutoShift.step cfg e.event s).calls = [] :=
      decisions_eq_nil.mpr fun shifted hcall =>
        hwaits shifted (List.mem_append_left _ hcall)
    rcases h.step hrepeat hkey ⟨halternates.1, trivial⟩ with hsettled | ⟨-, hnext⟩
    · rw [hquiet] at hsettled
      exact absurd hsettled (List.cons_ne_nil _ _).symm
    · exact ih hnext halternates.2 fun shifted hcall =>
        hwaits shifted (List.mem_append_right _ hcall)

/-- The last release of an auto-shift key decides whether the time is up. -/
theorem stampAfter_add_le {stamp timeout time : ℕ}
    (hstamp : ∀ e ∈ events, stamp ≤ e.time)
    (hsorted : events.Pairwise fun d e => d.time ≤ e.time) :
    stampAfter stamp events + timeout ≤ time ↔
      stamp + timeout ≤ time ∧ ∀ e ∈ events, e.Releases → e.time + timeout ≤ time := by
  induction events generalizing stamp with
  | nil => simp [stampAfter]
  | cons e events ih =>
    obtain ⟨hfirst, hrest⟩ := List.pairwise_cons.mp hsorted
    have hle : stamp ≤ e.time := hstamp e List.mem_cons_self
    rw [List.forall_mem_cons]
    by_cases hreleases : e.Releases
    · have hcons : stampAfter stamp (e :: events) = stampAfter e.time events := by
        rw [stampAfter, List.foldl_cons, if_pos hreleases]
        rfl
      rw [hcons, ih hfirst hrest]
      constructor
      · rintro ⟨htime, hlater⟩
        exact ⟨by omega, fun _ => htime, hlater⟩
      · rintro ⟨-, htime, hlater⟩
        exact ⟨htime hreleases, hlater⟩
    · have hcons : stampAfter stamp (e :: events) = stampAfter stamp events := by
        rw [stampAfter, List.foldl_cons, if_neg hreleases]
        rfl
      rw [hcons, ih (fun d hd => hstamp d (List.mem_cons_of_mem _ hd)) hrest]
      constructor
      · rintro ⟨htime, hlater⟩
        exact ⟨htime, fun hnot => absurd hnot hreleases, hlater⟩
      · rintro ⟨htime, -, hlater⟩
        exact ⟨htime, hlater⟩

theorem le_sub_ofNat {timeout : BitVec 16} {stamp time : ℕ} (hle : stamp ≤ time)
    (hshort : time < stamp + 65536) :
    timeout ≤ BitVec.ofNat 16 time - BitVec.ofNat 16 stamp ↔ stamp + timeout.toNat ≤ time := by
  rw [BitVec.le_def, BitVec.toNat_sub, BitVec.toNat_ofNat, BitVec.toNat_ofNat]
  omega

theorem Hold.shifted_eq (h : Hold cfg events) (hrepeat : cfg.autoShiftRepeat = false)
    (halternates : Alternating (fun _ => false) (events.map Timed.event)) :
    h.shifted = decidedAt (decide h.LeftShift) (stateAfter cfg h.before).autoshiftTimeout
      (stampAfter h.pressedAt h.between) (BitVec.ofNat 16 h.settling.time) := by
  rw [h.split, List.map_append, List.map_append, List.map_append, alternating_append,
    alternating_append, alternating_append, List.foldl_append, List.foldl_append,
    List.foldl_append] at halternates
  obtain ⟨⟨⟨-, -⟩, hbetween⟩, hsettling, -⟩ := halternates
  have hpress := pending_press hrepeat (noneCancelled_stateAfter hrepeat h.before) h.enabled
    h.autoShifted h.onlyLeft ((h.before.map Timed.event).foldl downAfter fun _ => false)
    h.tapCount h.pressedAt
  have hwaits := h.waits
  rw [stateAfter_append] at hwaits
  have hpending := hpress.run hrepeat h.autoShifted hbetween hwaits
  have hcall := mem_decisions.mpr h.settles
  rw [stateAfter_append, stateAfter_append] at hcall
  change h.shifted ∈ decisions h.keycode (AutoShift.step cfg h.settling.event (AutoShift.run cfg
    (AutoShift.step cfg (Timed.event ⟨h.pressedAt, .key h.keycode true h.tapCount⟩)
      (stateAfter cfg h.before)).toState (h.between.map Timed.event))).calls at hcall
  rcases hpending.step hrepeat h.autoShifted ⟨hsettling, trivial⟩ with hsettled | ⟨hnone, -⟩
  · rw [hsettled, List.mem_singleton] at hcall
    exact hcall
  · rw [hnone] at hcall
    exact absurd hcall List.not_mem_nil

theorem Hold.sorted (h : Hold cfg events) (hsorted : events.Pairwise fun d e => d.time ≤ e.time) :
    h.between.Pairwise (fun d e => d.time ≤ e.time) ∧ h.pressedAt ≤ h.settling.time ∧
      ∀ e ∈ h.between, h.pressedAt ≤ e.time ∧ e.time ≤ h.settling.time := by
  rw [h.split, List.pairwise_append, List.pairwise_append] at hsorted
  obtain ⟨⟨-, hbetween, hpress⟩, -, hsettling⟩ := hsorted
  have hmem : ⟨h.pressedAt, .key h.keycode true h.tapCount⟩ ∈
      h.before ++ [⟨h.pressedAt, .key h.keycode true h.tapCount⟩] :=
    List.mem_append_right _ (List.mem_singleton_self _)
  refine ⟨hbetween, ?_, ?_⟩
  · exact hsettling _ (List.mem_append_left _ hmem) _ List.mem_cons_self
  · rintro e he
    exact ⟨hpress _ hmem e he, hsettling e (List.mem_append_right _ he) _ List.mem_cons_self⟩

/-- A key that waits is pressed with shift exactly if the left shift was held at its press or its
hold time reaches the timeout, unless only the time from the release of another auto-shift key falls
short of the timeout. -/
theorem shifted_iff_duration_iff (hrepeat : cfg.autoShiftRepeat = false)
    (halternates : Alternating (fun _ => false) (events.map Timed.event))
    (hsorted : events.Pairwise fun d e => d.time ≤ e.time) (h : Hold cfg events) :
    (h.shifted = true ↔ h.LeftShift ∨ h.timeout ≤ h.duration) ↔
      h.LeftShift ∨ h.duration < h.timeout ∨
        ∀ e ∈ h.between, e.Releases → e.time + h.timeout ≤ h.settling.time := by
  have hshort := h.short
  obtain ⟨hbetween, hle, htimes⟩ := h.sorted hsorted
  have hiff (timeout time : ℕ) : stampAfter h.pressedAt h.between + timeout ≤ time ↔
      h.pressedAt + timeout ≤ time ∧ ∀ e ∈ h.between, e.Releases → e.time + timeout ≤ time :=
    stampAfter_add_le (fun e he => (htimes e he).1) hbetween
  have hstamp : stampAfter h.pressedAt h.between ≤ h.settling.time :=
    (hiff 0 _).mpr ⟨hle, fun e he _ => (htimes e he).2⟩
  have hpressed : h.pressedAt ≤ stampAfter h.pressedAt h.between := ((hiff 0 _).mp le_rfl).1
  rw [h.shifted_eq hrepeat halternates, decidedAt, Bool.or_eq_true, decide_eq_true_iff,
    decide_eq_true_iff, le_sub_ofNat hstamp (by omega), hiff]
  have hduration : h.timeout ≤ h.duration ↔ h.pressedAt + h.timeout ≤ h.settling.time := by
    unfold Hold.duration
    omega
  rw [← not_le, hduration]
  unfold Hold.timeout
  tauto

/-- A key is pressed while another one is down, which is released first. -/
def rolledOver : List Timed :=
  [⟨0, .key 0x05 true 0⟩, ⟨10, .key 0x04 true 0⟩, ⟨150, .key 0x05 false 0⟩,
    ⟨200, .key 0x04 false 0⟩]

theorem rolledOver_alternating : Alternating (fun _ => false) (rolledOver.map Timed.event) :=
  ⟨rfl, rfl, rfl, rfl, trivial⟩

/-- The key that is pressed last. -/
def rolledOverHold : Hold {} rolledOver where
  before := [⟨0, .key 0x05 true 0⟩]
  keycode := 0x04
  tapCount := 0
  pressedAt := 10
  between := [⟨150, .key 0x05 false 0⟩]
  settling := ⟨200, .key 0x04 false 0⟩
  rest := []
  shifted := false
  split := rfl
  enabled := rfl
  autoShifted := by decide
  onlyLeft := rfl
  waits := by decide
  settles := by decide
  short := by decide

theorem rolledOver_shifted_iff :
    (rolledOverHold.shifted = true ↔
      rolledOverHold.LeftShift ∨ rolledOverHold.timeout ≤ rolledOverHold.duration) ↔
    rolledOverHold.LeftShift ∨ rolledOverHold.duration < rolledOverHold.timeout ∨
      ∀ e ∈ rolledOverHold.between, e.Releases →
        e.time + rolledOverHold.timeout ≤ rolledOverHold.settling.time :=
  shifted_iff_duration_iff rfl rolledOver_alternating (by decide) rolledOverHold

theorem rolledOver_not_shifted : ¬ ∀ (cfg : Config) (events : List Timed),
    cfg.autoShiftRepeat = false → Alternating (fun _ => false) (events.map Timed.event) →
    (events.Pairwise fun d e => d.time ≤ e.time) → ∀ h : Hold cfg events,
      h.shifted = true ↔ h.LeftShift ∨ h.timeout ≤ h.duration := by
  intro hclaim
  have hdecides := hclaim {} rolledOver rfl rolledOver_alternating (by decide) rolledOverHold
  exact absurd (hdecides.mpr (Or.inr (by decide))) Bool.false_ne_true

end Runs

end Qmk.AutoShift
