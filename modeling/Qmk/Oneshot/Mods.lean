import Mathlib.Data.Fintype.Pi
import Mathlib.Data.List.FinRange
import Qmk.Monitor

/-! # One-shot modifiers

The modifiers that `OSM` keys leave pending in `oneshot_mods`, and the keyboard reports that take
them, with one-shot enabled and without a timeout. The reports hold six keys.
-/

namespace Qmk.Oneshot.Mods

abbrev reportKeys : ℕ := 6

structure Report where
  mods : BitVec 8 := 0
  keys : Fin reportKeys → BitVec 8 := fun _ => 0
  deriving DecidableEq

/-- The statics of `action_util.c` and of `send_6kro_report`. -/
structure State where
  realMods : BitVec 8 := 0
  weakMods : BitVec 8 := 0
  oneshotMods : BitVec 8 := 0
  oneshotLockedMods : BitVec 8 := 0
  keyboardReport : Report := {}
  lastReport : Report := {}
  deriving DecidableEq

/-- The state in an event, with the reports that went to the host so far. -/
structure Processing extends State where
  sent : List Report := []
  deriving DecidableEq

section Reports

def hasAnykey (keys : Fin reportKeys → BitVec 8) : ℕ :=
  (List.finRange reportKeys).countP fun i => keys i ≠ 0

def IsKeyPressed (code : BitVec 8) (keys : Fin reportKeys → BitVec 8) : Prop :=
  code ≠ 0 ∧ ∃ i, keys i = code

instance (code : BitVec 8) (keys : Fin reportKeys → BitVec 8) :
    Decidable (IsKeyPressed code keys) :=
  inferInstanceAs (Decidable (_ ∧ _))

/-- `add_key_byte`. Without an empty place the key is dropped. -/
def addKeyByte (code : BitVec 8) (keys : Fin reportKeys → BitVec 8) :
    Fin reportKeys → BitVec 8 :=
  if ∃ i, keys i = code then keys
  else
    match (List.finRange reportKeys).find? fun i => keys i = 0 with
    | some empty => Function.update keys empty code
    | none => keys

def delKeyByte (code : BitVec 8) (keys : Fin reportKeys → BitVec 8) :
    Fin reportKeys → BitVec 8 :=
  fun i => if keys i = code then 0 else keys i

def Processing.addKey (code : BitVec 8) (s : Processing) : Processing :=
  { s with keyboardReport.keys := addKeyByte code s.keyboardReport.keys }

def Processing.delKey (code : BitVec 8) (s : Processing) : Processing :=
  { s with keyboardReport.keys := delKeyByte code s.keyboardReport.keys }

end Reports

section ActionUtil

def addMods (mods : BitVec 8) (s : Processing) : Processing :=
  { s with realMods := s.realMods ||| mods }

def delMods (mods : BitVec 8) (s : Processing) : Processing :=
  { s with realMods := s.realMods &&& ~~~mods }

def addOneshotMods (mods : BitVec 8) (s : Processing) : Processing :=
  if s.oneshotMods &&& mods ≠ mods then { s with oneshotMods := s.oneshotMods ||| mods } else s

def delOneshotMods (mods : BitVec 8) (s : Processing) : Processing :=
  if s.oneshotMods &&& mods ≠ 0 then { s with oneshotMods := s.oneshotMods &&& ~~~mods } else s

def clearOneshotMods (s : Processing) : Processing :=
  if s.oneshotMods ≠ 0 then { s with oneshotMods := 0 } else s

def delOneshotLockedMods (mods : BitVec 8) (s : Processing) : Processing :=
  if s.oneshotLockedMods &&& mods ≠ 0 then
    { s with oneshotLockedMods := s.oneshotLockedMods &&& ~~~mods }
  else s

def getModsForReport (s : Processing) : BitVec 8 × Processing :=
  let mods := s.realMods ||| s.weakMods
  if s.oneshotMods ≠ 0 then
    (mods ||| s.oneshotMods,
      if hasAnykey s.keyboardReport.keys ≠ 0 then clearOneshotMods s else s)
  else (mods, s)

def send6kroReport (s : Processing) : Processing :=
  let (mods, s) := getModsForReport s
  let s := { s with keyboardReport.mods := mods }
  if s.keyboardReport ≠ s.lastReport then
    { s with lastReport := s.keyboardReport, sent := s.sent ++ [s.keyboardReport] }
  else s

end ActionUtil

section ProcessAction

abbrev Basic := {code : BitVec 8 // 0x04 ≤ code ∧ code ≤ 0xA4}

def registerCode (code : Basic) (s : Processing) : Processing :=
  let s :=
    if IsKeyPressed code s.keyboardReport.keys then send6kroReport (s.delKey code) else s
  send6kroReport (s.addKey code)

def unregisterCode (code : Basic) (s : Processing) : Processing :=
  send6kroReport (s.delKey code)

def registerMods (mods : BitVec 8) (s : Processing) : Processing :=
  if mods ≠ 0 then send6kroReport (addMods mods s) else s

def unregisterMods (mods : BitVec 8) (s : Processing) : Processing :=
  if mods ≠ 0 then send6kroReport (delMods mods s) else s

/-- The action of a key: `MODS_ONESHOT` with its four modifiers, of the left or of the right hand,
and the tap count of the record, or a basic keycode. -/
inductive Action
  | osm (right : Bool) (mods : BitVec 4) (tapCount : ℕ)
  | basic (code : Basic)
  deriving DecidableEq

def modsByte (right : Bool) (mods : BitVec 4) : BitVec 8 :=
  if right then mods.setWidth 8 <<< 4 else mods.setWidth 8

/-- The case `MODS_ONESHOT`, without `ONESHOT_TAP_TOGGLE`. -/
def modsOneshot (mods : BitVec 8) (tapCount : ℕ) (pressed : Bool) (s : Processing) :
    Processing :=
  if pressed then
    if tapCount = 0 then registerMods mods s
    else if tapCount = 1 then addOneshotMods mods s
    else s
  else if tapCount = 0 then
    delOneshotLockedMods mods (delOneshotMods mods (unregisterMods mods s))
  else s

structure Event where
  key : ℕ
  action : Action
  pressed : Bool
  deriving DecidableEq

def processAction (e : Event) (s : State) : Processing :=
  match e.action with
  | .osm right mods tapCount =>
    modsOneshot (modsByte right mods) tapCount e.pressed { toState := s }
  | .basic code =>
    if e.pressed then registerCode code { toState := s }
    else unregisterCode code { toState := s }

def run (s : State) (events : List Event) : State :=
  events.foldl (fun s e => (processAction e s).toState) s

end ProcessAction

section Specification

/-- An `OSM` key is tapped, not held. -/
def Event.Tapped (e : Event) : Prop :=
  match e.action with
  | .osm _ _ tapCount => 0 < tapCount
  | .basic _ => True

/-- The presses and releases of each key alternate, `down` being the keys that are down. -/
def Alternating (down : ℕ → Option Action) : List Event → Prop
  | [] => True
  | e :: events =>
    down e.key = (if e.pressed then none else some e.action) ∧
      Alternating (Function.update down e.key (if e.pressed then some e.action else none)) events

def Report.Shows (code : BitVec 8) (r : Report) : Prop := ∃ i, r.keys i = code

instance (code : BitVec 8) (r : Report) : Decidable (r.Shows code) :=
  inferInstanceAs (Decidable (∃ _, _))

/-- What is pending before a press of `code` is in the first report that shows the key, and is not
pending afterwards. -/
structure Applied (code : BitVec 8) (s : State) (t : Processing) : Prop where
  first : ∃ r, t.sent.find? (fun r => r.Shows code) = some r ∧ s.oneshotMods &&& r.mods =
    s.oneshotMods
  consumed : t.oneshotMods = 0

/-- What is pending goes to the press of a basic key, and outlasts every other event. -/
def AppliesOnce (s : State) (e : Event) : Prop :=
  s.oneshotMods ≠ 0 →
    match e.action, e.pressed with
    | .basic code, true => Applied code s (processAction e s)
    | _, _ => s.oneshotMods &&& (processAction e s).oneshotMods = s.oneshotMods

def Alone (code : BitVec 8) (r : Report) : Prop := ∀ i, r.keys i ≠ 0 → r.keys i = code

instance (code : BitVec 8) (r : Report) : Decidable (Alone code r) :=
  inferInstanceAs (Decidable (∀ _, _))

/-- The events that find no other key in the report, as far as modifiers are pending: a release,
and a press of a key that is in the report. Another press finds an empty place. -/
def undisturbed : Monitor Event State where
  next s e := (processAction e s).toState
  ok s e := s.oneshotMods ≠ 0 →
    match e.action with
    | .osm _ _ _ => True
    | .basic code =>
      if e.pressed ∧ ¬ s.keyboardReport.Shows code then ∃ i, s.keyboardReport.keys i = 0
      else Alone code s.keyboardReport

instance (s : State) : ∀ e, Decidable (undisturbed.ok s e)
  | ⟨_, .osm _ _ _, _⟩ => inferInstanceAs (Decidable (_ → True))
  | ⟨_, .basic code, pressed⟩ => inferInstanceAs (Decidable (_ →
      if pressed ∧ ¬ s.keyboardReport.Shows code then ∃ i, s.keyboardReport.keys i = 0
      else Alone code s.keyboardReport))

end Specification

section Keys

variable {code : BitVec 8} {keys : Fin reportKeys → BitVec 8}

theorem hasAnykey_eq_zero_iff : hasAnykey keys = 0 ↔ ∀ i, keys i = 0 := by
  simp [hasAnykey, List.countP_eq_zero]

theorem addKeyByte_shows (code : BitVec 8) (h : ∃ i, keys i = 0) :
    ∃ i, addKeyByte code keys i = code := by
  unfold addKeyByte
  split_ifs with hheld
  · exact hheld
  · obtain ⟨i, hi⟩ := h
    cases hempty : (List.finRange reportKeys).find? fun i => keys i = 0 with
    | none => exact absurd hi (by simpa using List.find?_eq_none.mp hempty i (List.mem_finRange i))
    | some empty => exact ⟨empty, Function.update_self ..⟩

theorem addKeyByte_full (hheld : ¬ ∃ i, keys i = code) (hfull : ¬ ∃ i, keys i = 0) :
    addKeyByte code keys = keys := by
  have hempty : ((List.finRange reportKeys).find? fun i => keys i = 0) = none := by
    rw [List.find?_eq_none]
    rintro i - hi
    exact hfull ⟨i, of_decide_eq_true hi⟩
  rw [addKeyByte, if_neg hheld, hempty]

theorem delKeyByte_ne (hcode : code ≠ 0) (i : Fin reportKeys) : delKeyByte code keys i ≠ code := by
  unfold delKeyByte
  split_ifs with hi
  · exact hcode.symm
  · exact hi

theorem delKeyByte_eq_zero {i : Fin reportKeys} (hi : keys i = code) :
    delKeyByte code keys i = 0 := if_pos hi

theorem hasAnykey_delKeyByte : hasAnykey (delKeyByte code keys) = 0 ↔
    ∀ i, keys i ≠ 0 → keys i = code := by
  rw [hasAnykey_eq_zero_iff]
  apply forall_congr'
  intro i
  unfold delKeyByte
  split_ifs with hi
  · exact iff_of_true rfl fun _ => hi
  · exact ⟨fun hzero hne => absurd hzero hne, fun h => not_not.mp fun hne => hi (h hne)⟩

end Keys

section Sending

variable {s : Processing} {code : Basic}

theorem Basic.ne_zero (code : Basic) : code.val ≠ 0 := by
  intro h
  exact absurd (h ▸ code.property.1) (by decide)

def Processing.report (s : Processing) : Report where
  mods := s.realMods ||| s.weakMods ||| s.oneshotMods
  keys := s.keyboardReport.keys

theorem getModsForReport_eq (s : Processing) :
    getModsForReport s = (s.report.mods,
      { s with
        oneshotMods := if hasAnykey s.keyboardReport.keys = 0 then s.oneshotMods else 0 }) := by
  obtain ⟨⟨real, weak, pending, locked, report, last⟩, sent⟩ := s
  by_cases hpending : pending = 0
  · subst hpending
    simp [getModsForReport, Processing.report]
  · by_cases hany : hasAnykey report.keys = 0
    · simp only [getModsForReport, if_pos hpending, hany, ne_eq, not_true_eq_false, if_false,
        if_true]
      rfl
    · simp only [getModsForReport, clearOneshotMods, if_pos hpending, if_pos hany, if_neg hany]
      rfl

theorem send6kroReport_eq (s : Processing) : send6kroReport s =
    { s with
      oneshotMods := if hasAnykey s.keyboardReport.keys = 0 then s.oneshotMods else 0
      keyboardReport := s.report
      lastReport := s.report
      sent := s.sent ++ if s.report = s.lastReport then [] else [s.report] } := by
  rw [send6kroReport, getModsForReport_eq]
  change (if s.report ≠ s.lastReport then _ else _) = _
  by_cases hsame : s.report = s.lastReport
  · rw [if_neg (not_not.mpr hsame), if_pos hsame, List.append_nil, ← hsame]
    rfl
  · rw [if_pos hsame, if_neg hsame]
    rfl

theorem mem_sent {r : Report} (h : r ∈ (send6kroReport s).sent) : r ∈ s.sent ∨ r = s.report := by
  rw [send6kroReport_eq] at h
  rcases List.mem_append.mp h with hbefore | hnew
  · exact Or.inl hbefore
  · split_ifs at hnew
    · exact absurd hnew List.not_mem_nil
    · exact Or.inr (List.mem_singleton.mp hnew)

/-- Between two events of tapped keys. -/
structure Idle (s : State) : Prop where
  realMods : s.realMods = 0
  weakMods : s.weakMods = 0
  keys : s.lastReport.keys = s.keyboardReport.keys

theorem Idle.init : Idle {} := ⟨rfl, rfl, rfl⟩

theorem Idle.send (hreal : s.realMods = 0) (hweak : s.weakMods = 0) :
    Idle (send6kroReport s).toState := by
  rw [send6kroReport_eq]
  exact ⟨hreal, hweak, rfl⟩

end Sending

section Events

variable {s : State} {code : Basic} {e : Event}

theorem isKeyPressed_iff : IsKeyPressed code s.keyboardReport.keys ↔
    s.keyboardReport.Shows code :=
  and_iff_right (Basic.ne_zero code)

theorem send_addKey {u : Processing} (hreal : u.realMods = 0) (hweak : u.weakMods = 0)
    (hlast : u.lastReport.keys = u.keyboardReport.keys) (hnot : ¬ u.keyboardReport.Shows code)
    (hroom : ∃ i, u.keyboardReport.keys i = 0) :
    (send6kroReport (u.addKey code)).oneshotMods = 0 ∧
      ∃ r : Report, (send6kroReport (u.addKey code)).sent = u.sent ++ [r] ∧ r.Shows code ∧
        r.mods = u.oneshotMods := by
  obtain ⟨i, hi⟩ := addKeyByte_shows code.val hroom
  have hany : hasAnykey (u.addKey code).keyboardReport.keys ≠ 0 := fun hzero =>
    Basic.ne_zero code (hi.symm.trans (hasAnykey_eq_zero_iff.mp hzero i))
  have hchanged : (u.addKey code).report ≠ (u.addKey code).lastReport := by
    intro hsame
    have hkeys : addKeyByte code u.keyboardReport.keys = u.lastReport.keys :=
      congrArg Report.keys hsame
    exact hnot ⟨i, by rw [← hlast, ← hkeys, hi]⟩
  rw [send6kroReport_eq, if_neg hany, if_neg hchanged]
  refine ⟨rfl, _, rfl, ⟨i, hi⟩, ?_⟩
  change u.realMods ||| u.weakMods ||| u.oneshotMods = u.oneshotMods
  simp [hreal, hweak]

theorem send_delKey (hs : Idle s) (hshows : s.keyboardReport.Shows code) :
    ∃ r : Report, (send6kroReport (Processing.delKey code { toState := s })).sent = [r] ∧
      ¬ r.Shows code ∧
      (send6kroReport (Processing.delKey code { toState := s })).keyboardReport = r ∧
      r.keys = delKeyByte code s.keyboardReport.keys := by
  obtain ⟨i, hi⟩ := hshows
  have hchanged : (Processing.delKey code { toState := s }).report ≠ s.lastReport := by
    intro hsame
    have hkeys : delKeyByte code s.keyboardReport.keys = s.lastReport.keys :=
      congrArg Report.keys hsame
    exact delKeyByte_ne (Basic.ne_zero code) i ((congrFun (hkeys.trans hs.keys) i).trans hi)
  refine ⟨(Processing.delKey code { toState := s }).report, ?_, ?_, ?_, rfl⟩
  · rw [send6kroReport_eq]
    exact congrArg (_ ++ ·) (if_neg hchanged)
  · rintro ⟨j, hj⟩
    exact delKeyByte_ne (Basic.ne_zero code) j hj
  · rw [send6kroReport_eq]

theorem oneshotMods_delKey (s : State) (code : Basic) :
    (send6kroReport (Processing.delKey code { toState := s })).oneshotMods =
      if Alone code s.keyboardReport then s.oneshotMods else 0 := by
  rw [send6kroReport_eq]
  exact if_congr hasAnykey_delKeyByte rfl rfl

theorem find?_applied {t : Processing} (rs : List Report) {r : Report}
    (hsent : t.sent = rs ++ [r]) (hnot : ∀ q ∈ rs, ¬ q.Shows code) (hshows : r.Shows code)
    (hconsumed : t.oneshotMods = 0) :
    Applied code s t ↔ s.oneshotMods &&& r.mods = s.oneshotMods := by
  have hfind : t.sent.find? (fun r => r.Shows code) = some r := by
    have hnone : rs.find? (fun r => r.Shows code) = none := by
      simpa using hnot
    rw [hsent, List.find?_append, hnone]
    simpa using hshows
  constructor
  · rintro ⟨⟨q, hq, hmods⟩, -⟩
    rwa [Option.some_injective _ (hfind.symm.trans hq)]
  · intro hmods
    exact ⟨⟨r, hfind, hmods⟩, hconsumed⟩

theorem applied_new (hs : Idle s) (hnot : ¬ s.keyboardReport.Shows code) :
    Applied code s (registerCode code { toState := s }) ↔ ∃ i, s.keyboardReport.keys i = 0 := by
  rw [registerCode, if_neg (mt isKeyPressed_iff.mp hnot)]
  by_cases hroom : ∃ i, s.keyboardReport.keys i = 0
  · obtain ⟨hconsumed, r, hsent, hshows, hmods⟩ := send_addKey (u := { toState := s })
      hs.realMods hs.weakMods hs.keys hnot hroom
    rw [find?_applied [] hsent (by simp) hshows hconsumed, hmods]
    exact iff_of_true (BitVec.and_self ..) hroom
  · refine iff_of_false ?_ hroom
    rintro ⟨⟨r, hfind, -⟩, -⟩
    have hshows : r.Shows code := by simpa using List.find?_some hfind
    have hkeys : (Processing.addKey code { toState := s }).report.keys = s.keyboardReport.keys :=
      addKeyByte_full hnot hroom
    obtain hnone | rfl := mem_sent (List.mem_of_find?_eq_some hfind)
    · exact absurd hnone List.not_mem_nil
    · exact hnot (by simpa [Report.Shows, hkeys] using hshows)

/-- A press whose key is in the report, which is sent without the key first. -/
theorem applied_again (hs : Idle s) (hpending : s.oneshotMods ≠ 0)
    (hshows : s.keyboardReport.Shows code) :
    Applied code s (registerCode code { toState := s }) ↔ Alone code s.keyboardReport := by
  obtain ⟨q, hsent, hnot, hreport, hkeys⟩ := send_delKey hs hshows
  have hleft := oneshotMods_delKey s code
  have hidle : Idle (send6kroReport (Processing.delKey code { toState := s })).toState :=
    Idle.send hs.realMods hs.weakMods
  rw [registerCode, if_pos (isKeyPressed_iff.mpr hshows)]
  set u := send6kroReport (Processing.delKey code { toState := s }) with hu
  obtain ⟨i, hi⟩ := hshows
  have hroom : ∃ i, u.keyboardReport.keys i = 0 :=
    ⟨i, by rw [hreport, hkeys, delKeyByte_eq_zero hi]⟩
  obtain ⟨hconsumed, r, hsent', hshows', hmods⟩ := send_addKey hidle.realMods hidle.weakMods
    hidle.keys (hreport ▸ hnot) hroom
  rw [find?_applied u.sent hsent' (by simpa [hsent] using hnot) hshows' hconsumed, hmods,
    hleft]
  split_ifs with halone
  · exact iff_of_true (BitVec.and_self ..) halone
  · exact iff_of_false (fun hzero => hpending (by simpa using hzero.symm)) halone

theorem unregisterCode_iff (hpending : s.oneshotMods ≠ 0) :
    s.oneshotMods &&& (unregisterCode code { toState := s }).oneshotMods = s.oneshotMods ↔
      Alone code s.keyboardReport := by
  rw [unregisterCode, oneshotMods_delKey]
  split_ifs with halone
  · exact iff_of_true (BitVec.and_self ..) halone
  · exact iff_of_false (fun hzero => hpending (by simpa using hzero.symm)) halone

theorem modsOneshot_tapped (s : State) (mods : BitVec 8) {tapCount : ℕ}
    (htapped : 0 < tapCount) (pressed : Bool) :
    ∃ added, modsOneshot mods tapCount pressed { toState := s } =
      { toState := { s with oneshotMods := s.oneshotMods ||| added } } := by
  have hkept : ∃ added, ({ toState := s } : Processing) =
      { toState := { s with oneshotMods := s.oneshotMods ||| added } } :=
    ⟨0, by rw [show s.oneshotMods ||| 0 = s.oneshotMods from BitVec.or_zero]⟩
  rw [modsOneshot, if_neg htapped.ne', if_neg htapped.ne']
  split_ifs with hpressed hfirst
  · unfold addOneshotMods
    split_ifs
    · exact ⟨mods, rfl⟩
    · exact hkept
  · exact hkept
  · exact hkept

theorem Idle.processAction (hs : Idle s) (htapped : e.Tapped) :
    Idle (processAction e s).toState := by
  obtain ⟨key, action, pressed⟩ := e
  cases action with
  | osm right mods tapCount =>
    obtain ⟨added, heq⟩ := modsOneshot_tapped s (modsByte right mods) htapped pressed
    change Idle (modsOneshot _ _ _ _).toState
    rw [heq]
    exact ⟨hs.realMods, hs.weakMods, hs.keys⟩
  | basic code =>
    cases pressed with
    | false => exact Idle.send hs.realMods hs.weakMods
    | true =>
      change Idle (registerCode code { toState := s }).toState
      unfold registerCode
      split_ifs
      · have hdeleted : Idle (send6kroReport (Processing.delKey code { toState := s })).toState :=
          Idle.send hs.realMods hs.weakMods
        exact Idle.send hdeleted.realMods hdeleted.weakMods
      · exact Idle.send hs.realMods hs.weakMods

theorem appliesOnce_iff (hs : Idle s) (htapped : e.Tapped) :
    AppliesOnce s e ↔ undisturbed.ok s e := by
  apply forall_congr'
  intro hpending
  obtain ⟨key, action, pressed⟩ := e
  cases action with
  | osm right mods tapCount =>
    obtain ⟨added, heq⟩ := modsOneshot_tapped s (modsByte right mods) htapped pressed
    refine iff_of_true ?_ trivial
    change s.oneshotMods &&& (modsOneshot _ _ _ _).oneshotMods = s.oneshotMods
    rw [heq]
    ext i
    simp +contextual
  | basic code =>
    cases pressed with
    | false =>
      simp only [Bool.false_eq_true, false_and, if_false]
      exact unregisterCode_iff hpending
    | true =>
      by_cases hshows : s.keyboardReport.Shows code
      · simp only [hshows, not_true_eq_false, and_false, if_false]
        exact applied_again hs hpending hshows
      · simp only [hshows, not_false_eq_true, and_true, if_true]
        exact applied_new hs hshows

theorem Idle.run (hs : Idle s) {events : List Event} (htapped : ∀ e ∈ events, e.Tapped) :
    Idle (run s events) := by
  induction events generalizing s with
  | nil => exact hs
  | cons e events ih =>
    exact ih (hs.processAction (htapped e List.mem_cons_self))
      fun e' he' => htapped e' (List.mem_cons_of_mem _ he')

/-- Exactly another key in the report takes a pending modifier away from the next press, when a key
is released or pressed again, and a full report does. -/
theorem run_appliesOnce_iff (events : List Event) (htapped : ∀ e ∈ events, e.Tapped) :
    (∀ pre e post, events = pre ++ e :: post → AppliesOnce (run {} pre) e) ↔
      undisturbed.Accepts {} events := by
  apply Monitor.accepts_iff_events (M := undisturbed) (P := AppliesOnce)
  rintro pre e post rfl
  apply appliesOnce_iff
  · exact Idle.init.run fun e' he' => htapped e' (List.mem_append_left _ he')
  · exact htapped e (List.mem_append_right _ List.mem_cons_self)

def keyA : Action := .basic ⟨0x04, by decide⟩

def keyB : Action := .basic ⟨0x05, by decide⟩

/-- A tapped `OSM(MOD_LSFT)`. -/
def osmShift : Action := .osm false 0b0010 1

/-- The modifier is tapped while the first key is held, and goes to the second one. -/
def tappedInBetween : List Event :=
  [⟨0, keyA, true⟩, ⟨2, osmShift, true⟩, ⟨2, osmShift, false⟩, ⟨0, keyA, false⟩, ⟨1, keyB, true⟩]

theorem tappedInBetween_appliesOnce : (run {} (tappedInBetween.take 4)).oneshotMods = 0b0010 ∧
    ∀ pre e post, tappedInBetween = pre ++ e :: post → AppliesOnce (run {} pre) e := by
  have htapped : ∀ e ∈ tappedInBetween, e.Tapped := by
    simp [tappedInBetween, Event.Tapped, keyA, keyB, osmShift]
  exact ⟨by decide, (run_appliesOnce_iff tappedInBetween htapped).mpr (by decide)⟩

/-- The modifier is tapped while two keys are held, and gone when the first of them is released. -/
def tappedOverTwo : List Event :=
  [⟨0, keyA, true⟩, ⟨1, keyB, true⟩, ⟨2, osmShift, true⟩, ⟨2, osmShift, false⟩, ⟨0, keyA, false⟩]

theorem tappedOverTwo_not_appliesOnce : ¬ ∀ events, Alternating (fun _ => none) events →
    (∀ e ∈ events, e.Tapped) →
    ∀ pre e post, events = pre ++ e :: post → AppliesOnce (run {} pre) e := by
  intro h
  have halternating : Alternating (fun _ => none) tappedOverTwo :=
    ⟨rfl, rfl, rfl, rfl, rfl, trivial⟩
  have htapped : ∀ e ∈ tappedOverTwo, e.Tapped := by
    simp [tappedOverTwo, Event.Tapped, keyA, keyB, osmShift]
  have hlast := h tappedOverTwo halternating htapped (tappedOverTwo.take 4) ⟨0, keyA, false⟩ [] rfl
  have hkept : 0x02#8 &&& 0#8 = 0x02#8 := hlast (by decide)
  exact absurd hkept (by decide)

end Events

end Qmk.Oneshot.Mods
