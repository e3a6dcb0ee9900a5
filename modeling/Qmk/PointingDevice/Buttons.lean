import Mathlib.Data.List.Induction
import Qmk.PointingDevice

/-! # Held mouse buttons

Where the buttons of the last report are those that are held. A build in which a task takes the
buttons from the other half, or from `old_buttons`, loses them without the mouse keys.
-/

namespace Qmk.PointingDevice

open MouseKeys (Report HasMouseReportChanged)

section Held

def heldAfter (held : Fin 8 → Bool) : Call → Fin 8 → Bool
  | .registerMouse button pressed _ => Function.update held button pressed
  | _ => held

def held (calls : List Call) : Fin 8 → Bool := calls.foldl heldAfter fun _ => false

/-- The driver leaves the buttons that it is given. -/
def KeepsButtons (getReport : Report → Report) : Prop :=
  ∀ r, (getReport r).buttons = r.buttons

def Call.KeepsButtons : Call → Prop
  | .registerMouse _ _ _ => True
  | .share getReport => PointingDevice.KeepsButtons getReport
  | .task t => PointingDevice.KeepsButtons t.getReport

/-- Each button is pressed when it is up, and released when it is down. -/
def Alternates (held : Fin 8 → Bool) : List Call → Prop
  | [] => True
  | call :: calls =>
    (match call with
      | .registerMouse button pressed _ => held button = !pressed
      | _ => True) ∧ Alternates (heldAfter held call) calls

def lastButtons (s : State) : BitVec 8 := s.sent.getLast?.elim 0 (·.buttons)

variable (c : Config)

/-- The buttons of the last report are the buttons that are held. -/
def SendsHeld (calls : List Call) : Prop :=
  ∀ button : Fin 8, (lastButtons (run c calls)).getLsbD button = held calls button

/-- A build in which `gather` overwrites the buttons, and no mouse keys bring them back. -/
def Config.Overwrites : Prop :=
  c.mousekey = none ∧ (c.split = .combined ∨ c.thisSide = false)

instance : Decidable c.Overwrites := inferInstanceAs (Decidable (_ ∧ _))

/-- A task that reads a report while a button is held, in a build that overwrites the buttons. -/
def Drops (calls : List Call) (call : Call) : Prop :=
  c.Overwrites ∧ (∃ t, call = .task t ∧ t.due) ∧ ∃ button, held calls button

@[simp]
theorem held_append (calls : List Call) (call : Call) :
    held (calls ++ [call]) = heldAfter (held calls) call := by
  simp [held]

@[simp]
theorem run_append (calls : List Call) (call : Call) :
    run c (calls ++ [call]) = step c (run c calls) call := by
  simp [run]

end Held

section Reports

variable {c : Config} {s : State}

theorem lastButtons_send (h : lastButtons s = s.oldReport.buttons) :
    lastButtons (pointingDeviceSend s) = s.localReport.buttons := by
  simp only [pointingDeviceSend]
  split_ifs with hchanged
  · simp [lastButtons]
  · have heq : s.localReport.buttons = s.oldReport.buttons := by
      by_contra hne
      exact hchanged (Or.inl hne)
    exact h.trans heq.symm

@[simp]
theorem buttons_combine (left right : Report) :
    (pointingDeviceCombineReports c left right).buttons = left.buttons ||| right.buttons := rfl

theorem getLsbD_handleButtons (buttons : BitVec 8) (pressed : Bool) (button b : Fin 8) :
    (pointingDeviceHandleButtons buttons pressed button).getLsbD b =
      if b = button then pressed else buttons.getLsbD b := by
  have hbit : (1#8 <<< button.val).getLsbD b = decide (b = button) := by
    revert b button
    decide
  cases pressed with
  | true =>
    simp only [pointingDeviceHandleButtons, if_true, BitVec.getLsbD_or, hbit]
    by_cases hb : b = button <;> simp [hb]
  | false =>
    simp only [pointingDeviceHandleButtons, Bool.false_eq_true, if_false, BitVec.getLsbD_and,
      BitVec.getLsbD_not, hbit]
    by_cases hb : b = button <;> simp [hb]

end Reports

section Invariant

/-- The buttons in the variables, between two calls, where `buttons` are held. -/
structure Agrees (c : Config) (buttons : BitVec 8) (s : State) : Prop where
  localReport : s.localReport.buttons = buttons
  oldReport : s.oldReport.buttons = buttons
  last : lastButtons s = buttons
  sharedReport : s.sharedReport.buttons = 0
  oldButtons : s.oldButtons = 0
  mousekey : c.mousekey ≠ none → s.mousekey.report.buttons = buttons

variable {c : Config} {s : State} {buttons : BitVec 8}

theorem agrees_init : Agrees c 0 (State.init c) where
  localReport := rfl
  oldReport := rfl
  last := rfl
  sharedReport := rfl
  oldButtons := rfl
  mousekey := by
    intro h
    cases hmousekey : c.mousekey with
    | none => exact absurd hmousekey h
    | some build =>
      simp only [State.init, hmousekey, Option.elim_some]
      cases build <;> rfl

theorem agrees_send {s : State} (hlast : lastButtons s = s.oldReport.buttons)
    (hlocal : s.localReport.buttons = buttons) (hshared : s.sharedReport.buttons = 0)
    (hold : s.oldButtons = 0)
    (hmousekey : c.mousekey ≠ none → s.mousekey.report.buttons = buttons) :
    Agrees c buttons (pointingDeviceSend s) where
  localReport := by
    simp only [pointingDeviceSend]
    split_ifs <;> exact hlocal
  oldReport := by
    simp only [pointingDeviceSend]
    split_ifs <;> exact hlocal
  last := (lastButtons_send hlast).trans hlocal
  sharedReport := by
    simp only [pointingDeviceSend]
    split_ifs <;> exact hshared
  oldButtons := by
    simp only [pointingDeviceSend]
    split_ifs <;> exact hold
  mousekey := by
    simp only [pointingDeviceSend]
    split_ifs <;> exact hmousekey

theorem Agrees.registerMouse (h : Agrees c buttons s) (button : Fin 8) (pressed : Bool) (now : ℕ) :
    Agrees c (pointingDeviceHandleButtons buttons pressed button)
      (registerMouse c button pressed now s) := by
  have hlast : lastButtons s = s.oldReport.buttons := h.last.trans h.oldReport.symm
  unfold PointingDevice.registerMouse pointingDeviceKeycodeHandler
  cases hmousekey : c.mousekey with
  | none =>
    exact agrees_send hlast (congrArg (pointingDeviceHandleButtons · pressed button) h.localReport)
      h.sharedReport h.oldButtons fun hne => absurd hmousekey hne
  | some build =>
    refine agrees_send hlast
      (congrArg (pointingDeviceHandleButtons · pressed button) h.localReport) h.sharedReport
      h.oldButtons fun _ => ?_
    have hbuttons := h.mousekey (by simp [hmousekey])
    cases pressed with
    | true => exact (mousekey_on_button build button now s.mousekey).trans (by rw [hbuttons]; rfl)
    | false => exact (mousekey_off_button build button s.mousekey).trans (by rw [hbuttons]; rfl)

/-- The buttons that the local report has before those of the mouse keys are added. -/
def gatheredButtons (c : Config) (buttons : BitVec 8) : BitVec 8 :=
  if c.split = .combined ∨ c.thisSide = false then 0 else buttons

/-- What a task leaves unchanged before it sends, and the buttons of the local report. -/
structure Gathered (c : Config) (buttons : BitVec 8) (s s' : State) : Prop where
  localReport : s'.localReport.buttons = gatheredButtons c buttons
  oldReport : s'.oldReport = s.oldReport
  sent : s'.sent = s.sent
  sharedReport : s'.sharedReport.buttons = 0
  oldButtons : s'.oldButtons = 0
  mousekey : s'.mousekey = s.mousekey

theorem Agrees.gathered (h : Agrees c buttons s) {t : Task} (ht : KeepsButtons t.getReport) :
    Gathered c buttons s (adjust c (gather c t s)) := by
  have hside : ∀ split, c.split = split → split = .left ∨ split = .right →
      Gathered c buttons s (adjust c (gather c t s)) := by
    intro split hsplit hor
    have hlocal : (if c.thisSide = true then t.getReport s.localReport
        else s.sharedReport).buttons = gatheredButtons c buttons := by
      have hcombined : c.split ≠ .combined := by
        rcases hor with rfl | rfl <;> simp [hsplit]
      unfold gatheredButtons
      cases hthis : c.thisSide with
      | true => simp [hcombined, ht s.localReport, h.localReport]
      | false => simp [h.sharedReport]
    rcases hor with rfl | rfl <;> simp only [adjust, gather, hsplit] <;>
      exact ⟨by rw [buttons_adjust, hlocal], rfl, rfl, h.sharedReport, h.oldButtons, rfl⟩
  match hsplit : c.split with
  | .left => exact hside .left hsplit (Or.inl rfl)
  | .right => exact hside .right hsplit (Or.inr rfl)
  | .none =>
    have hgathered : gatheredButtons c buttons = buttons := by
      simp [gatheredButtons, Config.thisSide, hsplit]
    simp only [adjust, gather, hsplit]
    split_ifs
    · exact ⟨by rw [buttons_adjust, hgathered]; exact h.localReport, rfl, rfl, h.sharedReport,
        h.oldButtons, rfl⟩
    · exact ⟨by rw [buttons_adjust, hgathered, ht]; exact h.localReport, rfl, rfl, h.sharedReport,
        h.oldButtons, rfl⟩
  | .combined =>
    have hgathered : gatheredButtons c buttons = 0 := by
      simp [gatheredButtons, hsplit]
    have hread : (t.getReport { s.localReport with buttons := s.oldButtons }).buttons = 0 :=
      (ht _).trans h.oldButtons
    simp only [adjust, gather, hsplit]
    split_ifs <;>
      exact ⟨by simp [hgathered, hread, h.sharedReport], rfl, rfl,
        by simp [h.sharedReport], hread, rfl⟩

theorem Agrees.buttons_sending (h : Agrees c buttons s) {t : Task} (ht : KeepsButtons t.getReport) :
    (addMousekeys c (adjust c (gather c t s))).localReport.buttons =
      if c.Overwrites then 0 else buttons := by
  have hg := h.gathered ht
  unfold addMousekeys Config.Overwrites
  rcases Option.eq_none_or_eq_some c.mousekey with hmousekey | ⟨build, hmousekey⟩
  · simp only [hmousekey, hg.localReport, gatheredButtons, true_and]
  · have hbuttons := h.mousekey (by simp [hmousekey])
    simp only [hmousekey, hg.localReport, hg.mousekey, hbuttons, gatheredButtons, reduceCtorEq,
      false_and, if_false]
    split_ifs <;> simp

theorem addMousekeys_frame (s : State) : ∃ r, addMousekeys c s = { s with localReport := r } := by
  unfold addMousekeys
  cases c.mousekey with
  | none => exact ⟨s.localReport, rfl⟩
  | some build => exact ⟨_, rfl⟩

theorem Agrees.send_task (h : Agrees c buttons s) {t : Task} (ht : KeepsButtons t.getReport)
    {sending : BitVec 8}
    (hlocal : (addMousekeys c (adjust c (gather c t s))).localReport.buttons = sending) :
    lastButtons (pointingDeviceSend (addMousekeys c (adjust c (gather c t s)))) = sending ∧
      (sending = buttons →
        Agrees c buttons (pointingDeviceSend (addMousekeys c (adjust c (gather c t s))))) := by
  have hg := h.gathered ht
  obtain ⟨r, hr⟩ := addMousekeys_frame (c := c) (adjust c (gather c t s))
  have hlast : lastButtons (addMousekeys c (adjust c (gather c t s))) =
      (addMousekeys c (adjust c (gather c t s))).oldReport.buttons := by
    simp only [hr, lastButtons, hg.sent, hg.oldReport]
    exact h.last.trans h.oldReport.symm
  refine ⟨(lastButtons_send hlast).trans hlocal, ?_⟩
  rintro rfl
  refine agrees_send hlast hlocal ?_ ?_ ?_
  · simp only [hr, hg.sharedReport]
  · simp only [hr, hg.oldButtons]
  · intro hmousekey
    simp only [hr, hg.mousekey]
    exact h.mousekey hmousekey

theorem Agrees.task (h : Agrees c buttons s) {t : Task} (ht : KeepsButtons t.getReport)
    (hkept : t.due → ¬ c.Overwrites ∨ buttons = 0) :
    Agrees c buttons (pointingDeviceTask c t s) := by
  unfold pointingDeviceTask
  split_ifs with hdue
  · refine (h.send_task ht (h.buttons_sending ht)).2 ?_
    rcases hkept hdue with hbuild | rfl
    · exact if_neg hbuild
    · exact ite_self _
  · exact h

end Invariant

section Runs

variable {c : Config} {calls : List Call} {call : Call}

def HoldsButtons (c : Config) (calls : List Call) : Prop :=
  ∃ buttons : BitVec 8, (∀ button : Fin 8, buttons.getLsbD button = held calls button) ∧
    Agrees c buttons (run c calls)

theorem HoldsButtons.sendsHeld (h : HoldsButtons c calls) : SendsHeld c calls := by
  obtain ⟨buttons, hheld, hagrees⟩ := h
  intro button
  rw [hagrees.last, hheld]

theorem holdsButtons_nil : HoldsButtons c [] :=
  ⟨0, fun _ => BitVec.getLsbD_zero, agrees_init⟩

theorem HoldsButtons.step (h : HoldsButtons c calls) (hcall : call.KeepsButtons)
    (hdrops : ¬ Drops c calls call) : HoldsButtons c (calls ++ [call]) := by
  obtain ⟨buttons, hheld, hagrees⟩ := h
  unfold HoldsButtons
  rw [held_append, run_append]
  match call, hcall with
  | .registerMouse button pressed now, _ =>
    refine ⟨pointingDeviceHandleButtons buttons pressed button, ?_,
      hagrees.registerMouse button pressed now⟩
    intro b
    rw [getLsbD_handleButtons, heldAfter, Function.update_apply, hheld]
  | .share getReport, hcall =>
    exact ⟨buttons, hheld, hagrees.localReport, hagrees.oldReport, hagrees.last, hcall emptyReport,
      hagrees.oldButtons, hagrees.mousekey⟩
  | .task t, hcall =>
    refine ⟨buttons, hheld, hagrees.task hcall fun hdue => ?_⟩
    by_contra hnot
    obtain ⟨hbuild, hne⟩ := not_or.mp hnot
    refine hdrops ⟨not_not.mp hbuild, ⟨t, rfl, hdue⟩, ?_⟩
    by_contra hnone
    refine hne (BitVec.eq_of_getLsbD_eq fun i hi => ?_)
    have hup : held calls ⟨i, hi⟩ = false := by
      simpa using not_exists.mp hnone ⟨i, hi⟩
    exact ((hheld ⟨i, hi⟩).trans hup).trans BitVec.getLsbD_zero.symm

theorem HoldsButtons.not_sendsHeld (h : HoldsButtons c calls) (hcall : call.KeepsButtons)
    (hdrops : Drops c calls call) : ¬ SendsHeld c (calls ++ [call]) := by
  obtain ⟨buttons, hheld, hagrees⟩ := h
  obtain ⟨hbuild, ⟨t, rfl, hdue⟩, button, hbutton⟩ := hdrops
  intro hsends
  have hlast : lastButtons (run c (calls ++ [.task t])) = 0 := by
    rw [run_append, PointingDevice.step, pointingDeviceTask, if_pos hdue]
    exact (hagrees.send_task hcall ((hagrees.buttons_sending hcall).trans (if_pos hbuild))).1
  have hsent : (0 : BitVec 8).getLsbD button = true := by
    rw [← hlast, hsends button, held_append]
    exact hbutton
  exact Bool.false_ne_true (BitVec.getLsbD_zero.symm.trans hsent)

theorem holdsButtons_run (hkeeps : ∀ call ∈ calls, call.KeepsButtons)
    (hdrops : ∀ before call, before ++ [call] <+: calls → ¬ Drops c before call) :
    HoldsButtons c calls := by
  induction calls using List.reverseRecOn with
  | nil => exact holdsButtons_nil
  | append_singleton calls call ih =>
    have hcalls := ih (fun call' h => hkeeps call' (List.mem_append_left _ h))
      fun before call' h => hdrops before call' (h.trans (List.prefix_append calls [call]))
    exact hcalls.step (hkeeps call (by simp)) (hdrops calls call (List.prefix_refl _))

/-- After every call of a run the last report has the buttons that are held, exactly if no task of
the run drops them. -/
theorem sendsHeld_iff (c : Config) (calls : List Call)
    (hkeeps : ∀ call ∈ calls, call.KeepsButtons) :
    (∀ before, before <+: calls → SendsHeld c before) ↔
      ∀ before call, before ++ [call] <+: calls → ¬ Drops c before call := by
  constructor
  · induction calls using List.reverseRecOn with
    | nil =>
      intro _ before call hbefore
      simp at hbefore
    | append_singleton calls last ih =>
      intro hsends before call hbefore
      have hkeeps' : ∀ call ∈ calls, call.KeepsButtons := fun call' h =>
        hkeeps call' (List.mem_append_left _ h)
      have hcalls := ih hkeeps' fun p hp => hsends p (hp.trans (List.prefix_append calls [last]))
      rcases List.prefix_concat_iff.mp hbefore with heq | hprefix
      · obtain ⟨rfl, hlast⟩ := List.append_inj' heq rfl
        obtain rfl : call = last := List.singleton_inj.mp hlast
        intro hdrops
        exact (holdsButtons_run hkeeps' hcalls).not_sendsHeld (hkeeps call (by simp)) hdrops
          (hsends _ (List.prefix_refl _))
      · exact hcalls before call hprefix
  · intro hdrops before hbefore
    refine (holdsButtons_run ?_ ?_).sendsHeld
    · exact fun call hcall => hkeeps call (hbefore.subset hcall)
    · exact fun before' call h => hdrops before' call (h.trans hbefore)

/-- A button is held, and the task of a master without mouse keys reads the left half. -/
def heldOverTask : List Call := [.registerMouse 0 true 0, .task ⟨true, true, id⟩]

theorem keepsButtons_heldOverTask : ∀ call ∈ heldOverTask, call.KeepsButtons := by
  simp [heldOverTask, Call.KeepsButtons, KeepsButtons]

theorem sendsHeld_iff_heldOverTask :
    let c : Config := { mousekey := none, split := .left, keyboardLeft := true }
    (∀ before, before <+: heldOverTask → SendsHeld c before) ↔
      ∀ before call, before ++ [call] <+: heldOverTask → ¬ Drops c before call :=
  sendsHeld_iff _ heldOverTask keepsButtons_heldOverTask

/-- With `POINTING_DEVICE_COMBINED` and without mouse keys, a task releases a held button. -/
theorem heldOverTask_dropped : ¬ ∀ (c : Config) (calls : List Call),
    (∀ call ∈ calls, call.KeepsButtons) → Alternates (fun _ => false) calls →
      SendsHeld c calls := by
  intro h
  have hsends := h { mousekey := none, split := .combined, keyboardLeft := true } heldOverTask
    keepsButtons_heldOverTask ⟨rfl, trivial, trivial⟩ 0
  revert hsends
  decide

end Runs

end Qmk.PointingDevice
