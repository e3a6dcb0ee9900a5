import Qmk.AutoShift

/-! # Auto Shift presses every key once and in order

Without `AUTO_SHIFT_REPEAT`. The presses that are handled while Auto Shift is enabled form a queue,
and `autoshift_press_user` takes the first of them. At most one press is in the queue between two
events, that of the key that waits.
-/

namespace Qmk.AutoShift

/-- The presses that `autoshift_press_user` is still to be called for, in their order, and the codes
that Auto Shift has registered. -/
structure Owed where
  presses : List Keycode := []
  registered : BitVec 8 → Bool := fun _ => false

/-- The calls that take the first press that is owed, owe none when a press is passed on, and owe
none of a key, and do not hold it registered, when its release has been handled. -/
def delivery : Monitor Call Owed where
  next q
    | .arrives keycode true true =>
      if GetAutoShiftedKey keycode then { q with presses := q.presses ++ [keycode] } else q
    | .autoshiftPressUser keycode _ =>
      { presses := q.presses.tail
        registered := Function.update q.registered (lowByte keycode) true }
    | .unregisterCode code => { q with registered := Function.update q.registered code false }
    | _ => q
  ok q
    | .autoshiftPressUser keycode _ => q.presses.head? = some keycode
    | .passOn _ true => q.presses = []
    | .handled keycode false => GetAutoShiftedKey keycode →
        keycode ∉ q.presses ∧ q.registered (lowByte keycode) = false
    | _ => True

/-- The press that a call makes due. -/
def Call.due : Call → List Keycode
  | .arrives keycode true true => if GetAutoShiftedKey keycode then [keycode] else []
  | _ => []

def Call.pressed : Call → List Keycode
  | .autoshiftPressUser keycode _ => [keycode]
  | _ => []

theorem presses_append_due_step {q : Owed} {c : Call} (h : delivery.ok q c) :
    q.presses ++ c.due = c.pressed ++ (delivery.next q c).presses := by
  cases c with
  | arrives keycode press enabled =>
    cases press <;> cases enabled
    · exact List.append_nil _
    · exact List.append_nil _
    · exact List.append_nil _
    · change q.presses ++ (if GetAutoShiftedKey keycode then [keycode] else []) =
        Owed.presses (if GetAutoShiftedKey keycode then
          { q with presses := q.presses ++ [keycode] } else q)
      split_ifs
      · rfl
      · exact List.append_nil _
  | autoshiftPressUser keycode shifted =>
    obtain ⟨rest, hpresses⟩ := List.head?_eq_some_iff.mp h
    change q.presses ++ [] = keycode :: q.presses.tail
    rw [List.append_nil, hpresses, List.tail_cons]
  | _ => exact List.append_nil _

/-- Accepted calls press the keys that are due, each once and in order, up to those still owed. -/
theorem presses_append_due {q : Owed} {calls : List Call} (h : delivery.Accepts q calls) :
    q.presses ++ calls.flatMap Call.due =
      calls.flatMap Call.pressed ++ (delivery.after q calls).presses := by
  induction calls generalizing q with
  | nil => simp
  | cons c calls ih =>
    calc q.presses ++ (c :: calls).flatMap Call.due
        = (q.presses ++ c.due) ++ calls.flatMap Call.due := by
          rw [List.flatMap_cons, List.append_assoc]
      _ = c.pressed ++ ((delivery.next q c).presses ++ calls.flatMap Call.due) := by
          rw [presses_append_due_step h.1, List.append_assoc]
      _ = (c :: calls).flatMap Call.pressed ++ (delivery.after q (c :: calls)).presses := by
          rw [ih h.2, List.flatMap_cons, List.append_assoc, Monitor.after_cons]

section Queue

variable {q : Owed} {down : Keycode → Bool} {presses : List Keycode} {calls : List Call}
  {keycode : Keycode}

/-- The calls are accepted, and leave these presses owed, and only keys that are down registered. -/
structure Kept (q : Owed) (down : Keycode → Bool) (presses : List Keycode) (calls : List Call) :
    Prop where
  accepted : delivery.Accepts q calls
  presses : (delivery.after q calls).presses = presses
  registered : ∀ code, (delivery.after q calls).registered code = true →
    ∃ keycode, GetAutoShiftedKey keycode ∧ lowByte keycode = code ∧ down keycode = true

theorem Kept.mono {down' : Keycode → Bool} (h : Kept q down presses calls)
    (hdown : ∀ keycode, GetAutoShiftedKey keycode → down keycode = true → down' keycode = true) :
    Kept q down' presses calls := by
  refine ⟨h.accepted, h.presses, ?_⟩
  rintro code hcode
  obtain ⟨k, hk, hlow, hd⟩ := h.registered code hcode
  exact ⟨k, hk, hlow, hdown k hk hd⟩

theorem Kept.unseen {c : Call} (h : Kept q down presses calls)
    (hok : delivery.ok (delivery.after q calls) c)
    (hnext : ∀ r, delivery.next r c = r) : Kept q down presses (calls ++ [c]) := by
  have hafter : delivery.after q (calls ++ [c]) = delivery.after q calls := by
    rw [Monitor.after_append]
    exact hnext _
  refine ⟨?_, hafter ▸ h.presses, hafter ▸ h.registered⟩
  rw [Monitor.accepts_append]
  exact ⟨h.accepted, hok, trivial⟩

theorem Kept.arrives (h : Kept q down presses calls) (keycode : Keycode) (press enabled : Bool) :
    Kept q down (if GetAutoShiftedKey keycode ∧ press = true ∧ enabled = true then
      presses ++ [keycode] else presses) (calls ++ [.arrives keycode press enabled]) := by
  by_cases howed : GetAutoShiftedKey keycode ∧ press = true ∧ enabled = true
  · obtain ⟨hkey, rfl, rfl⟩ := howed
    have hafter : delivery.after q (calls ++ [.arrives keycode true true]) =
        { delivery.after q calls with
          presses := (delivery.after q calls).presses ++ [keycode] } := by
      rw [Monitor.after_append]
      exact if_pos hkey
    refine ⟨?_, ?_, ?_⟩
    · rw [Monitor.accepts_append]
      exact ⟨h.accepted, trivial, trivial⟩
    · rw [hafter, h.presses, if_pos ⟨hkey, rfl, rfl⟩]
    · rw [hafter]
      exact h.registered
  · rw [if_neg howed]
    have hafter : delivery.after q (calls ++ [.arrives keycode press enabled]) =
        delivery.after q calls := by
      rw [Monitor.after_append]
      cases press <;> cases enabled
      · rfl
      · rfl
      · rfl
      · exact if_neg fun hkey => howed ⟨hkey, rfl, rfl⟩
    refine ⟨?_, hafter ▸ h.presses, hafter ▸ h.registered⟩
    rw [Monitor.accepts_append]
    exact ⟨h.accepted, by cases press <;> cases enabled <;> trivial, trivial⟩

theorem Kept.pressCalls (h : Kept q down (keycode :: presses) calls)
    (hkey : GetAutoShiftedKey keycode) (hdown : down keycode = true) (shifted : Bool) :
    Kept q down presses (calls ++ pressCalls keycode shifted) := by
  have hafter : delivery.after q (calls ++ AutoShift.pressCalls keycode shifted) =
      ⟨(delivery.after q calls).presses.tail,
        Function.update (delivery.after q calls).registered (lowByte keycode) true⟩ := by
    rw [Monitor.after_append]
    rfl
  refine ⟨?_, ?_, ?_⟩
  · rw [Monitor.accepts_append]
    refine ⟨h.accepted, ?_, trivial, trivial⟩
    change (delivery.after q calls).presses.head? = some keycode
    rw [h.presses]
    rfl
  · rw [hafter, h.presses]
    rfl
  · rw [hafter]
    rintro code hcode
    by_cases hlow : lowByte keycode = code
    · exact ⟨keycode, hkey, hlow, hdown⟩
    · exact h.registered code (by simpa [Function.update_of_ne (Ne.symm hlow)] using hcode)

theorem Kept.unregisterCode (h : Kept q down presses calls) (code : BitVec 8) :
    Kept q down presses (calls ++ [.unregisterCode code]) ∧
      (delivery.after q (calls ++ [.unregisterCode code])).registered code = false := by
  have hafter : delivery.after q (calls ++ [.unregisterCode code]) =
      { delivery.after q calls with
        registered := Function.update (delivery.after q calls).registered code false } := by
    rw [Monitor.after_append]
    rfl
  refine ⟨⟨?_, ?_, ?_⟩, ?_⟩
  · rw [Monitor.accepts_append]
    exact ⟨h.accepted, trivial, trivial⟩
  · rw [hafter, h.presses]
  · rw [hafter]
    rintro other hother
    by_cases heq : other = code
    · subst heq
      simp at hother
    · exact h.registered other (by simpa [Function.update_of_ne heq] using hother)
  · rw [hafter]
    exact Function.update_self ..

/-- Once the code of a key is unregistered, the key may go up. -/
theorem Kept.goesUp (h : Kept q down presses calls)
    (hcode : GetAutoShiftedKey keycode →
      (delivery.after q calls).registered (lowByte keycode) = false) :
    Kept q (Function.update down keycode false) presses calls := by
  refine ⟨h.accepted, h.presses, ?_⟩
  rintro code hregistered
  obtain ⟨k, hk, hlow, hdown⟩ := h.registered code hregistered
  have hne : k ≠ keycode := by
    rintro rfl
    rw [← hlow, hcode hk] at hregistered
    exact Bool.noConfusion hregistered
  exact ⟨k, hk, hlow, by rwa [Function.update_of_ne hne]⟩

theorem Kept.releaseCalls (h : Kept q down presses calls) (keycode : Keycode) (shifted : Bool) :
    Kept q down presses (calls ++ releaseCalls keycode shifted) ∧
      (delivery.after q (calls ++ AutoShift.releaseCalls keycode shifted)).registered
        (lowByte keycode) = false := by
  have hsplit : calls ++ AutoShift.releaseCalls keycode shifted =
      calls ++ [.autoshiftReleaseUser keycode shifted] ++ [.unregisterCode (lowByte keycode)] := by
    rw [List.append_assoc]
    rfl
  rw [hsplit]
  have hunseen : Kept q down presses (calls ++ [.autoshiftReleaseUser keycode shifted]) :=
    h.unseen trivial fun _ => rfl
  exact hunseen.unregisterCode _

theorem Kept.handledPress (h : Kept q down presses calls) :
    Kept q down presses (calls ++ [.handled keycode true]) :=
  h.unseen trivial fun _ => rfl

theorem Kept.handledRelease (h : Kept q down presses calls)
    (hkey : GetAutoShiftedKey keycode → keycode ∉ presses ∧
      (delivery.after q calls).registered (lowByte keycode) = false) :
    Kept q (Function.update down keycode false) presses (calls ++ [.handled keycode false]) := by
  apply Kept.unseen
  · exact h.goesUp fun hshifted => (hkey hshifted).2
  · intro hshifted
    rw [h.presses]
    exact hkey hshifted
  · intro r
    rfl

end Queue

section Steps

variable {cfg : Config} {q : Owed} {down : Keycode → Bool} {presses : List Keycode}
  {s : Processing} {keycode : Keycode} {now : BitVec 16}

/-- The press that the queue has between two events. -/
def State.waiting (s : State) : List Keycode := if s.inProgress then [s.autoshiftLastkey] else []

theorem State.waiting_of_idle {s : State} (h : s.inProgress = false) : s.waiting = [] :=
  if_neg (by simp [h])

theorem Kept.idle {s : State} {calls : List Call} (hs : s.inProgress = false)
    (h : Kept q down [] calls) : Kept q down s.waiting calls := by
  rwa [State.waiting_of_idle hs]

theorem Kept.settle (now : BitVec 16) (hrepeat : cfg.autoShiftRepeat = false)
    (h : Kept q down (s.autoshiftLastkey :: presses) s.calls) (hwaits : Waits down s.toState)
    (hend : s.inProgress ∧ (keycode = s.autoshiftLastkey ∨ keycode = 0)) (trigger : Bool) :
    Kept q down presses (autoshiftEnd cfg keycode now trigger s).calls ∧
      (delivery.after q (autoshiftEnd cfg keycode now trigger s).calls).registered
        (lowByte s.autoshiftLastkey) = false := by
  obtain ⟨-, -, -, hcalls⟩ := autoshiftEnd_waiting cfg now trigger hend
  obtain ⟨-, hkey, hdown⟩ := hwaits hend.1
  rw [hcalls, if_neg (by simp [hrepeat])]
  exact (h.pressCalls hkey hdown (s.shiftedAt now)).releaseCalls _ (s.shiftedAt now)

theorem Kept.settleBefore (now : BitVec 16) (hrepeat : cfg.autoShiftRepeat = false)
    (h : Kept q down (s.waiting ++ presses) s.calls) (hwaits : Waits down s.toState) :
    Kept q down presses (s.settled cfg now).calls := by
  unfold State.waiting at h
  unfold Processing.settled
  split_ifs with hin
  · rw [if_pos hin] at h
    exact (Kept.settle now hrepeat h hwaits ⟨hin, Or.inr rfl⟩ false).1
  · rwa [if_neg hin] at h

theorem Kept.autoshiftPress (now : BitVec 16) (hrepeat : cfg.autoShiftRepeat = false)
    (h : Kept q down [keycode] s.calls) (hkey : GetAutoShiftedKey keycode)
    (hdown : down keycode = true) (henabled : s.enabled = true) (hidle : s.inProgress = false) :
    Kept q down (autoshiftPress cfg keycode now s).waiting
        (autoshiftPress cfg keycode now s).calls ∧
      Waits down (autoshiftPress cfg keycode now s).toState := by
  unfold AutoShift.autoshiftPress
  by_cases hmods : s.realMods &&& ~~~lshift ≠ 0
  · rw [if_pos hmods]
    refine ⟨?_, waits_of_idle hidle⟩
    rw [calls_autoshiftPressUser]
    exact Kept.idle hidle (h.pressCalls hkey hdown false)
  · rw [if_neg hmods, if_neg (by simp [hrepeat])]
    exact ⟨h, fun _ => ⟨henabled, hkey, hdown⟩⟩

theorem Kept.pressed (now : BitVec 16) (hrepeat : cfg.autoShiftRepeat = false)
    (h : Kept q down (s.waiting ++
      if GetAutoShiftedKey keycode ∧ s.enabled = true then [keycode] else []) s.calls)
    (hwaits : Waits down s.toState) :
    Kept q (Function.update down keycode true) (pressed cfg keycode now s).2.waiting
        (pressed cfg keycode now s).2.calls ∧
      Waits (Function.update down keycode true) (pressed cfg keycode now s).2.toState ∧
      ((pressed cfg keycode now s).1 = true →
        (pressed cfg keycode now s).2.inProgress = false) := by
  have hsettled := Kept.settleBefore now hrepeat h hwaits
  have hidle := inProgress_settled cfg now s
  have hdown : ∀ k, GetAutoShiftedKey k → down k = true →
      Function.update down keycode true k = true :=
    fun k _ hk => update_true_of_down keycode hk
  by_cases hkey : GetAutoShiftedKey keycode
  · have hkept := hsettled.mono hdown
    rw [pressed_autoShifted cfg now hkey]
    split_ifs with henabled
    · rw [if_pos ⟨hkey, henabled⟩] at hkept
      obtain ⟨hpress, hwaits'⟩ := Kept.autoshiftPress now hrepeat hkept hkey
        (Function.update_self ..) ((enabled_settled cfg now s).trans henabled) hidle
      exact ⟨hpress, hwaits', False.elim⟩
    · rw [if_neg fun hboth => henabled hboth.2] at hkept
      exact ⟨hkept.idle hidle, waits_of_idle hidle, fun _ => hidle⟩
  · -- a press that is passed on is owed nothing
    rw [if_neg fun hboth => hkey hboth.1] at hsettled
    obtain ⟨last, hpassed⟩ := pressed_other cfg now hkey s
    obtain ⟨hin, -, hcalls⟩ := modeKey_keys keycode (s.settled cfg now)
    have hmode : (modeKey keycode (s.settled cfg now)).inProgress = false := hin.trans hidle
    rw [hpassed]
    refine ⟨Kept.idle hmode ?_, waits_of_idle hmode, fun _ => hmode⟩
    rcases hcalls with hsame | hreport
    · exact hsame ▸ hsettled.mono hdown
    · exact hreport ▸ (hsettled.mono hdown).unseen trivial fun _ => rfl

theorem Kept.released (keycode : Keycode) (now : BitVec 16) (hrepeat : cfg.autoShiftRepeat = false)
    (h : Kept q down s.waiting s.calls) (hwaits : Waits down s.toState) :
    Kept q down (released cfg keycode now s).2.waiting (released cfg keycode now s).2.calls ∧
      Waits down (released cfg keycode now s).2.toState ∧
      (GetAutoShiftedKey keycode → keycode ∉ (released cfg keycode now s).2.waiting) ∧
      ((released cfg keycode now s).1 = false → GetAutoShiftedKey keycode →
        (delivery.after q (released cfg keycode now s).2.calls).registered
          (lowByte keycode) = false) := by
  by_cases hkey : GetAutoShiftedKey keycode
  · rw [released_autoShifted cfg now hkey]
    split_ifs with henabled
    · by_cases hend : s.inProgress ∧ (keycode = s.autoshiftLastkey ∨ keycode = 0)
      · obtain ⟨-, hidle, -⟩ := autoshiftEnd_waiting cfg now false hend
        have hlast : keycode = s.autoshiftLastkey := hend.2.resolve_right hkey.ne_zero
        rw [State.waiting, if_pos hend.1] at h
        obtain ⟨hsettled, hregistered⟩ := Kept.settle now hrepeat h hwaits hend false
        refine ⟨hsettled.idle hidle, waits_of_idle hidle, fun _ => ?_, fun _ _ => ?_⟩
        · rw [State.waiting_of_idle hidle]
          exact List.not_mem_nil
        · nth_rewrite 2 [hlast]
          exact hregistered
      · obtain ⟨hsame, hin, hlast, shifted, hcalls⟩ := autoshiftEnd_other cfg now false hend
        have hwaiting : (autoshiftEnd cfg keycode now false s).waiting = s.waiting := by
          rw [State.waiting, State.waiting, hin, hlast]
        obtain ⟨hreleased, hregistered⟩ := h.releaseCalls keycode shifted
        refine ⟨?_, ?_, fun _ => ?_, fun _ _ => ?_⟩
        · rwa [hwaiting, hcalls]
        · unfold Waits
          rw [hin, hsame, hlast]
          exact hwaits
        · rw [hwaiting, State.waiting]
          split_ifs with hwaits'
          · exact fun hmem => hend ⟨hwaits', Or.inl (List.mem_singleton.mp hmem)⟩
          · exact List.not_mem_nil
        · rwa [hcalls]
    · have hidle : s.inProgress = false := by
        by_contra hin
        exact henabled (hwaits (eq_true_of_ne_false hin)).1
      refine ⟨h, hwaits, fun _ => ?_, False.elim⟩
      rw [State.waiting_of_idle hidle]
      exact List.not_mem_nil
  · have hdone (t : Processing) (hsame : SameKeys s t) :
        Kept q down t.waiting t.calls ∧ Waits down t.toState := by
      constructor
      · rw [State.waiting, hsame.inProgress, hsame.lastkey, hsame.calls]
        exact h
      · unfold Waits
        rw [hsame.inProgress, hsame.enabled, hsame.lastkey]
        exact hwaits
    rcases released_other cfg now hkey s with ⟨-, hr⟩ | ⟨-, hr⟩ | ⟨-, hr⟩
    all_goals
      rw [hr]
      obtain ⟨hkept, hwaits'⟩ := hdone _ ⟨rfl, rfl, rfl, rfl⟩
      exact ⟨hkept, hwaits', fun hshifted => absurd hshifted hkey,
        fun _ hshifted => absurd hshifted hkey⟩

theorem Kept.processAction (cfg : Config) (keycode : Keycode) (h : Kept q down presses s.calls)
    (press : Bool) (tapCount : ℕ) :
    Kept q down presses (processAction cfg keycode press tapCount s).calls ∧
      (press = false → GetAutoShiftedKey keycode →
        (delivery.after q (AutoShift.processAction cfg keycode press tapCount s).calls).registered
          (lowByte keycode) = false) := by
  rcases processAction_calls cfg keycode press tapCount s with
    ⟨code, hcode, hcalls⟩ | ⟨hkey, hcalls⟩
  · rw [hcalls]
    cases press with
    | true =>
      exact ⟨h.unseen trivial fun _ => rfl, fun hfalse => absurd hfalse.symm Bool.false_ne_true⟩
    | false =>
      refine ⟨(h.unregisterCode code).1, fun _ hkey => ?_⟩
      rw [← hcode hkey]
      exact (h.unregisterCode code).2
  · rw [hcalls]
    exact ⟨h, fun _ hkey' => absurd hkey' hkey⟩

theorem waiting_processAction (cfg : Config) (keycode : Keycode) (press : Bool) (tapCount : ℕ)
    (s : Processing) :
    (processAction cfg keycode press tapCount s).waiting = s.waiting := by
  obtain ⟨-, hin, hlast⟩ := processAction_keys cfg keycode press tapCount s
  rw [State.waiting, State.waiting, hin, hlast]

theorem Waits.processAction (cfg : Config) (keycode : Keycode) (h : Waits down s.toState)
    (press : Bool) (tapCount : ℕ) :
    Waits down (processAction cfg keycode press tapCount s).toState := by
  obtain ⟨henabled, hin, hlast⟩ := processAction_keys cfg keycode press tapCount s
  unfold Waits
  rw [henabled, hin, hlast]
  exact h

theorem Waits.goesUp {s : State} (h : Waits down s)
    (hkey : GetAutoShiftedKey keycode → keycode ∉ s.waiting) :
    Waits (Function.update down keycode false) s := by
  intro hin
  obtain ⟨henabled, hlast, hdown⟩ := h hin
  have hne : s.autoshiftLastkey ≠ keycode := by
    rintro rfl
    exact hkey hlast (by rw [State.waiting, if_pos hin]; exact List.mem_singleton_self _)
  exact ⟨henabled, hlast, by rwa [Function.update_of_ne hne]⟩

theorem Kept.scan {s : State} (hrepeat : cfg.autoShiftRepeat = false)
    (h : Kept q down s.waiting []) (hwaits : Waits down s) :
    Kept q down (step cfg (.scan now) s).waiting (step cfg (.scan now) s).calls ∧
      Waits down (step cfg (.scan now) s).toState := by
  change Kept q down (autoshiftMatrixScan cfg now { toState := s }).waiting
    (autoshiftMatrixScan cfg now { toState := s }).calls ∧
    Waits down (autoshiftMatrixScan cfg now { toState := s }).toState
  unfold autoshiftMatrixScan
  by_cases hout : s.inProgress ∧ TimedOut now { toState := s }
  · rw [if_pos hout]
    rw [State.waiting, if_pos hout.1] at h
    have hend : s.inProgress ∧ (s.autoshiftLastkey = s.autoshiftLastkey ∨ s.autoshiftLastkey = 0) :=
      ⟨hout.1, Or.inl rfl⟩
    obtain ⟨-, hidle, -⟩ := autoshiftEnd_waiting (s := { toState := s }) cfg now true hend
    obtain ⟨hsettled, -⟩ := Kept.settle (s := { toState := s }) now hrepeat h hwaits hend true
    exact ⟨hsettled.idle hidle, waits_of_idle hidle⟩
  · rw [if_neg hout]
    exact ⟨h, hwaits⟩

theorem Kept.press {s : State} (hrepeat : cfg.autoShiftRepeat = false) (tapCount : ℕ)
    (h : Kept q down s.waiting []) (hwaits : Waits down s) :
    Kept q (Function.update down keycode true) (step cfg (.key keycode true tapCount now) s).waiting
        (step cfg (.key keycode true tapCount now) s).calls ∧
      Waits (Function.update down keycode true)
        (step cfg (.key keycode true tapCount now) s).toState := by
  have harrived : Kept q down (s.waiting ++
      if GetAutoShiftedKey keycode ∧ s.enabled = true then [keycode] else [])
      [.arrives keycode true s.enabled] := by
    have harrives := h.arrives keycode true s.enabled
    simp only [true_and] at harrives
    split_ifs at harrives ⊢
    · exact harrives
    · rwa [List.append_nil]
  obtain ⟨hkept, hwaits', hidle⟩ := Kept.pressed now hrepeat
    (s := Processing.call (.arrives keycode true s.enabled) { toState := s }) harrived hwaits
  set r := AutoShift.pressed cfg keycode now
    (Processing.call (.arrives keycode true s.enabled) { toState := s }) with hr
  have hstep : step cfg (.key keycode true tapCount now) s =
      (if r.1 then
        AutoShift.processAction cfg keycode true tapCount (r.2.call (.passOn keycode true))
      else r.2).call (.handled keycode true) := rfl
  rw [hstep]
  cases hfurther : r.1 with
  | false => exact ⟨hkept.handledPress, hwaits'⟩
  | true =>
    rw [State.waiting_of_idle (hidle hfurther)] at hkept
    have hpassed : Kept q (Function.update down keycode true) []
        (r.2.call (.passOn keycode true)).calls :=
      hkept.unseen hkept.presses fun _ => rfl
    refine ⟨(hpassed.processAction cfg keycode true tapCount).1.handledPress.idle ?_, ?_⟩
    · exact (processAction_keys cfg keycode true tapCount _).2.1.trans (hidle hfurther)
    · exact Waits.processAction (s := r.2.call (.passOn keycode true)) cfg keycode hwaits' true
        tapCount

theorem Kept.release {s : State} (hrepeat : cfg.autoShiftRepeat = false) (tapCount : ℕ)
    (h : Kept q down s.waiting []) (hwaits : Waits down s) :
    Kept q (Function.update down keycode false)
        (step cfg (.key keycode false tapCount now) s).waiting
        (step cfg (.key keycode false tapCount now) s).calls ∧
      Waits (Function.update down keycode false)
        (step cfg (.key keycode false tapCount now) s).toState := by
  have harrived : Kept q down s.waiting [.arrives keycode false s.enabled] := by
    have harrives := h.arrives keycode false s.enabled
    rwa [if_neg (by simp)] at harrives
  obtain ⟨hkept, hwaits', hnot, hregistered⟩ := Kept.released keycode now hrepeat
    (s := Processing.call (.arrives keycode false s.enabled) { toState := s }) harrived hwaits
  set r := AutoShift.released cfg keycode now
    (Processing.call (.arrives keycode false s.enabled) { toState := s }) with hr
  have hstep : step cfg (.key keycode false tapCount now) s =
      (if r.1 then
        AutoShift.processAction cfg keycode false tapCount (r.2.call (.passOn keycode false))
      else r.2).call (.handled keycode false) := rfl
  rw [hstep]
  cases hfurther : r.1 with
  | false =>
    exact ⟨hkept.handledRelease fun hkey => ⟨hnot hkey, hregistered hfurther hkey⟩,
      Waits.goesUp hwaits' hnot⟩
  | true =>
    have hpassed : Kept q down r.2.waiting (r.2.call (.passOn keycode false)).calls :=
      hkept.unseen trivial fun _ => rfl
    obtain ⟨hacted, hcode⟩ := hpassed.processAction cfg keycode false tapCount
    have hwaiting : (AutoShift.processAction cfg keycode false tapCount
        (r.2.call (.passOn keycode false))).waiting = r.2.waiting :=
      waiting_processAction cfg keycode false tapCount _
    refine ⟨?_, ?_⟩
    · have hhandled := hacted.handledRelease fun hkey => ⟨hnot hkey, hcode rfl hkey⟩
      rw [← hwaiting] at hhandled
      exact hhandled
    · apply Waits.goesUp
      · exact Waits.processAction (s := r.2.call (.passOn keycode false)) cfg keycode hwaits' false
          tapCount
      · intro hkey
        exact hwaiting ▸ hnot hkey

theorem Kept.step {s : State} (hrepeat : cfg.autoShiftRepeat = false) (e : Event)
    (h : Kept q down s.waiting []) (hwaits : Waits down s) :
    Kept q (downAfter down e) (step cfg e s).waiting (step cfg e s).calls ∧
      Waits (downAfter down e) (step cfg e s).toState := by
  match e with
  | .scan now => exact h.scan hrepeat hwaits
  | .key keycode true tapCount now => exact h.press hrepeat tapCount hwaits
  | .key keycode false tapCount now => exact h.release hrepeat tapCount hwaits

end Steps

section Runs

variable {cfg : Config}

theorem trace_delivers (hrepeat : cfg.autoShiftRepeat = false) {q : Owed} {down : Keycode → Bool}
    {s : State} (events : List Event) (h : Kept q down s.waiting []) (hwaits : Waits down s) :
    delivery.Accepts q (trace cfg s events) ∧
      (delivery.after q (trace cfg s events)).presses = (run cfg s events).waiting := by
  induction events generalizing q down s with
  | nil => exact ⟨trivial, h.presses⟩
  | cons e events ih =>
    obtain ⟨hkept, hwaits'⟩ := h.step hrepeat e hwaits
    obtain ⟨haccepted, hpresses⟩ := ih ⟨trivial, hkept.presses, hkept.registered⟩ hwaits'
    rw [trace, Monitor.accepts_append, Monitor.after_append]
    exact ⟨⟨hkept.accepted, haccepted⟩, hpresses⟩

/-- Every press that is handled while Auto Shift is enabled gets one call of `autoshift_press_user`,
in the order of the presses, before its own release is over and before another press is passed on,
and no key outlasts its release. All that is still due is the key that waits. -/
theorem start_delivers (hrepeat : cfg.autoShiftRepeat = false) (events : List Event) :
    delivery.Accepts {} (trace cfg (start cfg) events) ∧
      (trace cfg (start cfg) events).flatMap Call.due =
        (trace cfg (start cfg) events).flatMap Call.pressed ++
          (run cfg (start cfg) events).waiting := by
  have hnone : Kept {} (fun _ => false) (start cfg).waiting [] :=
    ⟨trivial, rfl, fun _ hcode => absurd hcode Bool.false_ne_true⟩
  obtain ⟨haccepted, hpresses⟩ := trace_delivers hrepeat events hnone (waits_of_idle rfl)
  exact ⟨haccepted, hpresses ▸ presses_append_due haccepted⟩

/-- Two keys roll, and the second one is held until the timeout. -/
def rolled : List Event :=
  [.key 0x04 true 0 0, .key 0x05 true 0 100, .key 0x04 false 0 150, .scan 300,
    .key 0x05 false 0 320]

theorem rolled_delivers : delivery.Accepts {} (trace {} (start {}) rolled) ∧
    (trace {} (start {}) rolled).flatMap Call.due =
      (trace {} (start {}) rolled).flatMap Call.pressed ++ (run {} (start {}) rolled).waiting :=
  start_delivers rfl rolled

end Runs

end Qmk.AutoShift
