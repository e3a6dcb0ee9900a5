import Mathlib.Algebra.GroupWithZero.Nat
import Mathlib.Data.List.Infix
import Qmk.DeferredExec.Nested

/-! # The times of executors

The clock of the executors wraps, and the times here do not. As every delay is below half of the
clock's range, an executor that is not due is never taken for one that is late.
-/

namespace Qmk.DeferredExec

section Model

/-- A call of a callback with its trigger time. The executors are numbered as they are deferred. -/
structure Invocation where
  executor : ℕ
  triggerTime : BitVec 32
  time : ℕ
  deriving DecidableEq, Repr

def timesInvoked (log : List Invocation) (executor : ℕ) : ℕ :=
  log.countP fun v => v.executor = executor

/-- A call at a time of a clock that does not wrap. Another table may take a token in between. -/
inductive Call
  | defer (delay : BitVec 32)
  | cancel (token : BitVec 8)
  | elsewhere (token : BitVec 8)
  | task
  deriving DecidableEq, Repr

structure Event where
  time : ℕ
  call : Call
  deriving DecidableEq, Repr

/-- A table with the times and the delays of what was deferred, and what has been called. -/
structure Schedule (n : ℕ) where
  table : Table n ℕ := fun _ => none
  currentToken : BitVec 8 := 0
  lastExecutionTime : BitVec 32 := 0
  deferred : List (ℕ × BitVec 32) := []
  log : List Invocation := []

variable {n : ℕ} (answer : ℕ → ℕ → BitVec 32)

/-- A callback that only returns a delay, which may be another one each time. -/
def invoke (time executor : ℕ) (triggerTime : BitVec 32) (s : Table n ℕ × List Invocation) :
    BitVec 32 × Table n ℕ × List Invocation :=
  (answer executor (timesInvoked s.2 executor), s.1, s.2 ++ [⟨executor, triggerTime, time⟩])

def Schedule.step (s : Schedule n) (e : Event) : Schedule n :=
  let now := BitVec.ofNat 32 e.time
  match e.call with
  | .defer delay =>
    let r := deferExec s.table s.currentToken now delay s.deferred.length
    { s with table := r.2.1, currentToken := r.2.2, deferred := s.deferred ++ [(e.time, delay)] }
  | .cancel token => { s with table := DeferredExec.cancel s.table token }
  | .elsewhere token => { s with currentToken := token }
  | .task =>
    let r := DeferredExec.task (invoke answer e.time) now s.lastExecutionTime (s.table, s.log)
    { s with lastExecutionTime := r.1, table := r.2.1, log := r.2.2 }

def Schedule.run (s : Schedule n) (events : List Event) : Schedule n :=
  events.foldl (Schedule.step answer) s

end Model

section Times

variable {n : ℕ} {answer : ℕ → ℕ → BitVec 32} {deferred : List (ℕ × BitVec 32)} {now : ℕ}

/-- The time for the next call of an executor that has been called `m` times. -/
def dueTime (answer : ℕ → ℕ → BitVec 32) (queued : ℕ × BitVec 32) (executor m : ℕ) : ℕ :=
  queued.1 + queued.2.toNat + ((List.range m).map fun j => (answer executor j).toNat).sum

theorem dueTime_succ (queued : ℕ × BitVec 32) (executor m : ℕ) :
    dueTime answer queued executor (m + 1) =
      dueTime answer queued executor m + (answer executor m).toNat := by
  rw [dueTime, dueTime, List.range_succ, List.map_append, List.sum_append]
  simp [Nat.add_assoc]

/-- The time that an executor has come to after `m` calls. -/
structure Waits (answer : ℕ → ℕ → BitVec 32) (deferred : List (ℕ × BitVec 32)) (executor m : ℕ)
    (triggerTime : BitVec 32) (due : ℕ) : Prop where
  due_eq : ∃ queued, deferred[executor]? = some queued ∧ due = dueTime answer queued executor m
  trigger : triggerTime = BitVec.ofNat 32 due
  again : ∀ j < m, answer executor j ≠ 0

/-- A call is not early, and comes after returned delays that are not zero. -/
def OnTime (answer : ℕ → ℕ → BitVec 32) (deferred : List (ℕ × BitVec 32)) (log : List Invocation)
    (v : Invocation) : Prop :=
  ∃ due ≤ v.time,
    Waits answer deferred v.executor (timesInvoked log v.executor) v.triggerTime due

/-- What holds of the table and of the calls so far at a time. -/
structure Punctual (answer : ℕ → ℕ → BitVec 32) (deferred : List (ℕ × BitVec 32)) (now : ℕ)
    (s : Table n ℕ × List Invocation) : Prop where
  waits : ∀ i e, s.1 i = some e → ∃ due < now + 2 ^ 31,
    Waits answer deferred e.callback (timesInvoked s.2 e.callback) e.triggerTime due
  differ : ∀ i j e f, s.1 i = some e → s.1 j = some f → e.callback = f.callback → i = j
  known : ∀ v ∈ s.2, v.executor < deferred.length
  onTime : ∀ log v, log ++ [v] <+: s.2 → OnTime answer deferred log v

theorem due_of_due {due : ℕ} (hdue : due < now + 2 ^ 31)
    (h : (BitVec.ofNat 32 due - BitVec.ofNat 32 now).toInt ≤ 0) : due ≤ now := by
  by_contra hearly
  have hnat : (BitVec.ofNat 32 due - BitVec.ofNat 32 now).toNat = due - now := by
    rw [BitVec.toNat_sub, BitVec.toNat_ofNat, BitVec.toNat_ofNat]
    omega
  rw [BitVec.toInt_eq_toNat_of_lt (by omega), hnat] at h
  omega

theorem Waits.append {executor m due : ℕ} {triggerTime : BitVec 32}
    (h : Waits answer deferred executor m triggerTime due) (more : List (ℕ × BitVec 32)) :
    Waits answer (deferred ++ more) executor m triggerTime due := by
  obtain ⟨⟨queued, hqueued, rfl⟩, htrigger, hagain⟩ := h
  obtain ⟨hlt, -⟩ := List.getElem?_eq_some_iff.mp hqueued
  exact ⟨⟨queued, by rwa [List.getElem?_append_left hlt], rfl⟩, htrigger, hagain⟩

theorem Waits.succ {executor m due : ℕ} {triggerTime : BitVec 32}
    (h : Waits answer deferred executor m triggerTime due) (hnext : answer executor m ≠ 0) :
    Waits answer deferred executor (m + 1) (triggerTime + answer executor m)
      (due + (answer executor m).toNat) := by
  obtain ⟨⟨queued, hqueued, rfl⟩, rfl, hagain⟩ := h
  refine ⟨⟨queued, hqueued, (dueTime_succ queued executor m).symm⟩, ?_, ?_⟩
  · rw [BitVec.ofNat_add, BitVec.ofNat_toNat, BitVec.setWidth_eq]
  · intro j hj
    rcases Nat.lt_succ_iff_lt_or_eq.mp hj with hj | rfl
    · exact hagain j hj
    · exact hnext

/-- A callback that leaves the table alone finds its entry again. -/
theorem requeue_self {κ : Type*} {table : Table n κ} {i : Fin n} {entry : Pending κ}
    (h : table i = some entry) (delay : BitVec 32) : requeue table i entry delay =
      Function.update table i (if delay = 0 then none
        else some { entry with triggerTime := entry.triggerTime + delay }) := by
  rw [requeue, if_neg (not_not.mpr (tokenAt_of_some h)), h]
  rfl

theorem timesInvoked_concat (log : List Invocation) (v : Invocation) (executor : ℕ) :
    timesInvoked (log ++ [v]) executor =
      timesInvoked log executor + if v.executor = executor then 1 else 0 := by
  simp [timesInvoked, List.countP_append, List.countP_singleton]

variable {s : Table n ℕ × List Invocation}

theorem Punctual.later (h : Punctual answer deferred now s) {time : ℕ} (hle : now ≤ time) :
    Punctual answer deferred time s where
  waits i e he := by
    obtain ⟨due, hdue, hwaits⟩ := h.waits i e he
    exact ⟨due, by omega, hwaits⟩
  differ := h.differ
  known := h.known
  onTime := h.onTime

theorem Punctual.differ_of_shrinks (h : Punctual answer deferred now s) {table : Table n ℕ}
    (hshrinks : Shrinks s.1 table) :
    ∀ i j e f, table i = some e → table j = some f → e.callback = f.callback → i = j := by
  intro i j e f he hf heq
  obtain ⟨e', he', -, hcallback⟩ := hshrinks i e he
  obtain ⟨f', hf', -, hcallback'⟩ := hshrinks j f hf
  exact h.differ i j e' f' he' hf' (hcallback.trans (heq.trans hcallback'.symm))

/-- A callback is called when it is due, and its entry waits for the next time or is free. -/
theorem Punctual.runEntry (hanswer : ∀ k m, (answer k m).toNat < 2 ^ 31)
    (h : Punctual answer deferred now s) (i : Fin n) :
    Punctual answer deferred now (runEntry (invoke answer now) (BitVec.ofNat 32 now) s i) := by
  unfold DeferredExec.runEntry
  split
  · exact h
  · rename_i entry hentry
    split_ifs with hdue
    · obtain ⟨due, hlt, hwaits⟩ := h.waits i entry hentry
      unfold Pending.Due at hdue
      rw [hwaits.trigger] at hdue
      have hle := due_of_due hlt hdue
      refine ⟨?_, h.differ_of_shrinks (shrinks_requeue s.1 i entry _), ?_, ?_⟩
      · intro j e he
        dsimp only [invoke] at he ⊢
        rw [requeue_self hentry] at he
        rw [timesInvoked_concat]
        by_cases hj : j = i
        · subst hj
          rw [Function.update_self] at he
          split_ifs at he with hzero
          obtain rfl := Option.some.inj he
          have hbound := hanswer entry.callback (timesInvoked s.2 entry.callback)
          rw [if_pos rfl]
          refine ⟨_, ?_, hwaits.succ hzero⟩
          omega
        · rw [Function.update_of_ne hj] at he
          have hother : entry.callback ≠ e.callback := fun heq =>
            hj (h.differ j i e entry he hentry heq.symm)
          rw [if_neg hother]
          exact h.waits j e he
      · intro v hv
        rcases List.mem_append.mp hv with hv | hv
        · exact h.known v hv
        · obtain rfl := List.mem_singleton.mp hv
          obtain ⟨⟨queued, hqueued, -⟩, -, -⟩ := hwaits
          exact (List.getElem?_eq_some_iff.mp hqueued).1
      · intro log v hprefix
        rcases List.prefix_concat_iff.mp hprefix with heq | hprefix
        · obtain ⟨rfl, hlast⟩ := List.append_inj' heq rfl
          obtain rfl := List.singleton_inj.mp hlast
          exact ⟨due, hle, hwaits⟩
        · exact h.onTime log v hprefix
    · exact h

theorem Punctual.task (hanswer : ∀ k m, (answer k m).toNat < 2 ^ 31)
    (h : Punctual answer deferred now s) (last : BitVec 32) :
    Punctual answer deferred now
      (DeferredExec.task (invoke answer now) (BitVec.ofNat 32 now) last s).2 := by
  unfold DeferredExec.task
  split_ifs
  · dsimp only
    induction List.finRange n generalizing s with
    | nil => exact h
    | cons i places ih => exact ih (h.runEntry hanswer i)
  · exact h

theorem Punctual.cancel (h : Punctual answer deferred now s) (token : BitVec 8) :
    Punctual answer deferred now (DeferredExec.cancel s.1 token, s.2) where
  waits i e he := by
    rcases cancel_cases s.1 token i with heq | ⟨-, heq⟩
    · exact h.waits i e (heq.symm.trans he)
    · cases heq.symm.trans he
  differ := h.differ_of_shrinks (shrinks_cancel s.1 token)
  known := h.known
  onTime := h.onTime

theorem Punctual.append (h : Punctual answer deferred now s) (queued : ℕ × BitVec 32) :
    Punctual answer (deferred ++ [queued]) now s where
  waits i e he := by
    obtain ⟨due, hdue, hwaits⟩ := h.waits i e he
    exact ⟨due, hdue, hwaits.append _⟩
  differ := h.differ
  known v hv := by
    rw [List.length_append]
    exact Nat.lt_add_right _ (h.known v hv)
  onTime log v hprefix := by
    obtain ⟨due, hdue, hwaits⟩ := h.onTime log v hprefix
    exact ⟨due, hdue, hwaits.append _⟩

theorem Punctual.callback_lt (h : Punctual answer deferred now s) {i : Fin n} {e : Pending ℕ}
    (he : s.1 i = some e) : e.callback < deferred.length := by
  obtain ⟨due, -, ⟨queued, hqueued, -⟩, -, -⟩ := h.waits i e he
  exact (List.getElem?_eq_some_iff.mp hqueued).1

theorem Punctual.timesInvoked_length (h : Punctual answer deferred now s) :
    timesInvoked s.2 deferred.length = 0 := by
  rw [timesInvoked, List.countP_eq_zero]
  intro v hv heq
  exact (h.known v hv).ne (of_decide_eq_true heq)

theorem Punctual.defer (h : Punctual answer deferred now s) (token : BitVec 8) {delay : BitVec 32}
    (hdelay : delay.toNat < 2 ^ 31) : Punctual answer (deferred ++ [(now, delay)]) now
      ((deferExec s.1 token (BitVec.ofNat 32 now) delay deferred.length).2.1, s.2) := by
  have hgrown := h.append (now, delay)
  rcases deferExec_cases s.1 token (BitVec.ofNat 32 now) delay deferred.length with
    ⟨-, htable⟩ | ⟨i, entry, hnone, -, htrigger, hcallback, -, -, htable⟩ <;> rw [htable]
  · exact hgrown
  · refine ⟨?_, ?_, hgrown.known, hgrown.onTime⟩
    · intro j e he
      dsimp only at he ⊢
      by_cases hj : j = i
      · subst hj
        rw [Function.update_self] at he
        obtain rfl := Option.some.inj he
        rw [hcallback, h.timesInvoked_length]
        refine ⟨now + delay.toNat, by omega, ⟨_, List.getElem?_concat_length, rfl⟩, ?_, ?_⟩
        · rw [htrigger, BitVec.ofNat_add, BitVec.ofNat_toNat, BitVec.setWidth_eq]
        · intro m hm
          exact absurd hm (Nat.not_lt_zero m)
      · rw [Function.update_of_ne hj] at he
        exact hgrown.waits j e he
    · intro j k e f he hf heq
      dsimp only at he hf
      by_cases hj : j = i <;> by_cases hk : k = i
      · rw [hj, hk]
      · subst hj
        rw [Function.update_self] at he
        rw [Function.update_of_ne hk] at hf
        obtain rfl := Option.some.inj he
        exact absurd (hcallback.symm.trans heq) (h.callback_lt hf).ne'
      · subst hk
        rw [Function.update_self] at hf
        rw [Function.update_of_ne hj] at he
        obtain rfl := Option.some.inj hf
        exact absurd (heq.trans hcallback) (h.callback_lt he).ne
      · rw [Function.update_of_ne hj] at he
        rw [Function.update_of_ne hk] at hf
        exact h.differ j k e f he hf heq

end Times

section Runs

variable {n : ℕ} {answer : ℕ → ℕ → BitVec 32} {now : ℕ} {s : Schedule n}

theorem Punctual.step (hanswer : ∀ k m, (answer k m).toNat < 2 ^ 31)
    (h : Punctual answer s.deferred now (s.table, s.log)) {e : Event} (htime : now ≤ e.time)
    (hdelay : ∀ delay, e.call = .defer delay → delay.toNat < 2 ^ 31) :
    Punctual answer (s.step answer e).deferred e.time
      ((s.step answer e).table, (s.step answer e).log) := by
  have hlater := h.later htime
  obtain ⟨time, call⟩ := e
  cases call with
  | defer delay => exact hlater.defer s.currentToken (hdelay delay rfl)
  | cancel token => exact hlater.cancel token
  | elsewhere token => exact hlater
  | task => exact hlater.task hanswer s.lastExecutionTime

theorem Punctual.run (hanswer : ∀ k m, (answer k m).toNat < 2 ^ 31) {events : List Event}
    (htimes : (now :: events.map Event.time).Pairwise (· ≤ ·))
    (hdelays : ∀ e ∈ events, ∀ delay, e.call = .defer delay → delay.toNat < 2 ^ 31)
    (h : Punctual answer s.deferred now (s.table, s.log)) :
    ∃ time, Punctual answer (s.run answer events).deferred time
      ((s.run answer events).table, (s.run answer events).log) := by
  induction events generalizing s now with
  | nil => exact ⟨now, h⟩
  | cons e events ih =>
    obtain ⟨hfirst, hrest⟩ := List.pairwise_cons.mp htimes
    obtain ⟨he, hevents⟩ := List.forall_mem_cons.mp hdelays
    exact ih hrest hevents (h.step hanswer (hfirst e.time List.mem_cons_self) he)

/-- No executor is called before its time, its times follow from each other by the delays that it
returned, and it is not called again after it has returned zero. -/
theorem executors_on_time (hanswer : ∀ k m, (answer k m).toNat < 2 ^ 31) (last : BitVec 32)
    {events : List Event} (htimes : (events.map Event.time).Pairwise (· ≤ ·))
    (hdelays : ∀ e ∈ events, ∀ delay, e.call = .defer delay → delay.toNat < 2 ^ 31) :
    let s : Schedule n := Schedule.run answer { lastExecutionTime := last } events
    ∀ log v, log ++ [v] <+: s.log → ∃ time delay, s.deferred[v.executor]? = some (time, delay) ∧
      let m := timesInvoked log v.executor
      let due := time + delay.toNat + ((List.range m).map fun j => (answer v.executor j).toNat).sum
      v.triggerTime = BitVec.ofNat 32 due ∧ due ≤ v.time ∧ ∀ j < m, answer v.executor j ≠ 0 := by
  have hstart : Punctual answer [] 0 ((fun _ => none : Table n ℕ), []) := by
    refine ⟨nofun, nofun, nofun, ?_⟩
    intro log v hprefix
    exact absurd (List.prefix_nil.mp hprefix) (by simp)
  have hzero : (0 :: events.map Event.time).Pairwise (· ≤ ·) :=
    List.pairwise_cons.mpr ⟨fun _ _ => Nat.zero_le _, htimes⟩
  intro s log v hprefix
  obtain ⟨now, hrun⟩ :=
    Punctual.run (s := { lastExecutionTime := last }) hanswer hzero hdelays hstart
  obtain ⟨due, hdue, ⟨⟨time, delay⟩, hqueued, rfl⟩, htrigger, hagain⟩ := hrun.onTime log v hprefix
  exact ⟨time, delay, hqueued, htrigger, hdue, hagain⟩

/-- An executor that asks for one more call, around the end of the clock's range. -/
def wrapping : List Event :=
  [⟨4294967290, .defer 4⟩, ⟨4294967297, .task⟩, ⟨4294967298, .task⟩, ⟨4294967310, .task⟩]

def once (_ m : ℕ) : BitVec 32 := if m = 0 then 5 else 0

theorem wrapping_on_time :
    let s : Schedule 1 := Schedule.run once { lastExecutionTime := 0xFFFFFF00 } wrapping
    s.log = [⟨0, 4294967294, 4294967297⟩, ⟨0, 3, 4294967310⟩] ∧
    ∀ log v, log ++ [v] <+: s.log → ∃ time delay, s.deferred[v.executor]? = some (time, delay) ∧
      let m := timesInvoked log v.executor
      let due := time + delay.toNat + ((List.range m).map fun j => (once v.executor j).toNat).sum
      v.triggerTime = BitVec.ofNat 32 due ∧ due ≤ v.time ∧ ∀ j < m, once v.executor j ≠ 0 := by
  refine ⟨by decide +kernel, executors_on_time ?_ _ (by decide) ?_⟩
  · intro k m
    rw [once]
    split_ifs <;> decide
  · intro e he delay hcall
    simp only [wrapping, List.mem_cons, List.not_mem_nil, or_false] at he
    rcases he with rfl | rfl | rfl | rfl <;> cases hcall
    decide

end Runs

end Qmk.DeferredExec
