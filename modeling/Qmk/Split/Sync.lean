import Mathlib.Algebra.Group.Nat.Defs
import Qmk.Throttle

/-! # What the master sends to the slave

A value of the master is sent when it differs from the copy that the master has sent last, and every
`FORCED_SYNC_THROTTLE_MS` in any case. The copy is taken before the transfer, so that a value which
is lost on the way does not differ any more. The forced transfers make up for that.
-/

namespace Qmk.Split

open Throttle

section Timer

def timerRead32 (t : ℕ) : UInt32 := .ofNat t

def forcedSyncThrottle : UInt32 := 100

/-- `timer_elapsed32(last_update) >= FORCED_SYNC_THROTTLE_MS`. -/
def Due (now : ℕ) (lastUpdate : UInt32) : Prop :=
  forcedSyncThrottle ≤ timerRead32 now - lastUpdate

instance (now : ℕ) (lastUpdate : UInt32) : Decidable (Due now lastUpdate) :=
  inferInstanceAs (Decidable (_ ≤ _))

theorem due_iff {now : ℕ} {lastUpdate : UInt32} :
    Due now lastUpdate ↔ Late (2 ^ 32) 100 now lastUpdate.toNat := by
  rw [Due, UInt32.le_iff_toNat_le, UInt32.toNat_sub, timerRead32, UInt32.toNat_ofNat']
  rfl

end Timer

section Model

variable {α : Type*}

/-- The copies of a value in the shared memory of the two halves, with the `last_update` of its
handler. -/
structure Copies (α : Type*) where
  master : α
  slave : α
  lastUpdate : UInt32 := 0
  deriving DecidableEq

/-- The outcome of a transfer. One that fails leaves anything at the slave. -/
inductive Link (α : Type*)
  | ok
  | failed (left : α)
  deriving DecidableEq

/-- A try of the handler: the times before and after its transfer, and the outcome of that. -/
structure Attempt (α : Type*) where
  now : ℕ
  done : ℕ
  link : Link α
  deriving DecidableEq

def transportWrite (source : α) (link : Link α) (s : Copies α) : Bool × Copies α :=
  let s := { s with master := source }
  match link with
  | .ok => (true, { s with slave := source })
  | .failed left => (false, { s with slave := left })

def sendIfCondition (condition : Bool) (source : α) (a : Attempt α) (s : Copies α) :
    Bool × Copies α :=
  if Due a.now s.lastUpdate ∨ condition = true then
    let (okay, s) := transportWrite source a.link s
    (okay, if okay then { s with lastUpdate := timerRead32 a.done } else s)
  else (true, s)

/-- `send_if_data_mismatch`, and the handlers that compare the fields of a value one by one. -/
def sendIfDataMismatch [DecidableEq α] (source : α) (a : Attempt α) (s : Copies α) :
    Bool × Copies α :=
  sendIfCondition (source ≠ s.master) source a s

def transactionHandlerMaster (handler : Attempt α → Copies α → Bool × Copies α) :
    List (Attempt α) → Copies α → Bool × Copies α
  | [], s => (false, s)
  | a :: attempts, s =>
    let (okay, s) := handler a s
    if okay then (true, s) else transactionHandlerMaster handler attempts s

/-- A call for a value, with its first try and the tries that follow if that one fails. -/
structure Call (α : Type*) where
  source : α
  first : Attempt α
  retries : List (Attempt α)

variable [DecidableEq α]

def Call.run (call : Call α) (s : Copies α) : Bool × Copies α :=
  transactionHandlerMaster (sendIfDataMismatch call.source) (call.first :: call.retries) s

def runCalls (s : Copies α) (calls : List (Call α)) : Copies α :=
  calls.foldl (fun s call => (call.run s).2) s

end Model

section Handler

variable {α : Type*} [DecidableEq α] {s : Copies α} {source : α} {a : Attempt α}

theorem sendIfDataMismatch_of_sends (h : Due a.now s.lastUpdate ∨ source ≠ s.master) :
    sendIfDataMismatch source a s =
      match a.link with
      | .ok => (true, ⟨source, source, timerRead32 a.done⟩)
      | .failed left => (false, ⟨source, left, s.lastUpdate⟩) := by
  have hsends : Due a.now s.lastUpdate ∨ decide (source ≠ s.master) = true := by
    rwa [decide_eq_true_eq]
  rw [sendIfDataMismatch, sendIfCondition, if_pos hsends]
  cases a.link <;> rfl

theorem sendIfDataMismatch_of_not (h : ¬ (Due a.now s.lastUpdate ∨ source ≠ s.master)) :
    sendIfDataMismatch source a s = (true, s) := by
  have hnot : ¬ (Due a.now s.lastUpdate ∨ decide (source ≠ s.master) = true) := by
    rwa [decide_eq_true_eq]
  rw [sendIfDataMismatch, sendIfCondition, if_neg hnot]

theorem run_of_ok {call : Call α} (hlink : call.first.link = .ok) :
    call.run s = (true,
      if Due call.first.now s.lastUpdate ∨ call.source ≠ s.master then
        ⟨call.source, call.source, timerRead32 call.first.done⟩
      else s) := by
  unfold Call.run transactionHandlerMaster
  by_cases h : Due call.first.now s.lastUpdate ∨ call.source ≠ s.master
  · rw [sendIfDataMismatch_of_sends h, hlink, if_pos h]
    rfl
  · rw [sendIfDataMismatch_of_not h, if_neg h]
    rfl

/-- After a try that has failed the copy does not differ, and only a forced transfer fails again. -/
theorem retries_fail_iff {attempts : List (Attempt α)} (hcopy : s.master = source) :
    (transactionHandlerMaster (sendIfDataMismatch source) attempts s).1 = false ↔
      ∀ a ∈ attempts, Due a.now s.lastUpdate ∧ a.link ≠ .ok := by
  induction attempts generalizing s with
  | nil => simp [transactionHandlerMaster]
  | cons a attempts ih =>
    rw [transactionHandlerMaster, List.forall_mem_cons]
    by_cases hdue : Due a.now s.lastUpdate
    · rw [sendIfDataMismatch_of_sends (.inl hdue)]
      cases hlink : a.link with
      | ok => simp
      | failed left => simpa [hdue] using @ih ⟨source, left, s.lastUpdate⟩ rfl
    · have hnot : ¬ (Due a.now s.lastUpdate ∨ source ≠ s.master) := by
        simp [hdue, hcopy]
      rw [sendIfDataMismatch_of_not hnot]
      simp [hdue]

/-- A call fails if its first transfer is lost and each of its other tries is a forced transfer that
is lost. -/
theorem call_fails_iff {call : Call α} :
    (call.run s).1 = false ↔
      (Due call.first.now s.lastUpdate ∨ call.source ≠ s.master) ∧ call.first.link ≠ .ok ∧
        ∀ a ∈ call.retries, Due a.now s.lastUpdate ∧ a.link ≠ .ok := by
  rw [Call.run, transactionHandlerMaster]
  by_cases h : Due call.first.now s.lastUpdate ∨ call.source ≠ s.master
  · rw [sendIfDataMismatch_of_sends h]
    cases hlink : call.first.link with
    | ok => simp
    | failed left =>
      simpa [h] using @retries_fail_iff _ _ ⟨call.source, left, s.lastUpdate⟩ _ call.retries rfl
  · rw [sendIfDataMismatch_of_not h]
    simp [h]

end Handler

section Follows

variable {α : Type*} [DecidableEq α] {s : Copies α} {call first last : Call α}
  {calls : List (Call α)}

theorem master_run (hlink : call.first.link = .ok) : (call.run s).2.master = call.source := by
  rw [run_of_ok hlink]
  split_ifs with h
  · rfl
  · by_contra hne
    exact h (.inr (Ne.symm hne))

variable (α) in
/-- With a link that works, a forced transfer brings the copy of the slave up to date. -/
theorem throttled_run : Throttled (2 ^ 32) 100 (fun _ => True)
    (fun call : Call α => call.first.link = .ok) (fun s call => (call.run s).2)
    (fun call => call.first.now) (fun s => s.lastUpdate.toNat) (fun s => s.slave = s.master) where
  inv_poll _ _ := trivial
  done_of_late := by
    intro s call _ hlink hlate
    rw [run_of_ok hlink, if_pos (.inl (due_iff.2 hlate))]
  done_poll := by
    intro s call _ hlink hdone
    rw [run_of_ok hlink]
    split_ifs
    · rfl
    · exact hdone
  done_or_last := by
    intro s call _ hlink
    rw [run_of_ok hlink]
    split_ifs
    · exact .inl rfl
    · exact .inr rfl

/-- Whatever was lost before, the slave has the value of each call that comes a throttle time after
the link has begun to work. -/
theorem slave_follows (hlinks : ∀ call ∈ first :: (calls ++ [last]), call.first.link = .ok)
    (htimes : (first :: (calls ++ [last])).IsChain fun c d =>
      Soon (2 ^ 32) 100 c.first.now d.first.now)
    (hlate : first.first.now + 100 ≤ last.first.now) :
    (runCalls s (first :: (calls ++ [last]))).slave = last.source := by
  have hmaster : (runCalls s (first :: (calls ++ [last]))).master = last.source := by
    rw [← List.cons_append, runCalls, List.foldl_append]
    exact master_run (hlinks last (by simp))
  have hdone : (runCalls s (first :: (calls ++ [last]))).slave = _ :=
    (throttled_run α).done_foldl trivial hlinks htimes hlate
  exact hdone.trans hmaster

/-- A transfer is lost, and the retry after it sends nothing, as the calls up to the next forced
transfer. -/
theorem slave_follows_lost :
    let lost : Call ℕ := ⟨2, ⟨50, 51, .failed 0⟩, [⟨51, 51, .ok⟩]⟩
    let two (now : ℕ) : Call ℕ := ⟨2, ⟨now, now + 1, .ok⟩, []⟩
    let s := (lost.run ⟨0, 0, 0⟩).2
    (lost.run ⟨0, 0, 0⟩).1 = true ∧ (runCalls s [two 60, two 90]).slave = 0 ∧
      (runCalls s [two 60, two 90, two 160]).slave = 2 := by
  refine ⟨by decide, by decide, ?_⟩
  exact @slave_follows _ _ _ ⟨2, ⟨60, 61, .ok⟩, []⟩ ⟨2, ⟨160, 161, .ok⟩, []⟩
    [⟨2, ⟨90, 91, .ok⟩, []⟩] (by simp) (by decide) (by decide)

end Follows

end Qmk.Split
