import Mathlib.Data.List.FinRange
import Mathlib.Logic.Function.Basic

/-! # Deferred execution

A table of executors, each of which is called when its time has come, and again after the delay that
it returns. An entry is cancelled by its token; tokens are given out in order, and given out again
when they are no longer in the table.
-/

namespace Qmk.DeferredExec

/-- An entry of a table that is in use, with its callback and the argument of it. The token of an
entry that is not in use is `INVALID_DEFERRED_TOKEN`. -/
structure Pending (κ : Type*) where
  token : BitVec 8
  triggerTime : BitVec 32
  callback : κ
  valid : token ≠ 0
  deriving DecidableEq

abbrev Table (n : ℕ) (κ : Type*) := Fin n → Option (Pending κ)

variable {n : ℕ} {κ σ : Type*}

def tokenAt (table : Table n κ) (i : Fin n) : BitVec 8 := ((table i).map Pending.token).getD 0

def TokenCanBeUsed (table : Table n κ) (token : BitVec 8) : Prop :=
  token ≠ 0 ∧ ∀ i, tokenAt table i ≠ token

instance (table : Table n κ) (token : BitVec 8) : Decidable (TokenCanBeUsed table token) :=
  inferInstanceAs (Decidable (_ ∧ _))

/-- The loop tries each token once, the first one is behind the current one. -/
def allocateToken (table : Table n κ) (currentToken : BitVec 8) : Option (BitVec 8) :=
  ((List.range 256).map fun k => currentToken + 1 + BitVec.ofNat 8 k).find?
    fun token => TokenCanBeUsed table token

theorem tokenCanBeUsed_of_allocateToken {table : Table n κ} {currentToken token : BitVec 8}
    (h : token ∈ allocateToken table currentToken) : TokenCanBeUsed table token := by
  simpa using List.find?_some h

/-- `defer_exec_advanced`, which returns the token, the table and the current token. -/
def deferExec (table : Table n κ) (currentToken : BitVec 8) (now delay : BitVec 32) (callback : κ) :
    BitVec 8 × Table n κ × BitVec 8 :=
  if delay = 0 then (0, table, currentToken)
  else
    match Fin.find? fun i => (table i).isNone with
    | none => (0, table, currentToken)
    | some i =>
      match h : allocateToken table currentToken with
      | none => (0, table, currentToken + 1)
      | some token =>
        let entry := ⟨token, now + delay, callback, (tokenCanBeUsed_of_allocateToken h).1⟩
        (token, Function.update table i (some entry), token)

def cancel (table : Table n κ) (token : BitVec 8) : Table n κ :=
  if token = 0 then table
  else
    match Fin.find? fun i => tokenAt table i = token with
    | none => table
    | some i => Function.update table i none

def extend (table : Table n κ) (token : BitVec 8) (now delay : BitVec 32) : Table n κ :=
  if delay = 0 ∨ token = 0 then table
  else
    match Fin.find? fun i => tokenAt table i = token with
    | none => table
    | some i =>
      Function.update table i ((table i).map fun e => { e with triggerTime := now + delay })

def Pending.Due (entry : Pending κ) (now : BitVec 32) : Prop := (entry.triggerTime - now).toInt ≤ 0

instance (entry : Pending κ) (now : BitVec 32) : Decidable (entry.Due now) :=
  inferInstanceAs (Decidable (_ ≤ _))

/-- What becomes of an entry whose callback has returned `delay`. The callback may have put another
entry in its place. -/
def requeue (table : Table n κ) (i : Fin n) (entry : Pending κ) (delay : BitVec 32) : Table n κ :=
  if tokenAt table i ≠ entry.token then table
  else
    Function.update table i <|
      if delay = 0 then none
      else (table i).map fun e => { e with triggerTime := e.triggerTime + delay }

/-- One round of the loop of `deferred_exec_advanced_task`, where a callback may change the table
and what else there is. -/
def runEntry (call : κ → BitVec 32 → Table n κ × σ → BitVec 32 × Table n κ × σ) (now : BitVec 32)
    (s : Table n κ × σ) (i : Fin n) : Table n κ × σ :=
  match s.1 i with
  | none => s
  | some entry =>
    if entry.Due now then
      let (delay, table, rest) := call entry.callback entry.triggerTime s
      (requeue table i entry delay, rest)
    else s

/-- `deferred_exec_advanced_task`, with the time of the last execution. -/
def task (call : κ → BitVec 32 → Table n κ × σ → BitVec 32 × Table n κ × σ) (now last : BitVec 32)
    (s : Table n κ × σ) : BitVec 32 × Table n κ × σ :=
  if 0 < (now - last).toInt then (now, (List.finRange n).foldl (runEntry call now) s) else (last, s)

section Tokens

variable {table : Table n κ} {i : Fin n} {entry : Pending κ} {token : BitVec 8}

def TokensDiffer (table : Table n κ) : Prop :=
  ∀ i j e f, table i = some e → table j = some f → e.token = f.token → i = j

theorem tokenAt_of_some (h : table i = some entry) : tokenAt table i = entry.token := by
  rw [tokenAt, h]
  rfl

theorem tokenAt_eq_iff (ht : token ≠ 0) :
    tokenAt table i = token ↔ ∃ entry, table i = some entry ∧ entry.token = token := by
  constructor
  · intro h
    cases he : table i with
    | none =>
      rw [tokenAt, he] at h
      exact absurd h.symm ht
    | some entry => exact ⟨entry, rfl, (tokenAt_of_some he).symm.trans h⟩
  · rintro ⟨entry, he, rfl⟩
    exact tokenAt_of_some he

/-- Either nothing is deferred, or a free entry takes the callback, with a token that is not in the
table. -/
theorem deferExec_cases (table : Table n κ) (currentToken : BitVec 8) (now delay : BitVec 32)
    (callback : κ) :
    ((deferExec table currentToken now delay callback).1 = 0 ∧
      (deferExec table currentToken now delay callback).2.1 = table) ∨
    ∃ i entry, table i = none ∧ TokenCanBeUsed table entry.token ∧
      entry.triggerTime = now + delay ∧ entry.callback = callback ∧ delay ≠ 0 ∧
      (deferExec table currentToken now delay callback).1 = entry.token ∧
      (deferExec table currentToken now delay callback).2.1 =
        Function.update table i (some entry) := by
  rw [deferExec]
  split_ifs with hdelay
  · exact .inl ⟨rfl, rfl⟩
  split
  · exact .inl ⟨rfl, rfl⟩
  · rename_i i hfree
    split
    · exact .inl ⟨rfl, rfl⟩
    · rename_i token htoken
      have hnone : table i = none := by simpa using Fin.eq_true_of_find?_eq_some hfree
      exact .inr ⟨i, ⟨token, now + delay, callback, _⟩, hnone,
        tokenCanBeUsed_of_allocateToken htoken, rfl, rfl, hdelay, rfl, rfl⟩

theorem cancel_of_absent (h : ∀ i entry, table i = some entry → entry.token ≠ token) :
    cancel table token = table := by
  rw [cancel]
  split_ifs with htoken
  · rfl
  split
  · rfl
  · rename_i i hfind
    have hat : tokenAt table i = token := by simpa using Fin.eq_true_of_find?_eq_some hfind
    obtain ⟨entry, he, heq⟩ := (tokenAt_eq_iff htoken).mp hat
    exact absurd heq (h i entry he)

theorem cancel_of_some (hd : TokensDiffer table) (h : table i = some entry) :
    cancel table entry.token = Function.update table i none := by
  rw [cancel, if_neg entry.valid]
  cases hfind : Fin.find? fun i => tokenAt table i = entry.token with
  | none =>
    have hnot := Fin.eq_false_of_find?_eq_none hfind i
    exact absurd (tokenAt_of_some h) (by simpa using hnot)
  | some j =>
    have hat : tokenAt table j = entry.token := by simpa using Fin.eq_true_of_find?_eq_some hfind
    obtain ⟨other, hj, heq⟩ := (tokenAt_eq_iff entry.valid).mp hat
    rw [hd j i other entry hj h heq]

theorem TokensDiffer.update_none (hd : TokensDiffer table) (k : Fin n) :
    TokensDiffer (Function.update table k none) := by
  intro i j e f hi hj
  have hik : i ≠ k := by
    rintro rfl
    simp at hi
  have hjk : j ≠ k := by
    rintro rfl
    simp at hj
  rw [Function.update_of_ne hik] at hi
  rw [Function.update_of_ne hjk] at hj
  exact hd i j e f hi hj

theorem TokensDiffer.update_some (hd : TokensDiffer table) {k : Fin n}
    (hnew : ∀ i e, i ≠ k → table i = some e → e.token ≠ entry.token) :
    TokensDiffer (Function.update table k (some entry)) := by
  intro i j e f hi hj heq
  by_cases hik : i = k
  · by_cases hjk : j = k
    · rw [hik, hjk]
    · subst hik
      rw [Function.update_self, Option.some.injEq] at hi
      rw [Function.update_of_ne hjk] at hj
      exact absurd (hi ▸ heq.symm) (hnew j f hjk hj)
  · rw [Function.update_of_ne hik] at hi
    by_cases hjk : j = k
    · subst hjk
      rw [Function.update_self, Option.some.injEq] at hj
      exact absurd (hj ▸ heq) (hnew i e hik hi)
    · rw [Function.update_of_ne hjk] at hj
      exact hd i j e f hi hj heq

end Tokens

end Qmk.DeferredExec
