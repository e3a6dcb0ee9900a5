import Qmk.DeferredExec
import Qmk.Monitor

/-! # Calls from inside callbacks

A callback may defer, extend and cancel executors of the table whose task has called it, and may
call that task again. The task tells an entry that was replaced by its token, and tokens come round.
-/

namespace Qmk.DeferredExec

variable {n : ℕ} {κ : Type*}

/-- A task that waits for a callback, with its local variables. `since` counts the executors that
were deferred before. -/
structure Frame (n : ℕ) (κ : Type*) where
  now : BitVec 32
  i : Fin n
  entry : Pending (κ × ℕ)
  since : ℕ

/-- A table with the calls of its task that have not returned, the innermost first. Each callback
comes with the number of executors that were deferred before it. -/
structure State (n : ℕ) (κ : Type*) where
  table : Table n (κ × ℕ)
  currentToken : BitVec 8 := 0
  lastExecutionTime : BitVec 32 := 0
  stack : List (Frame n κ) := []
  deferred : ℕ := 0

/-- A call, from a callback or from outside, or the return of the innermost callback. Another table
may take a token in between. -/
inductive Action (κ : Type*)
  | defer (now delay : BitVec 32) (callback : κ)
  | extend (token : BitVec 8) (now delay : BitVec 32)
  | cancel (token : BitVec 8)
  | elsewhere (token : BitVec 8)
  | task (now : BitVec 32)
  | returns (delay : BitVec 32)

/-- The loop of the task from `k` on, up to the next callback. -/
def loopFrom (now : BitVec 32) (k : ℕ) (s : State n κ) : State n κ :=
  match Fin.find? fun i : Fin n => decide (k ≤ i) && (s.table i).any fun e => e.Due now with
  | none => s
  | some i =>
    match s.table i with
    | none => s
    | some entry => { s with stack := ⟨now, i, entry, s.deferred⟩ :: s.stack }

def step (s : State n κ) : Action κ → State n κ
  | .defer now delay callback =>
    let r := deferExec s.table s.currentToken now delay (callback, s.deferred)
    { s with table := r.2.1, currentToken := r.2.2, deferred := s.deferred + 1 }
  | .extend token now delay => { s with table := extend s.table token now delay }
  | .cancel token => { s with table := cancel s.table token }
  | .elsewhere token => { s with currentToken := token }
  | .task now =>
    if 0 < (now - s.lastExecutionTime).toInt then
      loopFrom now 0 { s with lastExecutionTime := now }
    else s
  | .returns delay =>
    match s.stack with
    | [] => s
    | f :: stack =>
      loopFrom f.now (f.i + 1) { s with table := requeue s.table f.i f.entry delay, stack }

def start : State n κ where
  table _ := none

/-- The calls do not interfere: tokens differ, `extend` and `cancel` change nothing but the entry of
the token, and no executor that was deferred since a callback was called is changed when that
callback returns. -/
structure Separate (s : State n κ) : Prop where
  tokens : TokensDiffer s.table
  extend : ∀ token now delay i, tokenAt s.table i ≠ token →
    (step s (.extend token now delay)).table i = s.table i
  cancel : ∀ token i, tokenAt s.table i ≠ token →
    (step s (.cancel token)).table i = s.table i
  returns : ∀ f stack, s.stack = f :: stack → ∀ delay i e, s.table i = some e →
    f.since ≤ e.callback.2 → (step s (.returns delay)).table i = some e

/-- The tokens have come round: the entry of a waiting task is free, before all others, and its
token is the next one that can be used. -/
def ComesRound (s : State n κ) (f : Frame n κ) : Prop :=
  s.table f.i = none ∧ (∀ j < f.i, s.table j ≠ none) ∧ TokenCanBeUsed s.table f.entry.token ∧
    ∀ k < (f.entry.token - (s.currentToken + 1)).toNat,
      ¬ TokenCanBeUsed s.table (s.currentToken + 1 + BitVec.ofNat 8 k)

/-- Nothing is deferred while the tokens have come round to the entry of a waiting task. -/
def Fresh (s : State n κ) : Action κ → Prop
  | .defer _ delay _ => delay ≠ 0 → ∀ f ∈ s.stack, ¬ ComesRound s f
  | _ => True

instance (s : State n κ) (f : Frame n κ) : Decidable (ComesRound s f) :=
  inferInstanceAs (Decidable (s.table f.i = none ∧ _))

instance (s : State n κ) : (a : Action κ) → Decidable (Fresh s a)
  | .defer _ _ _ => inferInstanceAs (Decidable (_ ≠ _ → _))
  | .extend _ _ _ | .cancel _ | .elsewhere _ | .task _ | .returns _ =>
    inferInstanceAs (Decidable True)

section Operations

variable {table : Table n κ} {token : BitVec 8} {now delay : BitVec 32} {i : Fin n}

theorem allocateToken_first {currentToken : BitVec 8}
    (h : allocateToken table currentToken = some token) :
    ∀ k < (token - (currentToken + 1)).toNat,
      ¬ TokenCanBeUsed table (currentToken + 1 + BitVec.ofNat 8 k) := by
  rw [allocateToken, List.find?_map, Option.map_eq_some_iff] at h
  obtain ⟨m, hm, rfl⟩ := h
  obtain ⟨-, hlt, hfirst⟩ := List.find?_range_eq_some.mp hm
  rw [List.mem_range] at hlt
  intro k hk
  have hkm : k < m := by
    rw [BitVec.add_comm, BitVec.add_sub_cancel, BitVec.toNat_ofNat] at hk
    omega
  simpa using hfirst k hkm

/-- Nothing is deferred, or the first free entry takes the callback with the next token. -/
theorem deferExec_first (table : Table n κ) (currentToken : BitVec 8) (now delay : BitVec 32)
    (callback : κ) :
    (deferExec table currentToken now delay callback).2.1 = table ∨
      ∃ i entry, delay ≠ 0 ∧ table i = none ∧ (∀ j < i, table j ≠ none) ∧
        TokenCanBeUsed table entry.token ∧
        (∀ k < (entry.token - (currentToken + 1)).toNat,
          ¬ TokenCanBeUsed table (currentToken + 1 + BitVec.ofNat 8 k)) ∧
        entry.callback = callback ∧
        (deferExec table currentToken now delay callback).2.1 =
          Function.update table i (some entry) := by
  rw [deferExec]
  split_ifs with hdelay
  · exact .inl rfl
  split
  · exact .inl rfl
  · rename_i i hfree
    split
    · exact .inl rfl
    · rename_i token htoken
      have hnone : table i = none := by simpa using Fin.eq_true_of_find?_eq_some hfree
      have hfirst (j : Fin n) (hj : j < i) : table j ≠ none := by
        have hsome := Fin.eq_false_of_find?_eq_some_of_lt hfree j hj
        rintro hj
        simp [hj] at hsome
      exact .inr ⟨i, ⟨token, now + delay, callback, _⟩, hdelay, hnone, hfirst,
        tokenCanBeUsed_of_allocateToken htoken, allocateToken_first htoken, rfl, rfl⟩

theorem extend_cases (table : Table n κ) (token : BitVec 8) (now delay : BitVec 32) (i : Fin n) :
    extend table token now delay i = table i ∨ tokenAt table i = token ∧
      extend table token now delay i =
        (table i).map fun e => { e with triggerTime := now + delay } := by
  rw [extend]
  split_ifs with h
  · exact .inl rfl
  cases hfind : Fin.find? fun j => decide (tokenAt table j = token) with
  | none => exact .inl rfl
  | some j =>
    have hat : tokenAt table j = token := by simpa using Fin.eq_true_of_find?_eq_some hfind
    by_cases hij : i = j
    · subst hij
      exact .inr ⟨hat, Function.update_self ..⟩
    · exact .inl (Function.update_of_ne hij ..)

theorem cancel_cases (table : Table n κ) (token : BitVec 8) (i : Fin n) :
    cancel table token i = table i ∨ tokenAt table i = token ∧ cancel table token i = none := by
  rw [cancel]
  split_ifs with h
  · exact .inl rfl
  cases hfind : Fin.find? fun j => decide (tokenAt table j = token) with
  | none => exact .inl rfl
  | some j =>
    have hat : tokenAt table j = token := by simpa using Fin.eq_true_of_find?_eq_some hfind
    by_cases hij : i = j
    · subst hij
      exact .inr ⟨hat, Function.update_self ..⟩
    · exact .inl (Function.update_of_ne hij ..)

theorem requeue_cases (table : Table n κ) (k : Fin n) (entry : Pending κ) (delay : BitVec 32)
    (i : Fin n) :
    requeue table k entry delay i = table i ∨ i = k ∧ tokenAt table i = entry.token ∧
      (requeue table k entry delay i = none ∨ requeue table k entry delay i =
        (table i).map fun e => { e with triggerTime := e.triggerTime + delay }) := by
  rw [requeue]
  split_ifs with htoken hdelay
  · exact .inl rfl
  · by_cases hi : i = k
    · subst hi
      exact .inr ⟨rfl, not_not.mp htoken, .inl (Function.update_self ..)⟩
    · exact .inl (Function.update_of_ne hi ..)
  · by_cases hi : i = k
    · subst hi
      exact .inr ⟨rfl, not_not.mp htoken, .inr (Function.update_self ..)⟩
    · exact .inl (Function.update_of_ne hi ..)

end Operations

section Kept

/-- Entries come from entries at the same places, with their tokens and callbacks. -/
def Shrinks (table table' : Table n κ) : Prop :=
  ∀ i e', table' i = some e' →
    ∃ e, table i = some e ∧ e.token = e'.token ∧ e.callback = e'.callback

theorem shrinks_of_cases {table table' : Table n κ}
    (h : ∀ i, table' i = table i ∨ table' i = none ∨
      ∃ g : Pending κ → BitVec 32,
        table' i = (table i).map fun e => { e with triggerTime := g e }) :
    Shrinks table table' := by
  intro i e' he'
  obtain h | h | ⟨g, h⟩ := h i
  · exact ⟨e', h ▸ he', rfl, rfl⟩
  · rw [h] at he'
    cases he'
  · rw [h, Option.map_eq_some_iff] at he'
    obtain ⟨e, he, rfl⟩ := he'
    exact ⟨e, he, rfl, rfl⟩

theorem shrinks_extend (table : Table n κ) (token : BitVec 8) (now delay : BitVec 32) :
    Shrinks table (extend table token now delay) :=
  shrinks_of_cases fun i => (extend_cases table token now delay i).imp_right fun h =>
    .inr ⟨fun _ => now + delay, h.2⟩

theorem shrinks_cancel (table : Table n κ) (token : BitVec 8) :
    Shrinks table (cancel table token) :=
  shrinks_of_cases fun i => (cancel_cases table token i).imp_right fun h => .inl h.2

theorem shrinks_requeue (table : Table n κ) (k : Fin n) (entry : Pending κ) (delay : BitVec 32) :
    Shrinks table (requeue table k entry delay) :=
  shrinks_of_cases fun i => (requeue_cases table k entry delay i).imp_right fun h =>
    h.2.2.imp_right fun h => ⟨fun e => e.triggerTime + delay, h⟩

theorem TokensDiffer.shrinks {table table' : Table n κ} (h : TokensDiffer table)
    (hs : Shrinks table table') : TokensDiffer table' := by
  intro i j e' f' he' hf' heq
  obtain ⟨e, he, het, -⟩ := hs i e' he'
  obtain ⟨f, hf, hft, -⟩ := hs j f' hf'
  exact h i j e f he hf (het.trans (heq.trans hft.symm))

end Kept

section Runs

/-- What holds between two calls: an executor in the place of a waiting entry, under its token, was
deferred before the callback was called. -/
structure Sound (s : State n κ) : Prop where
  tokens : TokensDiffer s.table
  deferred : ∀ i e, s.table i = some e → e.callback.2 < s.deferred
  waiting : ∀ f ∈ s.stack, ∀ e, s.table f.i = some e → e.token = f.entry.token →
    e.callback.2 < f.since
  since : ∀ f ∈ s.stack, f.since ≤ s.deferred

theorem sound_start : Sound (start : State n κ) where
  tokens i j e f he := by cases he
  deferred i e he := by cases he
  waiting f hf := by cases hf
  since f hf := by cases hf

theorem Sound.shrinks {s : State n κ} (h : Sound s) {table : Table n (κ × ℕ)}
    (hs : Shrinks s.table table) {stack : List (Frame n κ)} (hstack : stack ⊆ s.stack)
    (last : BitVec 32) (token : BitVec 8) :
    Sound { s with table, stack, lastExecutionTime := last, currentToken := token } where
  tokens := h.tokens.shrinks hs
  deferred i e' he' := by
    obtain ⟨e, he, -, hc⟩ := hs i e' he'
    rw [← hc]
    exact h.deferred i e he
  waiting f hf e' he' ht := by
    obtain ⟨e, he, het, hc⟩ := hs f.i e' he'
    rw [← hc]
    exact h.waiting f (hstack hf) e he (het.trans ht)
  since f hf := h.since f (hstack hf)

theorem shrinks_rfl (table : Table n κ) : Shrinks table table := fun _ e he => ⟨e, he, rfl, rfl⟩

theorem loopFrom_cases (now : BitVec 32) (k : ℕ) (s : State n κ) :
    loopFrom now k s = s ∨ ∃ i entry, s.table i = some entry ∧
      loopFrom now k s = { s with stack := ⟨now, i, entry, s.deferred⟩ :: s.stack } := by
  rw [loopFrom]
  split
  · exact .inl rfl
  · rename_i i hfind
    split
    · exact .inl rfl
    · rename_i entry hentry
      exact .inr ⟨i, entry, hentry, rfl⟩

theorem loopFrom_table (now : BitVec 32) (k : ℕ) (s : State n κ) :
    (loopFrom now k s).table = s.table := by
  obtain h | ⟨i, entry, -, h⟩ := loopFrom_cases now k s <;> rw [h]

theorem Sound.loopFrom {s : State n κ} (h : Sound s) (now : BitVec 32) (k : ℕ) :
    Sound (loopFrom now k s) := by
  obtain hs | ⟨i, entry, -, hs⟩ := loopFrom_cases now k s <;> rw [hs]
  · exact h
  · refine ⟨h.tokens, h.deferred, fun f hf e he ht => ?_, fun f hf => ?_⟩
    · rcases List.mem_cons.mp hf with rfl | hf
      · exact h.deferred _ e he
      · exact h.waiting f hf e he ht
    · rcases List.mem_cons.mp hf with rfl | hf
      · exact le_rfl
      · exact h.since f hf

/-- A new executor is behind all callbacks that wait, and is not taken for one of their entries. -/
theorem Sound.defer {s : State n κ} (h : Sound s) {now delay : BitVec 32} {callback : κ}
    (hfresh : Fresh s (.defer now delay callback)) :
    Sound (step s (.defer now delay callback)) := by
  have hlt : s.deferred < s.deferred + 1 := Nat.lt_succ_self _
  obtain htable | ⟨i, entry, hdelay, hnone, hfree, htoken, hfirst, hcallback, htable⟩ :=
    deferExec_first s.table s.currentToken now delay (callback, s.deferred)
  · rw [step]
    rw [htable]
    exact ⟨h.tokens, fun i e he => (h.deferred i e he).trans hlt, h.waiting,
      fun f hf => (h.since f hf).trans hlt.le⟩
  · rw [step]
    rw [htable]
    refine ⟨h.tokens.update_some fun j e _ he ht => ?_,
      fun j e (he : Function.update s.table i (some entry) j = some e) => ?_,
      fun f hf e (he : Function.update s.table i (some entry) f.i = some e) ht => ?_,
      fun f hf => (h.since f hf).trans hlt.le⟩
    · exact htoken.2 j ((tokenAt_of_some he).trans ht)
    · by_cases hj : j = i
      · subst hj
        rw [Function.update_self, Option.some.injEq] at he
        rw [← he, hcallback]
        exact hlt
      · rw [Function.update_of_ne hj] at he
        exact (h.deferred j e he).trans hlt
    · by_cases hi : f.i = i
      · refine absurd ?_ (hfresh hdelay f hf)
        subst hi
        rw [Function.update_self, Option.some.injEq] at he
        subst he
        rw [ComesRound, ← ht]
        exact ⟨hnone, hfree, htoken, hfirst⟩
      · rw [Function.update_of_ne hi] at he
        exact h.waiting f hf e he ht

theorem Sound.step {s : State n κ} (h : Sound s) {a : Action κ} (ha : Fresh s a) :
    Sound (step s a) := by
  cases a with
  | defer now delay callback => exact h.defer ha
  | extend token now delay =>
    exact h.shrinks (shrinks_extend s.table token now delay) (List.Subset.refl _) _ _
  | cancel token => exact h.shrinks (shrinks_cancel s.table token) (List.Subset.refl _) _ _
  | elsewhere token => exact h.shrinks (shrinks_rfl s.table) (List.Subset.refl _) _ _
  | task now =>
    rw [DeferredExec.step]
    split_ifs with hnow
    · exact (h.shrinks (shrinks_rfl s.table) (List.Subset.refl _) _ _).loopFrom now 0
    · exact h
  | returns delay =>
    rw [DeferredExec.step]
    split
    · exact h
    · rename_i f stack hstack
      refine (h.shrinks (shrinks_requeue s.table f.i f.entry delay) ?_ _ _).loopFrom _ _
      rw [hstack]
      exact List.subset_cons_self f stack

theorem Sound.separate {s : State n κ} (h : Sound s) : Separate s where
  tokens := h.tokens
  extend token now delay i hi :=
    (extend_cases s.table token now delay i).resolve_right fun h => hi h.1
  cancel token i hi := (cancel_cases s.table token i).resolve_right fun h => hi h.1
  returns f stack hstack delay i e he hsince := by
    have htable : (DeferredExec.step s (.returns delay)).table =
        requeue s.table f.i f.entry delay := by
      rw [DeferredExec.step, hstack]
      exact loopFrom_table ..
    rw [htable, ← he]
    refine (requeue_cases s.table f.i f.entry delay i).resolve_right ?_
    rintro ⟨rfl, htoken, -⟩
    have hlt := h.waiting f (by rw [hstack]; exact List.mem_cons_self) e he
      ((tokenAt_of_some he).symm.trans htoken)
    omega

end Runs

/-- The calls, each of which is made in a state in which it is fresh. -/
def calls : Monitor (Action κ) (State n κ) := ⟨step, Fresh⟩

instance (s : State n κ) (a : Action κ) : Decidable (calls.ok s a) :=
  inferInstanceAs (Decidable (Fresh s a))

/-- In every run in which no executor is deferred when the tokens have come round to a waiting
entry, the calls do not interfere, also those from inside callbacks. -/
theorem run_separate {as : List (Action κ)} (h : calls.Accepts (start : State n κ) as)
    (pre rest : List (Action κ)) (has : as = pre ++ rest) :
    Separate (calls.after (start : State n κ) pre) :=
  h.prefixes (I := Sound) (fun _ hs => hs.separate) (fun _ _ hs ha => hs.step ha) sound_start
    pre rest has

section Examples

/-- A callback cancels its own executor and defers another one. -/
def replacing : List (Action Unit) :=
  [.defer 0 1 (), .task 1, .cancel 1, .defer 1 5 (), .returns 0]

theorem replacing_separate : Separate (calls.after (start : State 1 Unit) replacing) :=
  run_separate (by decide +kernel) replacing [] (List.append_nil replacing).symm

/-- A callback cancels its own executor, then defers and cancels others until its token comes round,
and defers another one. -/
def comingRound : List (Action Unit) :=
  [.defer 0 1 (), .task 1, .cancel 1] ++
    (List.range 254).flatMap (fun k => [.defer 1 5 (), .cancel (BitVec.ofNat 8 (k + 2))]) ++
    [.defer 1 5 ()]

/-- The last executor is deferred in the callback, and gone when the callback returns 0. -/
theorem comingRound_not_separate :
    ¬ Separate (calls.after (start : State 1 Unit) comingRound) := by
  have hstate : let s := calls.after (start : State 1 Unit) comingRound
      s.stack.map Frame.since = [1] ∧ (s.table 0).map (fun e => e.callback.2) = some 255 ∧
        (step s (.returns 0)).table 0 = none := by
    decide +kernel
  obtain ⟨hstack, htable, hgone⟩ := hstate
  intro h
  obtain ⟨e, he, hserial⟩ := Option.map_eq_some_iff.mp htable
  obtain ⟨f, stack, hf, hsince, -⟩ := List.map_eq_cons_iff.mp hstack
  have hkept := h.returns f stack hf 0 0 e he (by omega)
  rw [hgone] at hkept
  cases hkept

end Examples

end Qmk.DeferredExec
