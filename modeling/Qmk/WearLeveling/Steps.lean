import Qmk.WearLeveling.LogReady

/-! # The public calls

The exact state after a write that does not fail, and the calls of a store that
never fails.
-/

namespace Qmk.WearLeveling

/-- No call of the store fails. -/
def Env.NeverFails (env : Env) : Prop := ∀ n c, env.fails n c = false

theorem Env.NeverFails.reads {env : Env} (h : env.NeverFails) : env.ReadsSucceed :=
  fun n a => h n (.read a)

theorem Env.working_neverFails : Env.working.NeverFails := fun _ _ => rfl

/-- The state in which a write starts to append: the cache is updated, the store unlocked. -/
def State.beginWrite (s : State) (a : ℕ) (v : List UInt8) : State :=
  { s with
    cache := s.cache.write a v
    unlocked := true
    calls := s.calls ++ if s.unlocked then [] else [.unlock] }

/-- The state `t` after the lock that a write started from `s` has taken is given back. -/
def State.endWrite (s t : State) : State :=
  { t with
    unlocked := s.unlocked
    calls := t.calls ++ if s.unlocked then [] else [.lock] }

def writeWords (cfg : Config) (a : ℕ) (v : List UInt8) : List (List UInt8) :=
  (writeRecords cfg a v).flatMap LogRecord.words

variable {env : Env} {cfg : Config}

theorem length_of_mem_writeWords (hU : cfg.logicalSize ≤ 2 ^ 19) {a : ℕ} {v : List UInt8}
    (hin : a + v.length ≤ cfg.logicalSize) :
    ∀ w ∈ writeWords cfg a v, w.length = cfg.wordBytes :=
  length_of_mem_words (writeRecords_sound hU hin)

theorem unlock_of_ok {s : State} (h : (wearLevelingUnlock env s).1 ≠ .failure) :
    (wearLevelingUnlock env s).2 =
      { s with unlocked := true, calls := s.calls ++ if s.unlocked then [] else [.unlock] } ∧
    ((wearLevelingUnlock env s).1 = .success ↔ s.unlocked = false) := by
  unfold wearLevelingUnlock at h ⊢
  by_cases hu : s.unlocked = true
  · have hs : s = { s with unlocked := true } := by rw [← hu]
    simp [hu, ← hs]
  by_cases hb : (backingStoreUnlock env s).1 = true
  · simp only [hu, hb, if_true, Bool.false_eq_true, if_false]
    exact ⟨rfl, by simp⟩
  · simp [hu, hb] at h

/-- The part of a write after its words have been appended with result `r`; `u` is the lock flag
from before the write. -/
def finishWrite (env : Env) (cfg : Config) (u : Bool) (r : Status × State) : Status × State :=
  let r := if r.1 = .success then wearLevelingConsolidateIfNeeded env cfg r.2 else r
  if u then r
  else
    let l := wearLevelingLock env r.2
    (if l.1 = .failure then .failed else r.1, l.2)

theorem write_eq_finishWrite {s : State} {a : ℕ} {v : List UInt8}
    (hin : a + v.length ≤ cfg.logicalSize) (hne : s.cache.read a v.length ≠ v)
    (hu : (wearLevelingUnlock env { s with cache := s.cache.write a v }).1 ≠ .failure) :
    wearLevelingWrite env cfg a v s = finishWrite env cfg s.unlocked
      (appendWords env cfg (writeWords cfg a v) (s.beginWrite a v)) := by
  obtain ⟨hs, hiff⟩ := unlock_of_ok hu
  have hb : (wearLevelingUnlock env { s with cache := s.cache.write a v }).2 =
      s.beginWrite a v := hs
  unfold wearLevelingWrite finishWrite writeWords
  simp only [if_neg (Nat.not_lt.mpr hin), if_neg hne, writeRaw_eq, if_neg hu, hb]
  by_cases hl : s.unlocked = true
  · have hn : (wearLevelingUnlock env { s with cache := s.cache.write a v }).1 ≠ .success :=
      fun h => by simpa [hl] using hiff.mp h
    simp only [hn, if_false]
    simp only [hl, if_true]
  · have hn : (wearLevelingUnlock env { s with cache := s.cache.write a v }).1 = .success :=
      hiff.mpr (by simpa using hl)
    simp only [hn, if_true]
    simp only [hl, if_false, Bool.false_eq_true]

theorem finishWrite_of_ok {u : Bool} {st : Status} {t : State} (ht : t.unlocked = true)
    (hlt : t.writeAddress < cfg.backingSize) (h : (finishWrite env cfg u (st, t)).1 ≠ .failed) :
    finishWrite env cfg u (st, t) =
      (st, { t with unlocked := u, calls := t.calls ++ if u then [] else [.lock] }) := by
  have hc : (if (st, t).1 = .success then wearLevelingConsolidateIfNeeded env cfg (st, t).2
      else (st, t)) = (st, t) := by
    unfold wearLevelingConsolidateIfNeeded
    split_ifs with hs hB
    · exact absurd hB (Nat.not_le.mpr hlt)
    · simp only at hs; rw [hs]
    · rfl
  unfold finishWrite at h ⊢
  simp only [hc] at h ⊢
  cases u with
  | true => simp [← ht]
  | false =>
    unfold wearLevelingLock at h ⊢
    by_cases hb : (backingStoreLock env t).1 = true
    · simp only [ht, hb, if_true, Bool.false_eq_true, if_false, reduceCtorEq]
      rfl
    · simp [ht, hb] at h

theorem finishWrite_failed {u : Bool} (t : State) :
    (finishWrite env cfg u (.failed, t)).1 = .failed := by
  cases u <;> simp [finishWrite]

/-- A write in range that changes the cache and does not fail: the words are in the log, or the
log filled up and was consolidated. -/
theorem write_of_ok (hlog : cfg.logStart < cfg.backingSize) (hU : cfg.logicalSize ≤ 2 ^ 19)
    {s : State} {a : ℕ} {v : List UInt8} (hlt : s.writeAddress < cfg.backingSize)
    (hdvd : cfg.wordBytes ∣ s.writeAddress) (hin : a + v.length ≤ cfg.logicalSize)
    (hne : s.cache.read a v.length ≠ v) (h : (wearLevelingWrite env cfg a v s).1 ≠ .failed) :
    (s.writeAddress + (writeWords cfg a v).length * cfg.wordBytes < cfg.backingSize ∧
      wearLevelingWrite env cfg a v s =
        (.success, s.endWrite (appended cfg (s.beginWrite a v) (writeWords cfg a v)))) ∨
    ∃ ws₁ ws₂, writeWords cfg a v = ws₁ ++ ws₂ ∧
      s.writeAddress + ws₁.length * cfg.wordBytes = cfg.backingSize ∧
      wearLevelingWrite env cfg a v s = (.consolidated,
        s.endWrite (consolidated env cfg (appended cfg (s.beginWrite a v) ws₁))) := by
  by_cases hu : (wearLevelingUnlock env { s with cache := s.cache.write a v }).1 = .failure
  · simp [wearLevelingWrite, Nat.not_lt.mpr hin, hne, hu] at h
  rw [write_eq_finishWrite hin hne hu] at h ⊢
  have hok : (appendWords env cfg (writeWords cfg a v) (s.beginWrite a v)).1 ≠ .failed := by
    intro hf
    rw [← Prod.mk.eta (p := appendWords _ _ _ _), hf] at h
    exact h (finishWrite_failed _)
  rcases appendWords_of_ok (length_of_mem_writeWords hU hin) (s := s.beginWrite a v) rfl hlt hdvd
    hok with ⟨hB, he⟩ | ⟨ws₁, ws₂, hws, hB, he⟩
  · rw [he] at h ⊢
    exact .inl ⟨hB, finishWrite_of_ok rfl hB h⟩
  · rw [he] at h ⊢
    exact .inr ⟨ws₁, ws₂, hws, hB, finishWrite_of_ok rfl hlog h⟩

theorem backingStoreErase_of_ok {s : State} (h : (backingStoreErase env cfg s).1 = true) :
    (backingStoreErase env cfg s).2 = { s with
      store := s.store.write 0 (List.replicate cfg.backingSize 0)
      calls := s.calls ++ [.erase] } := by
  unfold backingStoreErase at h ⊢
  simp only at h ⊢
  split_ifs at h ⊢
  rfl

theorem lock_of_ok {s : State} (hu : s.unlocked = true)
    (h : (wearLevelingLock env s).1 ≠ .failure) :
    (wearLevelingLock env s).2 = { s with unlocked := false, calls := s.calls ++ [.lock] } := by
  unfold wearLevelingLock at h ⊢
  by_cases hb : (backingStoreLock env s).1 = true
  · simp only [hu, hb, if_true]
    rfl
  · simp [hu, hb] at h

theorem erase_of_ok {s : State} (h : (wearLevelingErase env cfg s).1 ≠ .failed) :
    wearLevelingErase env cfg s = (.success, { wearLevelingClearCache cfg s with
      store := s.store.write 0 (List.replicate cfg.backingSize 0)
      calls := s.calls ++ if s.unlocked then [.erase] else [.unlock, .erase, .lock] }) := by
  unfold wearLevelingErase at h ⊢
  by_cases hf : (wearLevelingUnlock env s).1 = .failure
  · simp [hf] at h
  obtain ⟨hs, hiff⟩ := unlock_of_ok hf
  simp only [hf, if_false, hs] at h ⊢
  generalize he : backingStoreErase env cfg _ = e at h ⊢
  by_cases hok : e.1 = true
  swap
  · by_cases hn : (wearLevelingUnlock env s).1 = .success
    · simp [hn, hok] at h
    · simp [hn, hok] at h
  have hes := he ▸ backingStoreErase_of_ok (he ▸ hok)
  by_cases hu : s.unlocked = true
  · have hn : (wearLevelingUnlock env s).1 ≠ .success := fun hsuc => by simp [hiff.mp hsuc] at hu
    simp [hn, hok, hes, hu, wearLevelingClearCache]
  · have hn : (wearLevelingUnlock env s).1 = .success := hiff.mpr (by simpa using hu)
    simp only [hn, hok, if_true, true_and] at h ⊢
    by_cases hl : (wearLevelingLock env (wearLevelingClearCache cfg e.2)).1 = .failure
    · simp [hl] at h
    · rw [lock_of_ok (by simp [hes, wearLevelingClearCache]) hl, if_pos hl]
      simp [hes, hu, wearLevelingClearCache]

/-- What a write that does not fail leaves behind: nothing when the cache holds the value already,
else a log with the written bytes, or the consolidated cache. -/
theorem LogReady.write (hlog : cfg.logStart < cfg.backingSize) (hU : cfg.logicalSize ≤ 2 ^ 19)
    {s : State} {c : Mem UInt8} (hr : LogReady env cfg s c) {a : ℕ} {v : List UInt8}
    (hin : a + v.length ≤ cfg.logicalSize) (h : (wearLevelingWrite env cfg a v s).1 ≠ .failed) :
    (s.cache.read a v.length = v ∧ wearLevelingWrite env cfg a v s = (.success, s)) ∨
    ((wearLevelingWrite env cfg a v s).2.cache = s.cache.write a v ∧
      (LogReady env cfg (wearLevelingWrite env cfg a v s).2 (c.write a v) ∨
        LogReady env cfg (wearLevelingWrite env cfg a v s).2 (s.cache.write a v))) := by
  by_cases hne : s.cache.read a v.length = v
  · exact .inl ⟨hne, by simp [wearLevelingWrite, Nat.not_lt.mpr hin, hne]⟩
  right
  have hge : ∀ i, cfg.logicalSize ≤ i → s.cache.write a v i = s.cache i :=
    fun i hi => Mem.write_of_ge _ _ (hin.trans hi)
  rcases write_of_ok hlog hU hr.lt hr.dvd hin hne h with ⟨hB, he⟩ | ⟨ws₁, ws₂, _, hB, he⟩
  · rw [he]
    have hb : LogReady env cfg (s.beginWrite a v) c := hr.congr rfl rfl hge
    have ha := hb.append (writeRecords_sound hU hin) hB
    rw [applyRecords_writeRecords] at ha
    exact ⟨rfl, .inl (ha.congr rfl rfl fun _ _ => rfl)⟩
  · rw [he]
    refine ⟨rfl, .inr ?_⟩
    exact (logReady_consolidated hlog (appended cfg (s.beginWrite a v) ws₁)).congr rfl rfl
      fun _ _ => rfl

section NeverFails

variable (hf : env.NeverFails)
include hf

theorem backingStoreWriteBulk_neverFails (x : ℕ) (ws : List (List UInt8)) (s : State) :
    (backingStoreWriteBulk env cfg x ws s).1 = true := by
  induction ws generalizing x s with
  | nil => rfl
  | cons w ws ih => simp [backingStoreWriteBulk, backingStoreWrite, hf _ _, ih]

theorem consolidateForce_neverFails (s : State) :
    (wearLevelingConsolidateForce env cfg s).1 = .consolidated := by
  simp [wearLevelingConsolidateForce, wearLevelingWriteConsolidated, backingStoreErase, hf _ _,
    backingStoreWriteBulk_neverFails hf]

theorem consolidateIfNeeded_neverFails (s : State) :
    (wearLevelingConsolidateIfNeeded env cfg s).1 ≠ .failed := by
  unfold wearLevelingConsolidateIfNeeded
  split_ifs
  · simp [consolidateForce_neverFails hf]
  · simp

theorem appendWords_neverFails (ws : List (List UInt8)) (s : State) :
    (appendWords env cfg ws s).1 ≠ .failed := by
  induction ws generalizing s with
  | nil => simp [appendWords]
  | cons w ws ih =>
    rw [appendWords, andThen]
    split_ifs
    · exact ih _
    · simpa [wearLevelingAppendRaw, backingStoreWrite, hf _ _] using
        consolidateIfNeeded_neverFails hf _

theorem lock_neverFails (s : State) : (wearLevelingLock env s).1 ≠ .failure := by
  unfold wearLevelingLock
  split_ifs <;> simp_all [backingStoreLock, hf _ _]

theorem unlock_neverFails (s : State) : (wearLevelingUnlock env s).1 ≠ .failure := by
  unfold wearLevelingUnlock
  split_ifs <;> simp_all [backingStoreUnlock, hf _ _]

theorem finishWrite_neverFails {u : Bool} {r : Status × State} (hr : r.1 ≠ .failed) :
    (finishWrite env cfg u r).1 ≠ .failed := by
  have hc : (if r.1 = .success then wearLevelingConsolidateIfNeeded env cfg r.2 else r).1 ≠
      .failed := by
    split_ifs
    · exact consolidateIfNeeded_neverFails hf _
    · exact hr
  unfold finishWrite
  cases u with
  | true => simpa using hc
  | false => simpa [lock_neverFails hf] using hc

theorem write_neverFails {a : ℕ} {v : List UInt8} (hin : a + v.length ≤ cfg.logicalSize)
    (s : State) : (wearLevelingWrite env cfg a v s).1 ≠ .failed := by
  by_cases hne : s.cache.read a v.length = v
  · simp [wearLevelingWrite, Nat.not_lt.mpr hin, hne]
  · rw [write_eq_finishWrite hin hne (unlock_neverFails hf _)]
    exact finishWrite_neverFails hf (appendWords_neverFails hf _ _)

theorem erase_neverFails (s : State) : (wearLevelingErase env cfg s).1 ≠ .failed := by
  by_cases hu : s.unlocked = true
  · simp [wearLevelingErase, wearLevelingUnlock, hu, backingStoreErase, hf _ _]
  · simp [wearLevelingErase, wearLevelingUnlock, wearLevelingLock, hu, backingStoreErase,
      backingStoreUnlock, backingStoreLock, hf _ _, State.record, wearLevelingClearCache]

end NeverFails

end Qmk.WearLeveling
