import Qmk.Monitor
import Qmk.WearLeveling.Steps

/-! # Lock discipline

Erases and writes are meant to happen between an unlock and the matching lock.
Writing and erasing keep to it for any contents of the store. Initialising keeps
to it exactly when playback ends at an empty slot: a corrupt or full log is
consolidated, and the erase of that consolidation comes before the unlock.
-/

namespace Qmk.WearLeveling

/-- The lock of the store after a call: `true` while it is unlocked. -/
def StoreCall.unlocks (u : Bool) : StoreCall → Bool
  | .unlock => true
  | .lock => false
  | _ => u

def StoreCall.Permitted (u : Bool) : StoreCall → Prop
  | .erase => u = true
  | .write _ _ => u = true
  | _ => True

instance (u : Bool) : DecidablePred (StoreCall.Permitted u)
  | .erase | .write _ _ => inferInstanceAs (Decidable (u = true))
  | .init | .unlock | .lock | .read _ => isTrue trivial

def lockDiscipline : Monitor StoreCall Bool where
  next := StoreCall.unlocks
  ok := StoreCall.Permitted

/-- Playback of the store ends at an empty slot of the log. -/
def CleanLog (cfg : Config) (m : Mem UInt8) : Prop :=
  ∃ x, Visits cfg m x ∧ x < cfg.backingSize ∧ slotAt cfg m x = .empty

/-- The runs in which every initialisation finds a clean log. -/
def cleanLogRuns (env : Env) (cfg : Config) : Monitor Op State where
  next := step env cfg
  ok s o := o = .init → CleanLog cfg s.store

def StaysUnlocked (s t : State) : Prop :=
  t.unlocked = true ∧ ∃ cs, t.calls = s.calls ++ cs ∧ ∀ c ∈ cs, c ≠ .unlock ∧ c ≠ .lock

variable {env : Env} {cfg : Config}

theorem lockDiscipline_busy {cs : List StoreCall} (h : ∀ c ∈ cs, c ≠ .unlock ∧ c ≠ .lock) :
    lockDiscipline.Accepts true cs ∧ lockDiscipline.after true cs = true := by
  refine lockDiscipline.accepts_of_forall (fun c hc => ?_) fun c hc => ?_
  · cases c <;> trivial
  · have := h c hc
    cases c <;> first | rfl | exact absurd rfl this.1 | exact absurd rfl this.2

theorem lockDiscipline_reads {cs : List StoreCall} (h : OnlyReads cs) :
    lockDiscipline.Accepts false cs ∧ lockDiscipline.after false cs = false := by
  refine lockDiscipline.accepts_of_forall (fun c hc => ?_) fun c hc => ?_
  · obtain ⟨a, rfl⟩ := h c hc
    trivial
  · obtain ⟨a, rfl⟩ := h c hc
    rfl

section StaysUnlocked

theorem StaysUnlocked.refl {s : State} (h : s.unlocked = true) : StaysUnlocked s s :=
  ⟨h, [], by simp, by simp⟩

theorem StaysUnlocked.trans {s t r : State} (h : StaysUnlocked s t) (h' : StaysUnlocked t r) :
    StaysUnlocked s r := by
  obtain ⟨_, cs, hcs, hc⟩ := h
  obtain ⟨hr, ds, hds, hd⟩ := h'
  refine ⟨hr, cs ++ ds, by rw [hds, hcs, List.append_assoc], fun c h => ?_⟩
  exact (List.mem_append.mp h).elim (hc c) (hd c)

variable {s : State} (hu : s.unlocked = true)
include hu

theorem staysUnlocked_write (x : ℕ) (w : List UInt8) :
    StaysUnlocked s (backingStoreWrite env x w s).2 := by
  unfold backingStoreWrite
  simp only
  split_ifs <;> exact ⟨hu, [.write x w], rfl, by simp⟩

theorem staysUnlocked_erase : StaysUnlocked s (backingStoreErase env cfg s).2 := by
  unfold backingStoreErase
  simp only
  split_ifs <;> exact ⟨hu, [.erase], rfl, by simp⟩

theorem staysUnlocked_writeBulk (x : ℕ) (ws : List (List UInt8)) :
    StaysUnlocked s (backingStoreWriteBulk env cfg x ws s).2 := by
  induction ws generalizing x s with
  | nil => exact .refl hu
  | cons w ws ih =>
    have hw : StaysUnlocked s (backingStoreWrite env x w s).2 := staysUnlocked_write hu x w
    simp only [backingStoreWriteBulk]
    split_ifs
    · exact hw.trans (ih hw.1 _)
    · exact hw

theorem staysUnlocked_writeConsolidated :
    StaysUnlocked s (wearLevelingWriteConsolidated env cfg s).2 := by
  have hn : wearLevelingUnlock env s = (.unchanged, s) := by simp [wearLevelingUnlock, hu]
  simp only [wearLevelingWriteConsolidated, hn, reduceCtorEq, if_false]
  have hw : StaysUnlocked s (backingStoreWriteBulk env cfg 0
      (wordsOf cfg s.cache (cfg.logicalSize / cfg.wordBytes)) s).2 := staysUnlocked_writeBulk hu _ _
  split_ifs
  · exact hw.trans (staysUnlocked_writeBulk hw.1 _ _)
  · exact hw

theorem staysUnlocked_consolidateForce :
    StaysUnlocked s (wearLevelingConsolidateForce env cfg s).2 := by
  have he : StaysUnlocked s (backingStoreErase env cfg s).2 := staysUnlocked_erase hu
  unfold wearLevelingConsolidateForce
  simp only
  split_ifs
  · exact he.trans (staysUnlocked_writeConsolidated he.1)
  · exact he

theorem staysUnlocked_consolidateIfNeeded :
    StaysUnlocked s (wearLevelingConsolidateIfNeeded env cfg s).2 := by
  unfold wearLevelingConsolidateIfNeeded
  split_ifs
  · exact staysUnlocked_consolidateForce hu
  · exact .refl hu

theorem staysUnlocked_appendWords (ws : List (List UInt8)) :
    StaysUnlocked s (appendWords env cfg ws s).2 := by
  induction ws generalizing s with
  | nil => exact .refl hu
  | cons w ws ih =>
    have hw : StaysUnlocked s (backingStoreWrite env s.writeAddress w s).2 :=
      staysUnlocked_write hu _ _
    have ha : StaysUnlocked s (wearLevelingAppendRaw env cfg w s).2 := by
      unfold wearLevelingAppendRaw
      simp only
      split_ifs
      · exact hw.trans (staysUnlocked_consolidateIfNeeded hw.1)
      · exact hw
    rw [appendWords, andThen]
    split_ifs
    · exact ha.trans (ih ha.1)
    · exact ha

end StaysUnlocked

/-- What playback ends with: an empty slot, a corrupt slot, or the end of the store. -/
theorem playbackLoop_outcome (h : env.ReadsSucceed) {m : Mem UInt8} {x : ℕ} (fuel : ℕ)
    (hf : cfg.backingSize - x ≤ fuel) {s : State} (hm : s.store = m) :
    ∃ y rs c, OnlyReads rs ∧ Relation.ReflTransGen (Follows cfg m) x y ∧
      (playbackLoop env cfg fuel x s).2 = { s with cache := c, calls := s.calls ++ rs } ∧
      ((y < cfg.backingSize ∧ slotAt cfg m y = .empty ∧
          (playbackLoop env cfg fuel x s).1 = ⟨true, .success, y⟩) ∨
        (y < cfg.backingSize ∧ (∃ n, slotAt cfg m y = .corrupt n) ∧
          (playbackLoop env cfg fuel x s).1.status = .failed) ∨
        (cfg.backingSize ≤ y ∧ (playbackLoop env cfg fuel x s).1 = ⟨false, .success, y⟩)) := by
  induction fuel generalizing x s with
  | zero =>
    exact ⟨x, [], s.cache, onlyReads_nil, .refl, by simp [playbackLoop],
      .inr (.inr ⟨by omega, rfl⟩)⟩
  | succ fuel ih =>
    by_cases hlt : x < cfg.backingSize
    swap
    · exact ⟨x, [], s.cache, onlyReads_nil, .refl, by simp [playbackLoop, hlt],
        .inr (.inr ⟨by omega, by simp [playbackLoop, hlt]⟩)⟩
    have ho := playbackEntry_outcome cfg h x s
    rw [hm] at ho
    rw [playbackLoop, if_pos hlt]
    cases hslot : slotAt cfg m x with
    | empty =>
      rw [hslot] at ho
      rw [ho]
      exact ⟨x, readCalls cfg x 1, s.cache, onlyReads_readCalls _ _, .refl, rfl,
        .inl ⟨hlt, hslot, rfl⟩⟩
    | corrupt n =>
      rw [hslot] at ho
      rw [ho]
      exact ⟨x, readCalls cfg x n, s.cache, onlyReads_readCalls _ _, .refl, rfl,
        .inr (.inl ⟨hlt, ⟨n, hslot⟩, rfl⟩)⟩
    | entry n a data =>
      rw [hslot] at ho
      obtain ⟨data', _, _, ho⟩ := ho
      rw [ho]
      have hn := Nat.mul_pos (slotAt_entry_bounds hslot).1 cfg.wordBytes_pos
      obtain ⟨y, rs, c, hrs, hxy, hs, hout⟩ := ih (x := x + n * cfg.wordBytes) (by omega)
        (s := { s.recordReads cfg x n with cache := s.cache.write a data' }) hm
      refine ⟨y, readCalls cfg x n ++ rs, c, (onlyReads_readCalls _ _).append hrs,
        hxy.head ⟨hlt, n, a, data, hslot, rfl⟩, ?_, hout⟩
      simp only [Bool.false_eq_true, if_false]
      exact hs.trans (by simp only [State.recordReads, List.append_assoc])

/-- Playback is deterministic: it cannot pass the place where it ends. -/
theorem CleanLog.unique {m : Mem UInt8} (h : CleanLog cfg m) {y : ℕ} (hy : Visits cfg m y)
    (hend : ∀ z, ¬ Follows cfg m y z) : y < cfg.backingSize ∧ slotAt cfg m y = .empty := by
  obtain ⟨x, hx, hlt, he⟩ := h
  have hfun : Relator.RightUnique (Follows cfg m) := by
    rintro a b c ⟨_, n, _, _, hs, rfl⟩ ⟨_, n', _, _, hs', rfl⟩
    rw [hs] at hs'
    obtain ⟨rfl, _, _⟩ := Slot.entry.inj hs'
    rfl
  have hstop : ∀ z, ¬ Follows cfg m x z := by
    rintro z ⟨_, n, a, data, hs, _⟩
    rw [he] at hs
    cases hs
  have heq : y = x := by
    rcases Relation.ReflTransGen.total_of_right_unique hfun hx hy with h' | h'
    · rcases h'.cases_head with h' | ⟨z, hz, _⟩
      · exact h'.symm
      · exact absurd hz (hstop z)
    · rcases h'.cases_head with h' | ⟨z, hz, _⟩
      · exact h'
      · exact absurd hz (hend z)
  rw [heq]
  exact ⟨hlt, he⟩

section NeverFails

variable (hf : env.NeverFails)
include hf

theorem consolidateForce_locked {s : State} (hu : s.unlocked = false) :
    ∃ rest, (wearLevelingConsolidateForce env cfg s).2.calls = s.calls ++ .erase :: rest ∧
      (wearLevelingConsolidateForce env cfg s).2.unlocked = false := by
  have he : (backingStoreErase env cfg s).1 = true := by simp [backingStoreErase, hf _ _]
  generalize ht : (backingStoreErase env cfg s).2 = t
  have htu : t.unlocked = false := by rw [← ht, backingStoreErase_of_ok he]; exact hu
  have htc : t.calls = s.calls ++ [.erase] := by rw [← ht, backingStoreErase_of_ok he]
  have hl : wearLevelingUnlock env t =
      (.success, { t with unlocked := true, calls := t.calls ++ [.unlock] }) := by
    simp [wearLevelingUnlock, htu, backingStoreUnlock, hf _ _, State.record]
  obtain ⟨r, ⟨hr, cs, hcs, _⟩, hw⟩ : ∃ r, StaysUnlocked
      { t with unlocked := true, calls := t.calls ++ [.unlock] } r ∧
      (wearLevelingWriteConsolidated env cfg t).2 = (wearLevelingLock env r).2 := by
    simp only [wearLevelingWriteConsolidated, hl, if_true, backingStoreWriteBulk_neverFails hf]
    have hw := @staysUnlocked_writeBulk env cfg
      { t with unlocked := true, calls := t.calls ++ [.unlock] } rfl 0
      (wordsOf cfg t.cache (cfg.logicalSize / cfg.wordBytes))
    exact ⟨_, hw.trans (staysUnlocked_writeBulk hw.1 _ _), rfl⟩
  have hlock := lock_of_ok hr (lock_neverFails hf r)
  simp only [wearLevelingConsolidateForce, he, if_true, ht, hw, hlock]
  exact ⟨.unlock :: (cs ++ [.lock]), by simp [hcs, htc], trivial⟩

theorem playbackLog_neverFails (s : State) : (wearLevelingPlaybackLog env cfg s).1 ≠ .failed := by
  unfold wearLevelingPlaybackLog
  simp only
  split_ifs
  · simp [consolidateForce_neverFails hf]
  · exact consolidateIfNeeded_neverFails hf _

/-- Initialising a locked store: only reads for a clean log, and an erase of the locked store for
any other. -/
theorem init_lock {s : State} (hu : s.unlocked = false) :
    ∃ cs, (wearLevelingInit env cfg s).2.calls = s.calls ++ cs ∧
      (wearLevelingInit env cfg s).2.unlocked = false ∧
      (CleanLog cfg s.store →
        lockDiscipline.Accepts false cs ∧ lockDiscipline.after false cs = false) ∧
      (lockDiscipline.Accepts false cs → CleanLog cfg s.store) := by
  have hb : (backingStoreInit env (wearLevelingClearCache cfg s)).1 = true := by
    simp [backingStoreInit, hf _ _]
  generalize ht : (wearLevelingReadConsolidated env cfg
    (backingStoreInit env (wearLevelingClearCache cfg s)).2).2 = t
  have hr := @readConsolidated_eq env cfg hf.reads
    (backingStoreInit env (wearLevelingClearCache cfg s)).2 rfl
  have hts : t.store = s.store := by rw [← ht, hr]; rfl
  have htu : t.unlocked = false := by rw [← ht, hr]; exact hu
  have htc : t.calls = s.calls ++ .init :: consolidatedReads cfg := by
    rw [← ht, hr]
    simp [backingStoreInit, State.record, wearLevelingClearCache]
  have hinit : wearLevelingInit env cfg s = wearLevelingPlaybackLog env cfg t := by
    unfold wearLevelingInit
    simp only [hb, if_true, ht]
    rw [hr] at ht ⊢
    simp only [reduceCtorEq, if_false, playbackLog_neverFails hf]
  obtain ⟨y, rs, c, hrs, hy, hl, hout⟩ := @playbackLoop_outcome env cfg hf.reads s.store
    cfg.logStart cfg.backingSize (Nat.sub_le _ _) t hts
  have hreads : lockDiscipline.Accepts false (.init :: (consolidatedReads cfg ++ rs)) ∧
      lockDiscipline.after false (.init :: (consolidatedReads cfg ++ rs)) = false := by
    obtain ⟨hacc, hq⟩ := lockDiscipline_reads (onlyReads_consolidatedReads.append hrs)
    exact ⟨⟨trivial, hacc⟩, hq⟩
  have hstops : ∀ z, (cfg.backingSize ≤ y ∨ ∃ n, slotAt cfg s.store y = .corrupt n) →
      ¬ Follows cfg s.store y z := by
    rintro z (hB | ⟨n, hs⟩) ⟨hlt, _, _, _, hs', _⟩
    · omega
    · rw [hs] at hs'
      cases hs'
  have hdirty : (cfg.backingSize ≤ y ∨ ∃ n, slotAt cfg s.store y = .corrupt n) →
      wearLevelingPlaybackLog env cfg t = wearLevelingConsolidateForce env cfg
        { t with
          cache := c
          writeAddress := (playbackLoop env cfg cfg.backingSize cfg.logStart t).1.address
          calls := t.calls ++ rs } →
      ∃ cs, (wearLevelingInit env cfg s).2.calls = s.calls ++ cs ∧
        (wearLevelingInit env cfg s).2.unlocked = false ∧
        (CleanLog cfg s.store →
          lockDiscipline.Accepts false cs ∧ lockDiscipline.after false cs = false) ∧
        (lockDiscipline.Accepts false cs → CleanLog cfg s.store) := by
    intro hend hforce
    obtain ⟨rest, hcalls, hlocked⟩ := @consolidateForce_locked env cfg hf
      { t with
        cache := c
        writeAddress := (playbackLoop env cfg cfg.backingSize cfg.logStart t).1.address
        calls := t.calls ++ rs } htu
    refine ⟨.init :: (consolidatedReads cfg ++ rs) ++ .erase :: rest, ?_, ?_, ?_, ?_⟩
    · rw [hinit, hforce, hcalls]
      simp [htc]
    · rw [hinit, hforce]
      exact hlocked
    · intro hclean
      obtain ⟨hlt, he⟩ := hclean.unique hy fun z => hstops z hend
      rcases hend with hB | ⟨n, hs⟩
      · omega
      · rw [he] at hs
        cases hs
    · intro hacc
      rw [Monitor.accepts_append, hreads.2] at hacc
      exact absurd hacc.2.1 (by simp [lockDiscipline, StoreCall.Permitted])
  rcases hout with ⟨hlt, he, hp⟩ | ⟨hlt, hs, hp⟩ | ⟨hB, hp⟩
  · refine ⟨.init :: (consolidatedReads cfg ++ rs), ?_, ?_, fun _ => hreads,
      fun _ => ⟨y, hy, hlt, he⟩⟩
    · simp [hinit, wearLevelingPlaybackLog, hp, hl, wearLevelingConsolidateIfNeeded,
        Nat.not_le.mpr hlt, htc]
    · simp [hinit, wearLevelingPlaybackLog, hp, hl, wearLevelingConsolidateIfNeeded,
        Nat.not_le.mpr hlt, htu]
  · exact hdirty (.inr hs) (by simp [wearLevelingPlaybackLog, hp, hl])
  · exact hdirty (.inl hB) (by simp [wearLevelingPlaybackLog, hp, hl, hB,
      wearLevelingConsolidateIfNeeded])

theorem write_lock {s : State} (hu : s.unlocked = false) (a : ℕ) (v : List UInt8) :
    ∃ cs, (wearLevelingWrite env cfg a v s).2.calls = s.calls ++ cs ∧
      (wearLevelingWrite env cfg a v s).2.unlocked = false ∧
      lockDiscipline.Accepts false cs ∧ lockDiscipline.after false cs = false := by
  rcases Nat.lt_or_ge cfg.logicalSize (a + v.length) with hin | hin
  · exact ⟨[], by simp [wearLevelingWrite, hin], by simp [wearLevelingWrite, hin, hu], trivial, rfl⟩
  by_cases hne : s.cache.read a v.length = v
  · exact ⟨[], by simp [wearLevelingWrite, Nat.not_lt.mpr hin, hne],
      by simp [wearLevelingWrite, Nat.not_lt.mpr hin, hne, hu], trivial, rfl⟩
  rw [write_eq_finishWrite hin hne (unlock_neverFails hf _)]
  have hb : (s.beginWrite a v).calls = s.calls ++ [.unlock] := by simp [State.beginWrite, hu]
  obtain ⟨r, ⟨hr, cs, hcs, hc⟩, hw⟩ : ∃ r, StaysUnlocked (s.beginWrite a v) r ∧
      (finishWrite env cfg s.unlocked
        (appendWords env cfg (writeWords cfg a v) (s.beginWrite a v))).2 =
        (wearLevelingLock env r).2 := by
    have ha := @staysUnlocked_appendWords env cfg (s.beginWrite a v) rfl (writeWords cfg a v)
    simp only [finishWrite, hu, Bool.false_eq_true, if_false]
    split_ifs
    · exact ⟨_, ha.trans (staysUnlocked_consolidateIfNeeded ha.1), rfl⟩
    · exact ⟨_, ha, rfl⟩
  obtain ⟨hacc, hq⟩ := lockDiscipline_busy hc
  rw [hw, lock_of_ok hr (lock_neverFails hf r)]
  refine ⟨.unlock :: (cs ++ [.lock]), by simp [hcs, hb], rfl, ?_, ?_⟩
  · refine ⟨trivial, ?_⟩
    rw [Monitor.accepts_append]
    exact ⟨hacc, trivial, trivial⟩
  · simp only [Monitor.after_cons, Monitor.after_append]
    rfl

theorem step_lock {s : State} (hu : s.unlocked = false) (o : Op) :
    ∃ cs, (step env cfg s o).calls = s.calls ++ cs ∧ (step env cfg s o).unlocked = false ∧
      ((cleanLogRuns env cfg).ok s o →
        lockDiscipline.Accepts false cs ∧ lockDiscipline.after false cs = false) ∧
      (lockDiscipline.Accepts false cs → (cleanLogRuns env cfg).ok s o) := by
  cases o with
  | init =>
    obtain ⟨cs, hcs, hl, h₁, h₂⟩ := init_lock hf hu
    exact ⟨cs, hcs, hl, fun h => h₁ (h rfl), fun h _ => h₂ h⟩
  | erase =>
    have he := erase_of_ok (@erase_neverFails env cfg hf s)
    refine ⟨[.unlock, .erase, .lock], by simp [step, he, hu], by simp [step, he, hu,
      wearLevelingClearCache], fun _ => ⟨⟨trivial, rfl, trivial, trivial⟩, rfl⟩, fun _ h => ?_⟩
    cases h
  | write a v =>
    obtain ⟨cs, hcs, hl, hacc⟩ := write_lock hf hu a v
    exact ⟨cs, hcs, hl, fun _ => hacc, fun _ h => by cases h⟩
  | read a n =>
    exact ⟨[], by simp [step], hu, fun _ => ⟨trivial, rfl⟩, fun _ h => by cases h⟩

/-- The calls of a run keep to the discipline exactly when its initialisations find clean logs. -/
theorem run_lock (ops : List Op) {s : State} (hu : s.unlocked = false) :
    ∃ cs, (run env cfg s ops).calls = s.calls ++ cs ∧
      ((lockDiscipline.Accepts false cs ∧ lockDiscipline.after false cs = false) ↔
        (cleanLogRuns env cfg).Accepts s ops) := by
  induction ops generalizing s with
  | nil => exact ⟨[], by simp [run], by simp⟩
  | cons o ops ih =>
    obtain ⟨cs, hcs, hl, h₁, h₂⟩ := @step_lock env cfg hf s hu o
    obtain ⟨ds, hds, hiff⟩ := ih hl
    refine ⟨cs ++ ds, by rw [← List.append_assoc, ← hcs]; exact hds, ?_⟩
    rw [Monitor.accepts_append, Monitor.after_append, Monitor.accepts_cons]
    constructor
    · rintro ⟨⟨hacc, hds'⟩, hq⟩
      have hok := h₂ hacc
      rw [(h₁ hok).2] at hds' hq
      exact ⟨hok, hiff.mp ⟨hds', hq⟩⟩
    · rintro ⟨hok, hrest⟩
      obtain ⟨hacc, hq⟩ := h₁ hok
      rw [hq]
      exact ⟨⟨hacc, (hiff.mpr hrest).1⟩, (hiff.mpr hrest).2⟩

end NeverFails

/-- On a store that never fails, the calls of a run that starts locked keep to the discipline and
leave the store locked exactly when every initialisation of the run finds a clean log. -/
theorem lock_discipline_iff (hf : env.NeverFails) {s₀ : State} (hu : s₀.unlocked = false)
    (hc : s₀.calls = []) (ops : List Op) :
    (lockDiscipline.Accepts false (run env cfg s₀ ops).calls ∧
      lockDiscipline.after false (run env cfg s₀ ops).calls = false) ↔
    (cleanLogRuns env cfg).Accepts s₀ ops := by
  obtain ⟨cs, hcs, hiff⟩ := @run_lock env cfg hf ops s₀ hu
  rw [hcs, hc]
  exact hiff

/-- A word that is no log entry makes the initialisation erase the locked store. -/
theorem init_erases_locked : ¬ lockDiscipline.Accepts false
    (run .working .small { State.blank with store := State.blank.store.write 24 [192] }
      [.init]).calls := by
  unfold lockDiscipline
  decide +kernel

theorem lock_discipline_small : lockDiscipline.Accepts false
    (run .working .small .blank [.init, .write 0 [7], .erase]).calls := by
  have hclean : CleanLog .small State.blank.store := ⟨24, .refl, by decide, by decide⟩
  have h := (@lock_discipline_iff .working .small Env.working_neverFails .blank rfl rfl
    [.init, .write 0 [7], .erase]).mpr ⟨fun _ => hclean, nofun, nofun, trivial⟩
  exact h.1

end Qmk.WearLeveling
