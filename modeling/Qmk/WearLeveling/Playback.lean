import Qmk.WearLeveling.Replay

/-! # What initialisation computes

With reads that succeed, the consolidated area yields its data when the stored
hash matches and zeros otherwise, and the playback loop then follows the log.
Initialisation of a store whose log replays to an empty slot returns exactly
the replayed cache and leaves the store alone.
-/

namespace Qmk.WearLeveling

variable {env : Env} {cfg : Config}

def OnlyReads (cs : List StoreCall) : Prop := ∀ c ∈ cs, ∃ a, c = .read a

theorem onlyReads_nil : OnlyReads [] := fun _ h => absurd h List.not_mem_nil

theorem onlyReads_readCalls (x n : ℕ) : OnlyReads (readCalls cfg x n) := by
  intro c hc
  obtain ⟨i, _, rfl⟩ := List.mem_map.mp hc
  exact ⟨_, rfl⟩

theorem OnlyReads.append {cs ds : List StoreCall} (hc : OnlyReads cs) (hd : OnlyReads ds) :
    OnlyReads (cs ++ ds) := fun c h => (List.mem_append.mp h).elim (hc c) (hd c)

def consolidatedReads (cfg : Config) : List StoreCall :=
  readCalls cfg 0 (cfg.logicalSize / cfg.wordBytes) ++
    readCalls cfg cfg.logicalSize (8 / cfg.wordBytes)

theorem onlyReads_consolidatedReads : OnlyReads (consolidatedReads cfg) :=
  (onlyReads_readCalls _ _).append (onlyReads_readCalls _ _)

def consolidatedData (env : Env) (cfg : Config) (m : Mem UInt8) : List UInt8 :=
  if m.read cfg.logicalSize 8 = (env.fnv64aBuf (m.read 0 cfg.logicalSize)).toList then
    m.read 0 cfg.logicalSize
  else List.replicate cfg.logicalSize 0

@[simp] theorem length_consolidatedData (m : Mem UInt8) :
    (consolidatedData env cfg m).length = cfg.logicalSize := by
  unfold consolidatedData; split_ifs <;> simp

theorem write_write_inside {α : Type*} (m : Mem α) {a : ℕ} {l l' : List α}
    (h : a + l.length ≤ l'.length) : (m.write a l).write 0 l' = m.write 0 l' := by
  funext x
  rcases Nat.lt_or_ge x l'.length with hx | hx
  · rw [Mem.write_of_mem _ (Nat.zero_le _) (by omega),
      Mem.write_of_mem _ (Nat.zero_le _) (by omega)]
  · rw [Mem.write_of_ge _ _ (by omega), Mem.write_of_ge _ _ (by omega),
      Mem.write_of_ge _ _ (by omega)]

theorem read_write_zero {α : Type*} (m : Mem α) (l : List α) : (m.write 0 l).read 0 l.length = l :=
  Mem.read_write m 0 l

theorem readConsolidated_eq (h : env.ReadsSucceed) {s : State}
    (hs : s.writeAddress = cfg.logStart) :
    wearLevelingReadConsolidated env cfg s =
      (.success, { s with
        cache := s.cache.write 0 (consolidatedData env cfg s.store)
        calls := s.calls ++ consolidatedReads cfg }) := by
  have hL : cfg.logicalSize / cfg.wordBytes * cfg.wordBytes = cfg.logicalSize :=
    Nat.div_mul_cancel cfg.wordBytes_dvd_logical
  have h8 : 8 / cfg.wordBytes * cfg.wordBytes = 8 := Nat.div_mul_cancel cfg.wordBytes_dvd_eight
  have hread : (s.cache.write 0 (s.store.read 0 cfg.logicalSize)).read 0 cfg.logicalSize =
      s.store.read 0 cfg.logicalSize := by
    simpa using read_write_zero s.cache (s.store.read 0 cfg.logicalSize)
  have hraw : ∀ t : State, Mem.read (rawEntry env t (s.store.read cfg.logicalSize 8)) 0 8 =
      s.store.read cfg.logicalSize 8 := fun t =>
    Mem.read_eq_iff.mpr fun i hi => by rw [rawEntry_read t (by omega), Nat.zero_add]
  simp only [wearLevelingReadConsolidated, backingStoreReadBulk_eq cfg h, if_true, hL, h8,
    hread, hraw, State.recordReads, consolidatedData]
  split_ifs with hm
  · simp only [consolidatedReads, List.append_assoc]
  · simp only [wearLevelingClearCache, hs, consolidatedReads, List.append_assoc]
    rw [write_write_inside _ (by simp)]

theorem playbackLoop_replays (h : env.ReadsSucceed) {m : Mem UInt8} {p q : ℕ × Mem UInt8}
    (hr : Replays cfg m p q) (hq : q.1 < cfg.backingSize) (he : slotAt cfg m q.1 = .empty)
    (fuel : ℕ) (hf : cfg.backingSize - p.1 ≤ fuel) {s : State} (hm : s.store = m)
    (hp : s.cache = p.2) :
    ∃ rs, OnlyReads rs ∧ playbackLoop env cfg fuel p.1 s =
      (⟨true, .success, q.1⟩, { s with cache := q.2, calls := s.calls ++ rs }) := by
  induction hr using Relation.ReflTransGen.head_induction_on generalizing s fuel with
  | refl =>
    obtain ⟨fuel, rfl⟩ : ∃ k, fuel = k + 1 := ⟨fuel - 1, by omega⟩
    have ho := playbackEntry_outcome cfg h q.1 s
    rw [hm, he] at ho
    refine ⟨readCalls cfg q.1 1, onlyReads_readCalls _ _, ?_⟩
    rw [playbackLoop, if_pos hq, ho, ← hp]
    rfl
  | @head p p' hs hr ih =>
    obtain ⟨hb, n, a, data, hslot, hd, rfl⟩ := hs
    obtain ⟨fuel, rfl⟩ : ∃ k, fuel = k + 1 := ⟨fuel - 1, by omega⟩
    have ho := playbackEntry_outcome cfg h p.1 s
    rw [hm, hslot] at ho
    obtain ⟨data', _, heq, ho⟩ := ho
    rw [heq hd] at ho
    have hn := Nat.mul_pos (slotAt_entry_bounds hslot).1 cfg.wordBytes_pos
    obtain ⟨rs, hrs, hl⟩ := ih fuel (by simp only; omega)
      (s := { s.recordReads cfg p.1 n with cache := s.cache.write a data }) hm (by rw [hp])
    refine ⟨readCalls cfg p.1 n ++ rs, (onlyReads_readCalls _ _).append hrs, ?_⟩
    rw [playbackLoop, if_pos hb, ho]
    simp only [Bool.false_eq_true, if_false]
    exact hl.trans (by simp only [State.recordReads, List.append_assoc])

/-- The cache from which initialisation starts to play back the log. -/
def consolidatedCache (env : Env) (cfg : Config) (s : State) : Mem UInt8 :=
  s.cache.write 0 (consolidatedData env cfg s.store)

theorem consolidatedCache_congr {s t : State}
    (hc : ∀ i, cfg.logicalSize ≤ i → s.cache i = t.cache i)
    (hm : ∀ i < cfg.logStart, s.store i = t.store i) :
    consolidatedCache env cfg s = consolidatedCache env cfg t := by
  have h0 : s.store.read 0 cfg.logicalSize = t.store.read 0 cfg.logicalSize :=
    Mem.read_eq_iff.mpr fun i hi => hm _ (by unfold Config.logStart; omega)
  have h8 : s.store.read cfg.logicalSize 8 = t.store.read cfg.logicalSize 8 :=
    Mem.read_eq_iff.mpr fun i hi => hm _ (by unfold Config.logStart; omega)
  have hd : consolidatedData env cfg s.store = consolidatedData env cfg t.store := by
    simp only [consolidatedData, h0, h8]
  funext x
  rcases Nat.lt_or_ge x cfg.logicalSize with hx | hx
  · rw [consolidatedCache, consolidatedCache, hd, Mem.write_of_mem _ (Nat.zero_le _) (by simpa),
      Mem.write_of_mem _ (Nat.zero_le _) (by simpa)]
  · rw [consolidatedCache, consolidatedCache, Mem.write_of_ge _ _ (by simpa),
      Mem.write_of_ge _ _ (by simpa), hc x hx]

/-- Initialisation of a store whose log replays to an empty slot. -/
theorem init_eq (h : env.ReadsSucceed) {s : State} (hi : env.fails s.calls.length .init = false)
    {y : ℕ} {c : Mem UInt8}
    (hr : Replays cfg s.store (cfg.logStart, consolidatedCache env cfg s) (y, c))
    (hy : y < cfg.backingSize) (he : slotAt cfg s.store y = .empty) :
    ∃ rs, OnlyReads rs ∧ wearLevelingInit env cfg s =
      (.success, { s with cache := c, writeAddress := y, calls := s.calls ++ .init :: rs }) := by
  have hc : (s.cache.write 0 (List.replicate cfg.logicalSize 0)).write 0
      (consolidatedData env cfg s.store) = consolidatedCache env cfg s :=
    write_write_inside _ (by simp)
  obtain ⟨rs, hrs, hl⟩ := playbackLoop_replays h hr hy he cfg.backingSize
    (Nat.sub_le _ _)
    (s := { s with
      cache := consolidatedCache env cfg s
      writeAddress := cfg.logStart
      calls := s.calls ++ .init :: consolidatedReads cfg }) rfl rfl
  refine ⟨consolidatedReads cfg ++ rs, onlyReads_consolidatedReads.append hrs, ?_⟩
  have hb : (backingStoreInit env (wearLevelingClearCache cfg s)).1 = true := by
    simp [backingStoreInit, wearLevelingClearCache, hi]
  have hn : ¬ cfg.backingSize ≤ y := by omega
  simp only [wearLevelingInit, hb, if_true]
  rw [readConsolidated_eq h (by rfl)]
  simp only [backingStoreInit, wearLevelingClearCache, State.record, hc, List.append_assoc,
    List.singleton_append, reduceCtorEq, if_false, wearLevelingPlaybackLog]
  simp only [hl, wearLevelingConsolidateIfNeeded, hn, reduceCtorEq, if_false, List.append_assoc,
    List.cons_append]

end Qmk.WearLeveling
