import Qmk.Monitor
import Qmk.WearLeveling.Steps

/-! # Addresses of store accesses under faults

Any store call may fail and the store may hold anything. Playback reads the
words behind a multi-word header without looking at the end of the store, and a
failed erase leaves the write address at the end of the store; in every run that
meets neither, and whose arguments do not wrap in the 32-bit range check, all
accesses stay inside the store.
-/

namespace Qmk.WearLeveling

/-- A read or a write lies with its whole word inside the store. -/
def StoreCall.InBounds (cfg : Config) : StoreCall → Prop
  | .write address _ => address + cfg.wordBytes ≤ cfg.backingSize
  | .read address => address + cfg.wordBytes ≤ cfg.backingSize
  | _ => True

instance (cfg : Config) : DecidablePred (StoreCall.InBounds cfg)
  | .write address _ => inferInstanceAs (Decidable (address + cfg.wordBytes ≤ cfg.backingSize))
  | .read address => inferInstanceAs (Decidable (address + cfg.wordBytes ≤ cfg.backingSize))
  | .init | .unlock | .lock | .erase => isTrue trivial

/-- No header that playback arrives at asks for words behind the end of the store. -/
def ReplayInBounds (cfg : Config) (m : Mem UInt8) : Prop :=
  ∀ x, Visits cfg m x → x < cfg.backingSize →
    x + (slotAt cfg m x).words * cfg.wordBytes ≤ cfg.backingSize

/-- What a call needs to stay inside the store: an initialisation finds no header that reaches
over the end, and a write has arguments whose sum does not wrap and, if it changes the cache, finds
room in the log. -/
def StepInBounds (cfg : Config) (s : State) : Op → Prop
  | .init => ReplayInBounds cfg s.store
  | .write address value => (Op.write address value).NoWrap ∧
      (cfg.logicalSize < address + value.length ∨
        s.cache.read address value.length = value ∨ s.writeAddress < cfg.backingSize)
  | _ => True

/-- The runs in which every call finds what it needs. -/
def inBoundsRuns (env : Env) (cfg : Config) : Monitor Op State where
  next := step env cfg
  ok := StepInBounds cfg

/-- All accesses so far are inside the store, and the write address is aligned. -/
structure AccessesInBounds (cfg : Config) (s : State) : Prop where
  calls : ∀ c ∈ s.calls, c.InBounds cfg
  aligned : cfg.wordBytes ∣ s.writeAddress

variable {env : Env} {cfg : Config}

section Calls

variable {s : State} (h : AccessesInBounds cfg s)
include h

theorem AccessesInBounds.extend {t : State} (cs : List StoreCall)
    (hcs : ∀ c ∈ cs, c.InBounds cfg) (ht : t.calls = s.calls ++ cs)
    (hw : cfg.wordBytes ∣ t.writeAddress) : AccessesInBounds cfg t := by
  refine ⟨fun c hc => ?_, hw⟩
  rw [ht] at hc
  rcases List.mem_append.mp hc with hc | hc
  · exact h.calls c hc
  · exact hcs c hc

theorem AccessesInBounds.unlock : AccessesInBounds cfg (wearLevelingUnlock env s).2 := by
  have hu : AccessesInBounds cfg (s.record .unlock) :=
    h.extend [.unlock] (by simp [StoreCall.InBounds]) rfl h.aligned
  unfold wearLevelingUnlock
  simp only
  split_ifs
  · exact h
  · exact ⟨hu.calls, hu.aligned⟩
  · exact hu

theorem AccessesInBounds.lock : AccessesInBounds cfg (wearLevelingLock env s).2 := by
  have hl : AccessesInBounds cfg (s.record .lock) :=
    h.extend [.lock] (by simp [StoreCall.InBounds]) rfl h.aligned
  unfold wearLevelingLock
  simp only
  split_ifs
  · exact ⟨hl.calls, hl.aligned⟩
  · exact hl
  · exact h

theorem AccessesInBounds.erase : AccessesInBounds cfg (backingStoreErase env cfg s).2 := by
  have he : AccessesInBounds cfg (s.record .erase) :=
    h.extend [.erase] (by simp [StoreCall.InBounds]) rfl h.aligned
  unfold backingStoreErase
  simp only
  split_ifs <;> exact ⟨he.calls, he.aligned⟩

theorem AccessesInBounds.write {x : ℕ} {w : List UInt8}
    (hx : x + cfg.wordBytes ≤ cfg.backingSize) :
    AccessesInBounds cfg (backingStoreWrite env x w s).2 := by
  have hw : AccessesInBounds cfg (s.record (.write x w)) :=
    h.extend [.write x w] (by simpa [StoreCall.InBounds] using hx) rfl h.aligned
  unfold backingStoreWrite
  simp only
  split_ifs <;> exact ⟨hw.calls, hw.aligned⟩

theorem AccessesInBounds.clearCache : AccessesInBounds cfg (wearLevelingClearCache cfg s) :=
  ⟨h.calls, cfg.wordBytes_dvd_logStart⟩

end Calls

theorem AccessesInBounds.writeBulk {ws : List (List UInt8)} {x : ℕ} {s : State}
    (h : AccessesInBounds cfg s) (hx : x + ws.length * cfg.wordBytes ≤ cfg.backingSize) :
    AccessesInBounds cfg (backingStoreWriteBulk env cfg x ws s).2 := by
  induction ws generalizing x s with
  | nil => exact h
  | cons w ws ih =>
    rw [List.length_cons, Nat.succ_mul] at hx
    have hw : AccessesInBounds cfg (backingStoreWrite env x w s).2 := h.write (by omega)
    simp only [backingStoreWriteBulk]
    split_ifs
    · exact ih hw (by omega)
    · exact hw

theorem consolidateForce_ne_success (s : State) :
    (wearLevelingConsolidateForce env cfg s).1 ≠ .success := by
  unfold wearLevelingConsolidateForce wearLevelingWriteConsolidated
  simp only
  split_ifs <;> simp

section Append

variable (hlog : cfg.logStart < cfg.backingSize)
include hlog

theorem AccessesInBounds.writeConsolidated {s : State} (h : AccessesInBounds cfg s) :
    AccessesInBounds cfg (wearLevelingWriteConsolidated env cfg s).2 := by
  have hL : cfg.logicalSize / cfg.wordBytes * cfg.wordBytes = cfg.logicalSize :=
    Nat.div_mul_cancel cfg.wordBytes_dvd_logical
  have h8 : 8 / cfg.wordBytes * cfg.wordBytes = 8 := Nat.div_mul_cancel cfg.wordBytes_dvd_eight
  unfold Config.logStart at hlog
  have hw : AccessesInBounds cfg (backingStoreWriteBulk env cfg 0
      (wordsOf cfg (wearLevelingUnlock env s).2.cache (cfg.logicalSize / cfg.wordBytes))
      (wearLevelingUnlock env s).2).2 :=
    h.unlock.writeBulk (by simp only [wordsOf, List.length_map, List.length_range]; omega)
  unfold wearLevelingWriteConsolidated
  simp only
  generalize backingStoreWriteBulk env cfg 0 _ _ = w at hw ⊢
  by_cases hok : w.1 = true
  · simp only [hok, if_true]
    have hh : AccessesInBounds cfg (backingStoreWriteBulk env cfg cfg.logicalSize
        ((List.range (8 / cfg.wordBytes)).map
          (rawWord cfg (env.fnv64aBuf (w.2.cache.read 0 cfg.logicalSize)).toList)) w.2).2 :=
      hw.writeBulk (by simp only [List.length_map, List.length_range]; omega)
    split_ifs
    · exact hh.lock
    · exact hh
  · simp only [hok, Bool.false_eq_true, if_false]
    split_ifs
    · exact hw.lock
    · exact hw

theorem AccessesInBounds.consolidateForce {s : State} (h : AccessesInBounds cfg s) :
    AccessesInBounds cfg (wearLevelingConsolidateForce env cfg s).2 := by
  unfold wearLevelingConsolidateForce
  simp only
  split_ifs
  · exact ⟨(h.erase.writeConsolidated hlog).calls, cfg.wordBytes_dvd_logStart⟩
  · exact h.erase

theorem AccessesInBounds.consolidateIfNeeded {s : State} (h : AccessesInBounds cfg s) :
    AccessesInBounds cfg (wearLevelingConsolidateIfNeeded env cfg s).2 := by
  unfold wearLevelingConsolidateIfNeeded
  split_ifs
  · exact h.consolidateForce hlog
  · exact h

theorem AccessesInBounds.appendRaw {s : State} (h : AccessesInBounds cfg s) {w : List UInt8}
    (hlt : s.writeAddress < cfg.backingSize) :
    AccessesInBounds cfg (wearLevelingAppendRaw env cfg w s).2 ∧
      ((wearLevelingAppendRaw env cfg w s).1 = .success →
        (wearLevelingAppendRaw env cfg w s).2.writeAddress < cfg.backingSize) := by
  have hw : AccessesInBounds cfg (backingStoreWrite env s.writeAddress w s).2 :=
    h.write (add_word_le h.aligned hlt)
  unfold wearLevelingAppendRaw
  simp only
  split_ifs
  · have ha : AccessesInBounds cfg { (backingStoreWrite env s.writeAddress w s).2 with
        writeAddress := (backingStoreWrite env s.writeAddress w s).2.writeAddress +
          cfg.wordBytes } :=
      ⟨hw.calls, (Nat.dvd_add_right hw.aligned).mpr dvd_rfl⟩
    constructor
    · exact ha.consolidateIfNeeded hlog
    intro hs
    unfold wearLevelingConsolidateIfNeeded at hs ⊢
    split_ifs at hs ⊢ with hB
    · exact absurd hs (consolidateForce_ne_success _)
    · exact Nat.lt_of_not_le hB
  · exact ⟨hw, fun hs => by simp at hs⟩

theorem AccessesInBounds.appendWords {ws : List (List UInt8)} {s : State}
    (h : AccessesInBounds cfg s) (hlt : s.writeAddress < cfg.backingSize) :
    AccessesInBounds cfg (appendWords env cfg ws s).2 := by
  induction ws generalizing s with
  | nil => exact h
  | cons w ws ih =>
    obtain ⟨hw, hs⟩ := h.appendRaw hlog (w := w) hlt
    rw [WearLeveling.appendWords, andThen]
    split_ifs with hok
    · exact ih hw (hs hok)
    · exact hw

theorem AccessesInBounds.finishWrite {u : Bool} {r : Status × State}
    (h : AccessesInBounds cfg r.2) : AccessesInBounds cfg (finishWrite env cfg u r).2 := by
  have hc : AccessesInBounds cfg
      (if r.1 = .success then wearLevelingConsolidateIfNeeded env cfg r.2 else r).2 := by
    split_ifs
    · exact h.consolidateIfNeeded hlog
    · exact h
  unfold WearLeveling.finishWrite
  cases u with
  | true => exact hc
  | false => exact hc.lock

theorem AccessesInBounds.wearLevelingWrite {s : State} (h : AccessesInBounds cfg s) {a : ℕ}
    {v : List UInt8} (hs : StepInBounds cfg s (.write a v)) :
    AccessesInBounds cfg (wearLevelingWrite env cfg a v s).2 := by
  rcases Nat.lt_or_ge cfg.logicalSize (a + v.length) with hin | hin
  · simpa [WearLeveling.wearLevelingWrite, hin] using h
  by_cases hne : s.cache.read a v.length = v
  · simpa [WearLeveling.wearLevelingWrite, Nat.not_lt.mpr hin, hne] using h
  have hcache : AccessesInBounds cfg { s with cache := s.cache.write a v } :=
    ⟨h.calls, h.aligned⟩
  by_cases hu : (wearLevelingUnlock env { s with cache := s.cache.write a v }).1 = .failure
  · simpa [WearLeveling.wearLevelingWrite, Nat.not_lt.mpr hin, hne, hu] using hcache.unlock.lock
  have hlt : s.writeAddress < cfg.backingSize := by
    rcases hs.2 with hs | hs | hs
    · exact absurd hs (Nat.not_lt.mpr hin)
    · exact absurd hs hne
    · exact hs
  have hb : AccessesInBounds cfg (wearLevelingUnlock env { s with cache := s.cache.write a v }).2 :=
    hcache.unlock
  rw [(unlock_of_ok hu).1] at hb
  rw [write_eq_finishWrite hin hne hu]
  exact (hb.appendWords hlog hlt).finishWrite hlog

end Append

theorem AccessesInBounds.wearLevelingErase {s : State} (h : AccessesInBounds cfg s) :
    AccessesInBounds cfg (wearLevelingErase env cfg s).2 := by
  unfold WearLeveling.wearLevelingErase
  simp only
  split_ifs
  · exact h.unlock.lock
  · exact h.unlock.erase.clearCache.lock
  · exact h.unlock.erase.clearCache.lock
  · exact h.unlock.erase.clearCache
  · exact h.unlock.erase.clearCache

section Playback

/-- Reading one more word of the entry at `x` goes well, or fails after the call. -/
theorem readMore_cases (env : Env) (cfg : Config) (wanted : Bool) (x n : ℕ) (s : State) :
    readMore env cfg wanted (s.store.read x (n * cfg.wordBytes)) (x + n * cfg.wordBytes)
        (s.recordReads cfg x n) =
      (true, s.store.read x ((n + wanted.toNat) * cfg.wordBytes),
        x + (n + wanted.toNat) * cfg.wordBytes, s.recordReads cfg x (n + wanted.toNat)) ∨
    (wanted = true ∧
      readMore env cfg wanted (s.store.read x (n * cfg.wordBytes)) (x + n * cfg.wordBytes)
        (s.recordReads cfg x n) =
      (false, s.store.read x (n * cfg.wordBytes), x + n * cfg.wordBytes,
        s.recordReads cfg x (n + 1))) := by
  cases wanted with
  | false => simp [readMore]
  | true =>
    have hrec : (s.recordReads cfg x n).record (.read (x + n * cfg.wordBytes)) =
        s.recordReads cfg x (n + 1) := by
      rw [← recordReads_recordReads]
      simp [State.record, State.recordReads, readCalls_succ]
    simp only [readMore, if_true, backingStoreRead, hrec, recordReads_store, Bool.toNat_true]
    split_ifs with hf
    · exact .inr ⟨trivial, rfl⟩
    · exact .inl (by simp only [Nat.add_mul, Nat.one_mul, Mem.read_append, Nat.add_assoc])

/-- What a pass of the playback loop over the slot at `x` can have done, with reads that may fail:
it has read at most the words of the slot, and it goes on only behind an entry. -/
def PassesSlot (cfg : Config) (x : ℕ) (s : State) (r : Playback × State) : Prop :=
  ∃ k j, k ≤ (slotAt cfg s.store x).words ∧
    r.2 = { s.recordReads cfg x k with cache := r.2.cache } ∧
    r.1.address = x + j * cfg.wordBytes ∧
    (r.1.cancel = false → ∃ a data, slotAt cfg s.store x = .entry j a data)

/-- The same with what becomes of the cache: a pass that goes on has written data of the length of
the entry, and the cursor is not behind the words that were read. -/
def TreatsSlot (cfg : Config) (x : ℕ) (s : State) (r : Playback × State) : Prop :=
  ∃ k j, (k ≤ (slotAt cfg s.store x).words ∧ j ≤ k) ∧
    r.2 = { s.recordReads cfg x k with cache := r.2.cache } ∧
    r.1.address = x + j * cfg.wordBytes ∧
    (r.1.cancel = true → r.2.cache = s.cache) ∧
    (r.1.cancel = false → ∃ a data data', slotAt cfg s.store x = .entry j a data ∧
      data'.length = data.length ∧ r.2.cache = s.cache.write a data')

theorem TreatsSlot.passes {x : ℕ} {s : State} {r : Playback × State} (h : TreatsSlot cfg x s r) :
    PassesSlot cfg x s r := by
  obtain ⟨k, j, ⟨hk, -⟩, hstate, haddr, -, hgo⟩ := h
  refine ⟨k, j, hk, hstate, haddr, fun hc => ?_⟩
  obtain ⟨a, data, -, hslot, -⟩ := hgo hc
  exact ⟨a, data, hslot⟩

theorem playbackMultibyte_treats {x : ℕ} {s : State}
    (hslot : slotAt cfg s.store x =
      if cfg.logicalSize < logEntryMultibyteGetAddress (fun i => s.store (x + i)) +
          logEntryMultibyteGetLength (fun i => s.store (x + i))
      then .corrupt (if cfg.writeSize = .two then 2 else 1)
      else .entry (multibyteWords cfg.writeSize
          (logEntryMultibyteGetLength fun i => s.store (x + i)))
        (logEntryMultibyteGetAddress fun i => s.store (x + i))
        (s.store.read (x + 3) (logEntryMultibyteGetLength fun i => s.store (x + i)))) :
    TreatsSlot cfg x s (playbackMultibyte env cfg (s.store.read x cfg.wordBytes)
      (x + cfg.wordBytes) (s.recordReads cfg x 1)) := by
  generalize hl : logEntryMultibyteGetLength (fun i => s.store (x + i)) = l at hslot
  generalize ha : logEntryMultibyteGetAddress (fun i => s.store (x + i)) = a at hslot
  generalize hn : (if cfg.writeSize = .two then 2 else 1) = n at hslot
  have hn1 : 1 + (decide (cfg.writeSize = .two)).toNat = n := hn ▸ headerWords_eq cfg.writeSize
  have h3 : 3 ≤ n * cfg.wordBytes := hn ▸ headerWords_le cfg
  have hk : n + (decide (cfg.writeSize ≠ .eight ∧ 1 < l)).toNat +
      (decide (cfg.writeSize = .two ∧ 3 < l)).toNat = multibyteWords cfg.writeSize l :=
    hn ▸ multibyteWords_eq cfg.writeSize l
  have hwords : n ≤ (slotAt cfg s.store x).words := by
    rw [hslot]
    split_ifs
    · exact le_rfl
    · simp only [Slot.words]
      omega
  have h1 := readMore_cases env cfg (decide (cfg.writeSize = .two)) x 1 s
  rw [hn1, Nat.one_mul] at h1
  rcases h1 with h1 | ⟨hw, h1⟩
  swap
  · refine ⟨2, 1, ⟨?_, by omega⟩, ?_, ?_, ?_, ?_⟩
    · simp only [hw, Bool.toNat_true] at hn1
      omega
    · simp only [playbackMultibyte, h1]
    · simp only [playbackMultibyte, h1, Nat.one_mul]
    · simp only [playbackMultibyte, h1]
      exact fun _ => rfl
    · simp only [playbackMultibyte, h1]
      exact fun h => absurd h (by simp)
  simp only [playbackMultibyte, h1, multibyteGetAddress_rawEntry _ h3,
    multibyteGetLength_rawEntry _ h3, hl, ha]
  by_cases hf : cfg.logicalSize < a + l
  · simp only [hf, if_true]
    exact ⟨n, n, ⟨hwords, le_rfl⟩, rfl, rfl, fun _ => rfl, fun h => absurd h (by simp)⟩
  simp only [hf, if_false] at hslot ⊢
  rw [TreatsSlot, hslot, Slot.words]
  rcases readMore_cases env cfg (decide (cfg.writeSize ≠ .eight ∧ 1 < l)) x n s with
    h2 | ⟨hw, h2⟩
  swap
  · simp only [h2]
    refine ⟨n + 1, n, ⟨?_, by omega⟩, rfl, rfl, fun _ => rfl, fun h => absurd h (by simp)⟩
    simp only [hw, Bool.toNat_true] at hk
    omega
  rcases readMore_cases env cfg (decide (cfg.writeSize = .two ∧ 3 < l)) x
    (n + (decide (cfg.writeSize ≠ .eight ∧ 1 < l)).toNat) s with h3' | ⟨hw, h3'⟩
  swap
  · simp only [h2, h3']
    refine ⟨_, _, ⟨?_, Nat.le_succ _⟩, rfl, rfl, fun _ => rfl, fun h => absurd h (by simp)⟩
    simp only [hw, Bool.toNat_true] at hk
    omega
  · rw [hk] at h3'
    simp only [h2, h3']
    refine ⟨_, _, ⟨le_rfl, le_rfl⟩, rfl, rfl, fun h => absurd h (by simp), fun _ => ?_⟩
    exact ⟨_, _, _, rfl, by simp, rfl⟩

theorem playbackEntry_treats (env : Env) (cfg : Config) (x : ℕ) (s : State) :
    TreatsSlot cfg x s (playbackEntry env cfg x s) := by
  have hw := cfg.wordBytes_cases
  have hpos : 1 ≤ (slotAt cfg s.store x).words := by
    have hm := multibyteWords_pos cfg.writeSize
    unfold slotAt
    simp only
    split_ifs <;> simp only [Slot.words] <;> first | exact hm _ | omega
  have hrec : s.record (.read x) = s.recordReads cfg x 1 := by
    simp [State.record, State.recordReads, readCalls_succ]
  by_cases hf : env.fails s.calls.length (.read x) = true
  · simp only [playbackEntry, backingStoreRead, hf, if_true, hrec]
    exact ⟨1, 0, ⟨hpos, Nat.zero_le 1⟩, rfl, by simp, fun _ => rfl, fun h => absurd h (by simp)⟩
  have h0 : ∀ t : State, rawEntry env t (s.store.read x cfg.wordBytes) 0 = s.store (x + 0) :=
    fun t => rawEntry_read t (by omega)
  have h1 : ∀ t : State, rawEntry env t (s.store.read x cfg.wordBytes) 1 = s.store (x + 1) :=
    fun t => rawEntry_read t (by omega)
  have hone : x + cfg.wordBytes = x + 1 * cfg.wordBytes := by rw [Nat.one_mul]
  have hslot : slotAt cfg s.store x = slotAt cfg s.store x := rfl
  nth_rewrite 2 [slotAt] at hslot
  unfold playbackEntry
  simp only [logEntryGetType, logEntryOptimized64GetAddress, logEntryOptimized64GetValue,
    logEntryWord01GetAddress, logEntryWord01GetValue] at hslot
  simp only [backingStoreRead, hf, Bool.false_eq_true, if_false, hrec, logEntryGetType,
    logEntryOptimized64GetAddress, logEntryOptimized64GetValue, logEntryWord01GetAddress,
    logEntryWord01GetValue, h0, h1, recordReads_cache]
  by_cases he : s.store.read x cfg.wordBytes = List.replicate cfg.wordBytes 0
  · simp only [he, if_true]
    exact ⟨1, 0, ⟨hpos, Nat.zero_le 1⟩, rfl, by simp, fun _ => rfl, fun h => absurd h (by simp)⟩
  by_cases ht : (s.store (x + 0)).toNat >>> 6 &&& bitmaskForBitcount 2 =
      LogEntryType.multibyte.code
  · simp only [he, ht, if_true, if_false] at hslot ⊢
    exact playbackMultibyte_treats hslot
  by_cases ho : cfg.writeSize = .two ∧
      (s.store (x + 0)).toNat >>> 6 &&& bitmaskForBitcount 2 = LogEntryType.optimized64.code
  · obtain ⟨hsize, htype⟩ := ho
    simp only [he, hsize, htype, LogEntryType.code, one_ne_zero, if_false, if_true,
      and_self] at hslot ⊢
    by_cases ha : cfg.logicalSize ≤ (s.store (x + 0)).toNat &&& bitmaskForBitcount 6
    · simp only [ha, if_true]
      exact ⟨1, 1, ⟨hpos, le_rfl⟩, rfl, hone, fun _ => rfl, fun h => absurd h (by simp)⟩
    · simp only [ha, if_false] at hslot ⊢
      exact ⟨1, 1, ⟨hpos, le_rfl⟩, rfl, hone, fun h => absurd h (by simp),
        fun _ => ⟨_, _, _, hslot, rfl, rfl⟩⟩
  by_cases hv : cfg.writeSize = .two ∧
      (s.store (x + 0)).toNat >>> 6 &&& bitmaskForBitcount 2 = LogEntryType.word01.code
  · obtain ⟨hsize, htype⟩ := hv
    simp only [he, hsize, htype, LogEntryType.code, OfNat.ofNat_ne_zero, OfNat.ofNat_ne_one,
      if_false, if_true, and_self, and_false] at hslot ⊢
    by_cases ha : cfg.logicalSize ≤ (((s.store (x + 0)).toNat &&& bitmaskForBitcount 5) <<< 9 |||
        (s.store (x + 1)).toNat <<< 1) + 1
    · simp only [ha, if_true]
      exact ⟨1, 1, ⟨hpos, le_rfl⟩, rfl, hone, fun _ => rfl, fun h => absurd h (by simp)⟩
    · simp only [ha, if_false] at hslot ⊢
      exact ⟨1, 1, ⟨hpos, le_rfl⟩, rfl, hone, fun h => absurd h (by simp),
        fun _ => ⟨_, _, _, hslot, rfl, rfl⟩⟩
  · simp only [he, ht, ho, hv, if_false]
    exact ⟨1, 1, ⟨hpos, le_rfl⟩, rfl, hone, fun _ => rfl, fun h => absurd h (by simp)⟩

theorem playbackEntry_passes (env : Env) (cfg : Config) (x : ℕ) (s : State) :
    PassesSlot cfg x s (playbackEntry env cfg x s) :=
  (playbackEntry_treats env cfg x s).passes

/-- The playback loop stays inside the store when no visited header reaches over its end. -/
theorem AccessesInBounds.playbackLoop (env : Env) {m : Mem UInt8} (hm : ReplayInBounds cfg m)
    (fuel : ℕ) {x : ℕ} (hx : Visits cfg m x) (hdvd : cfg.wordBytes ∣ x) {s : State}
    (hs : s.store = m) (h : AccessesInBounds cfg s) :
    AccessesInBounds cfg (playbackLoop env cfg fuel x s).2 ∧
      cfg.wordBytes ∣ (playbackLoop env cfg fuel x s).1.address := by
  induction fuel generalizing x s with
  | zero => exact ⟨h, hdvd⟩
  | succ fuel ih =>
    rw [WearLeveling.playbackLoop]
    split_ifs with hlt
    swap
    · exact ⟨h, hdvd⟩
    obtain ⟨k, j, hk, hstate, haddr, hgo⟩ := playbackEntry_passes env cfg x s
    rw [hs] at hk hgo
    have hj : cfg.wordBytes ∣ x + j * cfg.wordBytes := (Nat.dvd_add_right hdvd).mpr ⟨j, by ring⟩
    have hin : AccessesInBounds cfg (playbackEntry env cfg x s).2 := by
      refine h.extend (readCalls cfg x k) ?_ (by rw [hstate]; rfl) (by rw [hstate]; exact h.aligned)
      intro c hc
      obtain ⟨i, hi, rfl⟩ := List.mem_map.mp hc
      have hend := hm x hx hlt
      have hle := Nat.mul_le_mul_right cfg.wordBytes ((List.mem_range.mp hi).trans_le hk)
      rw [Nat.succ_mul] at hle
      simp only [StoreCall.InBounds]
      omega
    simp only
    split_ifs with hc
    · exact ⟨hin, by rw [haddr]; exact hj⟩
    · obtain ⟨a, data, hslot⟩ := hgo (by simpa using hc)
      rw [haddr]
      exact ih (hx.tail ⟨hlt, _, _, _, hslot, rfl⟩) hj (by rw [hstate]; exact hs) hin

theorem AccessesInBounds.readBulk (env : Env) {n x : ℕ} {s : State} (h : AccessesInBounds cfg s)
    (hx : x + n * cfg.wordBytes ≤ cfg.backingSize) :
    AccessesInBounds cfg (backingStoreReadBulk env cfg x n s).2.2 ∧
      (backingStoreReadBulk env cfg x n s).2.2.store = s.store := by
  induction n generalizing x s with
  | zero => exact ⟨h, rfl⟩
  | succ n ih =>
    rw [Nat.succ_mul] at hx
    have hr : AccessesInBounds cfg (s.record (.read x)) :=
      h.extend [.read x] (by simp only [List.mem_singleton, forall_eq, StoreCall.InBounds]; omega)
        rfl h.aligned
    rw [backingStoreReadBulk]
    simp only [backingStoreRead]
    split_ifs
    · exact ⟨hr, rfl⟩
    · exact ih hr (by omega)

section Init

variable (hlog : cfg.logStart < cfg.backingSize)
include hlog

theorem AccessesInBounds.readConsolidated (env : Env) {s : State} (h : AccessesInBounds cfg s) :
    AccessesInBounds cfg (wearLevelingReadConsolidated env cfg s).2 ∧
      (wearLevelingReadConsolidated env cfg s).2.store = s.store := by
  have hL : cfg.logicalSize / cfg.wordBytes * cfg.wordBytes = cfg.logicalSize :=
    Nat.div_mul_cancel cfg.wordBytes_dvd_logical
  have h8 : 8 / cfg.wordBytes * cfg.wordBytes = 8 := Nat.div_mul_cancel cfg.wordBytes_dvd_eight
  unfold Config.logStart at hlog
  obtain ⟨hr, hrs⟩ := h.readBulk env (n := cfg.logicalSize / cfg.wordBytes) (x := 0) (by omega)
  unfold wearLevelingReadConsolidated
  simp only
  generalize backingStoreReadBulk env cfg 0 _ s = r at hr hrs ⊢
  have hc : AccessesInBounds cfg { r.2.2 with cache := r.2.2.cache.write 0 r.2.1 } :=
    ⟨hr.calls, hr.aligned⟩
  obtain ⟨hh, hhs⟩ := hc.readBulk env (n := 8 / cfg.wordBytes) (x := cfg.logicalSize) (by omega)
  split_ifs
  · exact ⟨hh, hhs.trans hrs⟩
  · exact ⟨hh.clearCache, hhs.trans hrs⟩
  · exact ⟨hc.clearCache, hrs⟩

theorem AccessesInBounds.playbackLog (env : Env) {s : State} (h : AccessesInBounds cfg s)
    (hm : ReplayInBounds cfg s.store) :
    AccessesInBounds cfg (wearLevelingPlaybackLog env cfg s).2 := by
  obtain ⟨hp, hdvd⟩ := AccessesInBounds.playbackLoop env hm cfg.backingSize
    Relation.ReflTransGen.refl cfg.wordBytes_dvd_logStart rfl h
  have hw : AccessesInBounds cfg
      { (WearLeveling.playbackLoop env cfg cfg.backingSize cfg.logStart s).2 with
        writeAddress :=
          (WearLeveling.playbackLoop env cfg cfg.backingSize cfg.logStart s).1.address } :=
    ⟨hp.calls, hdvd⟩
  unfold wearLevelingPlaybackLog
  simp only
  split_ifs
  · exact hw.consolidateForce hlog
  · exact hw.consolidateIfNeeded hlog

theorem AccessesInBounds.init {s : State} (h : AccessesInBounds cfg s)
    (hm : ReplayInBounds cfg s.store) : AccessesInBounds cfg (wearLevelingInit env cfg s).2 := by
  have hb : AccessesInBounds cfg (backingStoreInit env (wearLevelingClearCache cfg s)).2 :=
    h.clearCache.extend [.init] (by simp [StoreCall.InBounds]) rfl cfg.wordBytes_dvd_logStart
  unfold wearLevelingInit
  simp only
  obtain ⟨hr, hrs⟩ := hb.readConsolidated hlog env
  have hp := hr.playbackLog hlog env (by rw [hrs]; exact hm)
  split_ifs
  · exact hr.clearCache
  · exact hp.clearCache
  · exact hp
  · exact hb.clearCache

theorem AccessesInBounds.step {s : State} (h : AccessesInBounds cfg s) {o : Op}
    (ho : StepInBounds cfg s o) : AccessesInBounds cfg (step env cfg s o) := by
  cases o with
  | init => exact h.init hlog ho
  | erase => exact h.wearLevelingErase
  | write a v => exact h.wearLevelingWrite hlog ho
  | read a n => exact h

end Init

end Playback

/-- In every run that starts with anything in the store and whose calls find what they need, all
accesses stay inside the store, whichever of them fail. -/
theorem accesses_in_bounds (h8 : 8 < cfg.logicalSize) {s₀ : State} (hcalls : s₀.calls = [])
    (hdvd : cfg.wordBytes ∣ s₀.writeAddress) {ops : List Op}
    (hops : (inBoundsRuns env cfg).Accepts s₀ ops) :
    ∀ c ∈ (run env cfg s₀ ops).calls, c.InBounds cfg := by
  have h₀ : AccessesInBounds cfg s₀ := ⟨by simp [hcalls], hdvd⟩
  exact (hops.invariant (fun s o h ho => h.step (cfg.logStart_lt h8) ho) h₀).calls

/-- Twelve logical bytes over 4-byte words, with room for one word in the log. -/
def Config.oneWordLog : Config where
  writeSize := .four
  backingSize := 24
  logicalSize := 12
  backing_ge := by decide
  logical_mod := by decide
  backing_mod := by decide

/-- An erase fails when it is the sixth call. -/
def Env.failsErase : Env :=
  { Env.working with fails := fun n c => n == 5 && c == .erase }

/-- The two ways out of the store: the last word of the log holds a header that asks for a second
word, and a write follows a consolidation whose erase has failed. -/
theorem access_out_of_bounds :
    (∃ c ∈ (run .working .oneWordLog
        { State.blank with store := State.blank.store.write 20 [16] } [.init]).calls,
      c = .read 24 ∧ ¬ c.InBounds .oneWordLog) ∧
    ∃ c ∈ (run .failsErase .oneWordLog .blank [.erase, .write 0 [7], .write 0 [8]]).calls,
      c = .write 24 [8, 0, 0, 8] ∧ ¬ c.InBounds .oneWordLog := by
  exact ⟨⟨.read 24, by decide +kernel, rfl, by decide⟩,
    ⟨.write 24 [8, 0, 0, 8], by decide +kernel, rfl, by decide⟩⟩

theorem accesses_in_bounds_small :
    .write 20 [8, 0, 0, 7] ∈ (run .failsErase .oneWordLog .blank [.erase, .write 0 [7]]).calls ∧
      StoreCall.InBounds .oneWordLog (.write 20 [8, 0, 0, 7]) := by
  have hmem : .write 20 [8, 0, 0, 7] ∈
      (run .failsErase .oneWordLog .blank [.erase, .write 0 [7]]).calls := by decide +kernel
  have hops : (inBoundsRuns .failsErase .oneWordLog).Accepts .blank [.erase, .write 0 [7]] :=
    ⟨trivial, ⟨by simp [Op.NoWrap], .inr (.inr (by decide +kernel))⟩, trivial⟩
  exact ⟨hmem, accesses_in_bounds (by decide) rfl (by decide) hops _ hmem⟩

end Qmk.WearLeveling
