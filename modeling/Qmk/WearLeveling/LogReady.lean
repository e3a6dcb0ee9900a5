import Qmk.WearLeveling.Append

/-! # Stores whose log is ready

A store is ready with a cache `c` when its log replays to `c` exactly up to the
write address and everything behind the write address is erased. Appending sound
records, consolidating and erasing keep a store ready, and initialising a ready
store yields `c`.
-/

namespace Qmk.WearLeveling

/-- The log replays to the cache `c` at the write address, and the rest of it is erased. -/
structure LogReady (env : Env) (cfg : Config) (s : State) (c : Mem UInt8) : Prop where
  replays : Replays cfg s.store (cfg.logStart, consolidatedCache env cfg s) (s.writeAddress, c)
  lt : s.writeAddress < cfg.backingSize
  erased : ∀ x, s.writeAddress ≤ x → x < cfg.backingSize → s.store x = 0

variable {env : Env} {cfg : Config} {s : State} {c : Mem UInt8}

theorem LogReady.dvd (h : LogReady env cfg s c) : cfg.wordBytes ∣ s.writeAddress :=
  h.replays.aligned cfg.wordBytes_dvd_logStart

theorem LogReady.logStart_le (h : LogReady env cfg s c) : cfg.logStart ≤ s.writeAddress :=
  h.replays.le

theorem add_word_le {x : ℕ} (hx : cfg.wordBytes ∣ x) (hlt : x < cfg.backingSize) :
    x + cfg.wordBytes ≤ cfg.backingSize := by
  rcases Nat.lt_or_ge cfg.backingSize (x + cfg.wordBytes) with h | h
  · exact (add_word_eq hx hlt h.le).le
  · exact h

theorem LogReady.slotAt_empty (h : LogReady env cfg s c) :
    slotAt cfg s.store s.writeAddress = .empty :=
  WearLeveling.slotAt_empty fun _ hy hy' =>
    h.erased _ hy (hy'.trans_le (add_word_le h.dvd h.lt))

/-- Initialising a ready store makes only reads and yields the replayed cache. -/
theorem LogReady.init_eq (h : LogReady env cfg s c) (hread : env.ReadsSucceed)
    (hi : env.fails s.calls.length .init = false) :
    ∃ rs, OnlyReads rs ∧ wearLevelingInit env cfg s =
      (.success, { s with cache := c, calls := s.calls ++ .init :: rs }) :=
  WearLeveling.init_eq hread hi h.replays h.lt h.slotAt_empty

theorem LogReady.congr (h : LogReady env cfg s c) {t : State} (hs : t.store = s.store)
    (hw : t.writeAddress = s.writeAddress)
    (hc : ∀ i, cfg.logicalSize ≤ i → t.cache i = s.cache i) : LogReady env cfg t c where
  replays := by
    have he : consolidatedCache env cfg t = consolidatedCache env cfg s :=
      consolidatedCache_congr hc fun i _ => by rw [hs]
    rw [hs, hw, he]
    exact h.replays
  lt := by rw [hw]; exact h.lt
  erased := by rw [hs, hw]; exact h.erased

/-- Initialising from the same store reconstructs the logical bytes, whatever RAM holds. -/
theorem LogReady.reboot (h : LogReady env cfg s c) (hread : env.ReadsSucceed) {t : State}
    (ht : t.store = s.store) (hi : env.fails t.calls.length .init = false) :
    ∃ d rs, OnlyReads rs ∧ (∀ i < cfg.logicalSize, d i = c i) ∧
      wearLevelingInit env cfg t = (.success, { t with
        cache := d
        writeAddress := s.writeAddress
        calls := t.calls ++ .init :: rs }) ∧
      LogReady env cfg (wearLevelingInit env cfg t).2 d := by
  have hbase : ∀ i < cfg.logicalSize,
      consolidatedCache env cfg t i = consolidatedCache env cfg s i := by
    intro i hi
    rw [consolidatedCache, consolidatedCache, ht, Mem.write_of_mem _ (Nat.zero_le _) (by simpa),
      Mem.write_of_mem _ (Nat.zero_le _) (by simpa)]
  obtain ⟨d, hr, hd⟩ := h.replays.transfer hbase
  rw [← ht] at hr
  obtain ⟨rs, hrs, he⟩ := WearLeveling.init_eq hread hi hr h.lt (by rw [ht]; exact h.slotAt_empty)
  refine ⟨d, rs, hrs, hd, he, ?_⟩
  have hready : LogReady env cfg { t with writeAddress := s.writeAddress } d :=
    ⟨hr, h.lt, by rw [ht]; exact h.erased⟩
  rw [he]
  refine hready.congr rfl rfl fun i hi => (hr.cache_of_ge hi).trans ?_
  simp only [consolidatedCache]
  exact Mem.write_of_ge _ _ (by simpa using hi)

theorem replays_records {rs : List LogRecord} (hs : ∀ r ∈ rs, r.Sound cfg) {m : Mem UInt8} {x : ℕ}
    (hm : m.read x (rs.flatMap LogRecord.words).flatten.length =
      (rs.flatMap LogRecord.words).flatten)
    (hx : x + (rs.flatMap LogRecord.words).length * cfg.wordBytes ≤ cfg.backingSize)
    (c : Mem UInt8) :
    Replays cfg m (x, c)
      (x + (rs.flatMap LogRecord.words).length * cfg.wordBytes, applyRecords c rs) := by
  induction rs generalizing x c with
  | nil => simpa [applyRecords] using Relation.ReflTransGen.refl
  | cons r rs ih =>
    have hr := hs r List.mem_cons_self
    have hlen := length_flatten_words hr.word_length
    have hpos := Nat.mul_pos hr.words_pos cfg.wordBytes_pos
    simp only [List.flatMap_cons, List.flatten_append, List.length_append, Nat.add_mul,
      Mem.read_append] at hm hx ⊢
    obtain ⟨hm₁, hm₂⟩ := List.append_inj hm (by simp)
    refine Relation.ReflTransGen.head
      ⟨by simp only; omega, _, _, _, hr.slotAt_eq m x hm₁, hr.data_le, rfl⟩ ?_
    rw [hlen] at hm₂
    have hrs := ih (fun r' hr' => hs r' (List.mem_cons_of_mem _ hr')) hm₂ (by omega)
      (c.write r.address r.data)
    rw [Nat.add_assoc] at hrs
    exact hrs

theorem LogReady.append (h : LogReady env cfg s c) {rs : List LogRecord}
    (hs : ∀ r ∈ rs, r.Sound cfg)
    (hx : s.writeAddress + (rs.flatMap LogRecord.words).length * cfg.wordBytes < cfg.backingSize) :
    LogReady env cfg (appended cfg s (rs.flatMap LogRecord.words)) (applyRecords c rs) where
  replays := by
    have he : consolidatedCache env cfg (appended cfg s (rs.flatMap LogRecord.words)) =
        consolidatedCache env cfg s :=
      consolidatedCache_congr (fun _ _ => rfl) fun i hi =>
        Mem.write_of_lt _ _ (hi.trans_le h.logStart_le)
    rw [he]
    refine Relation.ReflTransGen.trans ?_
      (replays_records hs (Mem.read_write _ _ _) hx.le c)
    exact h.replays.congr fun y _ hy => (Mem.write_of_lt _ _ hy).symm
  lt := hx
  erased := by
    intro x hx' hB
    simp only [appended] at hx' ⊢
    rw [Mem.write_of_ge _ _ (by rw [length_flatten_words (length_of_mem_words hs)]; exact hx')]
    exact h.erased x (by omega) hB

theorem read_consolidatedStore (c m : Mem UInt8) :
    (consolidatedStore env cfg c m).read 0 cfg.logicalSize = c.read 0 cfg.logicalSize := by
  rw [consolidatedStore, Mem.read_write_disjoint _ (by omega)]
  simpa using Mem.read_write (m.write 0 (List.replicate cfg.backingSize 0)) 0
    (c.read 0 cfg.logicalSize)

theorem consolidatedData_consolidatedStore (c m : Mem UInt8) :
    consolidatedData env cfg (consolidatedStore env cfg c m) = c.read 0 cfg.logicalSize := by
  have h8 : (consolidatedStore env cfg c m).read cfg.logicalSize 8 =
      (env.fnv64aBuf (c.read 0 cfg.logicalSize)).toList := by
    simpa [consolidatedStore] using Mem.read_write
      ((m.write 0 (List.replicate cfg.backingSize 0)).write 0 (c.read 0 cfg.logicalSize))
      cfg.logicalSize (env.fnv64aBuf (c.read 0 cfg.logicalSize)).toList
  rw [consolidatedData, read_consolidatedStore, h8, if_pos rfl]

theorem write_read_self {α : Type*} (m : Mem α) (n : ℕ) : m.write 0 (m.read 0 n) = m := by
  funext x
  rcases Nat.lt_or_ge x n with hx | hx
  · rw [Mem.write_of_mem _ (Nat.zero_le _) (by simpa using hx), Mem.getElem_read]
    simp
  · rw [Mem.write_of_ge _ _ (by simpa using hx)]

theorem logReady_consolidated (hlog : cfg.logStart < cfg.backingSize) (s : State) :
    LogReady env cfg (consolidated env cfg s) s.cache where
  replays := by
    have he : consolidatedCache env cfg (consolidated env cfg s) = s.cache := by
      simp only [consolidatedCache, consolidated, consolidatedData_consolidatedStore]
      exact write_read_self _ _
    rw [he]
    exact Relation.ReflTransGen.refl
  lt := hlog
  erased := by
    intro x hx hB
    simp only [consolidated, Config.logStart] at hx
    simp only [consolidated, consolidatedStore]
    rw [Mem.write_of_ge _ _ (by simpa using hx), Mem.write_of_ge _ _ (by simp; omega),
      Mem.write_of_mem _ (Nat.zero_le _) (by simpa using hB)]
    simp

theorem logReady_clearCache (hlog : cfg.logStart < cfg.backingSize)
    (he : ∀ x < cfg.backingSize, s.store x = 0) :
    LogReady env cfg (wearLevelingClearCache cfg s) (wearLevelingClearCache cfg s).cache where
  replays := by
    have hB := hlog
    have hz : s.store.read 0 cfg.logicalSize = List.replicate cfg.logicalSize 0 := by
      refine List.ext_getElem (by simp) fun i hi _ => ?_
      rw [Mem.getElem_read, List.getElem_replicate]
      exact he _ (by unfold Config.logStart at hB; simp at hi; omega)
    have hd : consolidatedData env cfg s.store = List.replicate cfg.logicalSize 0 := by
      unfold consolidatedData; split_ifs <;> simp [hz]
    have hc : consolidatedCache env cfg (wearLevelingClearCache cfg s) =
        (wearLevelingClearCache cfg s).cache := by
      simp only [consolidatedCache, wearLevelingClearCache, hd]
      exact write_write_inside _ (by simp)
    rw [hc]
    exact Relation.ReflTransGen.refl
  lt := hlog
  erased := fun x _ hx => he x hx

end Qmk.WearLeveling
