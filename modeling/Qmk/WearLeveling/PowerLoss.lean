import Qmk.WearLeveling.FlatArray

/-! # Losing power inside a write

Power is lost between two store calls of a write that does not consolidate. A
record of which only the first words are stored is replayed with zeros in place
of the rest, so the write is crash consistent exactly when these zeros do no
harm.
-/

namespace Qmk.WearLeveling

def StoreCall.effect (cfg : Config) (m : Mem UInt8) : StoreCall → Mem UInt8
  | .erase => m.write 0 (List.replicate cfg.backingSize 0)
  | .write address value => m.write address value
  | _ => m

def storeAfter (cfg : Config) (m : Mem UInt8) (cs : List StoreCall) : Mem UInt8 :=
  cs.foldl (StoreCall.effect cfg) m

/-- Power may be lost after any of the store calls of the write: initialising from what is stored
then, with anything in RAM, yields for each byte its value from before or from after the write. -/
def CrashConsistent (env : Env) (cfg : Config) (s : State) (address : ℕ) (value : List UInt8) :
    Prop :=
  ∀ pre, s.calls ++ pre <+: (wearLevelingWrite env cfg address value s).2.calls →
    ∀ t : State, t.store = storeAfter cfg s.store pre → ∀ i < cfg.logicalSize,
      (wearLevelingInit env cfg t).2.cache i = s.cache i ∨
      (wearLevelingInit env cfg t).2.cache i = s.cache.write address value i

/-- Every byte that a torn record of the write replays as zero may be zero: it is zero before the
write, or the write makes it zero. -/
def TearsHarmless (cfg : Config) (s : State) (address : ℕ) (value : List UInt8) : Prop :=
  ∀ r ∈ writeRecords cfg address value, ∀ j, 0 < j → j < r.words.length →
    ∀ i < r.data.length, j * cfg.wordBytes ≤ 3 + i →
      s.cache (r.tornAddress cfg j + i) = 0 ∨
      s.cache.write address value (r.tornAddress cfg j + i) = 0

variable {env : Env} {cfg : Config}

theorem storeAfter_append (m : Mem UInt8) (cs ds : List StoreCall) :
    storeAfter cfg m (cs ++ ds) = storeAfter cfg (storeAfter cfg m cs) ds :=
  List.foldl_append

theorem storeAfter_writeCalls {ws : List (List UInt8)} (hw : ∀ w ∈ ws, w.length = cfg.wordBytes)
    (m : Mem UInt8) (x : ℕ) : storeAfter cfg m (writeCalls cfg x ws) = m.write x ws.flatten := by
  induction ws generalizing m x with
  | nil => simp [writeCalls, storeAfter]
  | cons w ws ih =>
    have hih := ih (fun v hv => hw v (List.mem_cons_of_mem _ hv)) (m.write x w) (x + cfg.wordBytes)
    rw [List.flatten_cons, Mem.write_append, hw w List.mem_cons_self]
    exact hih

theorem take_writeCalls (x k : ℕ) (ws : List (List UInt8)) :
    (writeCalls cfg x ws).take k = writeCalls cfg x (ws.take k) := by
  induction ws generalizing x k with
  | nil => simp [writeCalls]
  | cons w ws ih =>
    cases k with
    | zero => rfl
    | succ k => simp [writeCalls, ih]

def appendCalls (cfg : Config) (s : State) (ws : List (List UInt8)) : List StoreCall :=
  (if s.unlocked then [] else [.unlock]) ++ (writeCalls cfg s.writeAddress ws ++
    if s.unlocked then [] else [.lock])

theorem storeAfter_of_prefix {s : State} {ws : List (List UInt8)}
    (hw : ∀ w ∈ ws, w.length = cfg.wordBytes) {pre : List StoreCall}
    (hpre : pre <+: appendCalls cfg s ws) :
    ∃ k, storeAfter cfg s.store pre = s.store.write s.writeAddress (ws.take k).flatten := by
  have hlock : ∀ (m : Mem UInt8) n,
      storeAfter cfg m ((if s.unlocked then [] else [.lock]).take n) = m := by
    intro m n
    cases s.unlocked <;> cases n <;> simp [storeAfter, StoreCall.effect]
  have hunlock : ∀ (m : Mem UInt8) n,
      storeAfter cfg m ((if s.unlocked then [] else [.unlock]).take n) = m := by
    intro m n
    cases s.unlocked <;> cases n <;> simp [storeAfter, StoreCall.effect]
  rw [List.prefix_iff_eq_take] at hpre
  rw [hpre, appendCalls, List.take_append, List.take_append, storeAfter_append, storeAfter_append,
    hunlock, hlock, take_writeCalls]
  exact ⟨_, storeAfter_writeCalls (fun w hw' => hw w (List.mem_of_mem_take hw')) _ _⟩

theorem exists_prefix {s : State} {ws : List (List UInt8)}
    (hw : ∀ w ∈ ws, w.length = cfg.wordBytes) (k : ℕ) :
    ∃ pre, pre <+: appendCalls cfg s ws ∧
      storeAfter cfg s.store pre = s.store.write s.writeAddress (ws.take k).flatten := by
  refine ⟨(if s.unlocked then [] else [.unlock]) ++ writeCalls cfg s.writeAddress (ws.take k),
    ?_, ?_⟩
  · rw [appendCalls, List.prefix_append_right_inj, ← take_writeCalls]
    exact (List.take_prefix _ _).trans (List.prefix_append _ _)
  · have hk : ∀ w ∈ ws.take k, w.length = cfg.wordBytes :=
      fun w hw' => hw w (List.mem_of_mem_take hw')
    rw [storeAfter_append, ← storeAfter_writeCalls hk]
    cases s.unlocked <;> rfl

/-- The first words of a list of records: all of them, or some records and a part of the next. -/
theorem take_records (rs : List LogRecord) (k : ℕ) :
    (rs.flatMap LogRecord.words).take k = rs.flatMap LogRecord.words ∨
    ∃ rs₁ r rs₂ j, rs = rs₁ ++ r :: rs₂ ∧ j < r.words.length ∧
      (rs.flatMap LogRecord.words).take k = rs₁.flatMap LogRecord.words ++ r.words.take j := by
  induction rs generalizing k with
  | nil => simp
  | cons r rs ih =>
    rw [List.flatMap_cons, List.take_append]
    rcases Nat.lt_or_ge k r.words.length with hk | hk
    · refine .inr ⟨[], r, rs, k, rfl, hk, ?_⟩
      simp [Nat.sub_eq_zero_of_le hk.le]
    · rw [List.take_of_length_le hk]
      rcases ih (k - r.words.length) with h | ⟨rs₁, r', rs₂, j, rfl, hj, h⟩
      · exact .inl (by rw [h])
      · exact .inr ⟨r :: rs₁, r', rs₂, j, rfl, hj, by rw [h]; simp⟩

theorem LogReady.torn {s : State} {c : Mem UInt8} (h : LogReady env cfg s c) {r : LogRecord}
    (hr : r.Sound cfg) {j : ℕ} (hj : 0 < j) (hj' : j < r.words.length)
    (hB : s.writeAddress + r.words.length * cfg.wordBytes < cfg.backingSize) :
    LogReady env cfg
      { s with
        store := s.store.write s.writeAddress (r.words.take j).flatten
        writeAddress := s.writeAddress + r.words.length * cfg.wordBytes }
      (c.write (r.tornAddress cfg j) (r.tornData cfg j)) where
  replays := by
    have hlen : (r.words.take j).flatten.length = j * cfg.wordBytes := by
      rw [length_flatten_words fun w hw => hr.word_length w (List.mem_of_mem_take hw),
        List.length_take, Nat.min_eq_left hj'.le]
    have hslot : slotAt cfg (s.store.write s.writeAddress (r.words.take j).flatten)
        s.writeAddress = .entry r.words.length (r.tornAddress cfg j) (r.tornData cfg j) := by
      refine hr.slotAt_torn _ _ j hj hj' ?_ fun y hy hy' => ?_
      · rw [← hlen]
        exact Mem.read_write _ _ _
      · rw [Mem.write_of_ge _ _ (by omega)]
        exact h.erased y (by omega) (by omega)
    have hbase : consolidatedCache env cfg
        { s with
          store := s.store.write s.writeAddress (r.words.take j).flatten
          writeAddress := s.writeAddress + r.words.length * cfg.wordBytes } =
        consolidatedCache env cfg s :=
      consolidatedCache_congr (fun _ _ => rfl) fun i hi =>
        Mem.write_of_lt _ _ (hi.trans_le h.logStart_le)
    have hd : (r.tornData cfg j).length ≤ 5 := by
      simpa [LogRecord.tornData] using hr.data_le
    rw [hbase]
    exact (h.replays.congr fun y _ hy => (Mem.write_of_lt _ _ hy).symm).tail
      ⟨h.lt, _, _, _, hslot, hd, rfl⟩
  lt := hB
  erased := by
    intro x hx hxB
    have hle := Nat.mul_le_mul_right cfg.wordBytes hj'.le
    simp only at hx ⊢
    rw [Mem.write_of_ge _ _ ?_]
    · exact h.erased x (by omega) hxB
    · rw [length_flatten_words fun w hw => hr.word_length w (List.mem_of_mem_take hw),
        List.length_take, Nat.min_eq_left hj'.le]
      omega

theorem applyRecords_old_or_new {a : ℕ} {v : List UInt8} {rs : List LogRecord}
    (hrs : ∀ r ∈ rs, r.PartOf a v) (c : Mem UInt8) {d : Mem UInt8} {i : ℕ}
    (hd : d i = c i ∨ d i = c.write a v i) :
    applyRecords d rs i = c i ∨ applyRecords d rs i = c.write a v i := by
  induction rs generalizing d with
  | nil => exact hd
  | cons r rs ih =>
    refine ih (fun r' hr' => hrs r' (List.mem_cons_of_mem _ hr')) ?_
    have hr := hrs r List.mem_cons_self
    beta_reduce
    rcases Nat.lt_or_ge i r.address with hi | hi
    · rwa [Mem.write_of_lt _ _ hi]
    rcases Nat.lt_or_ge i (r.address + r.data.length) with hi' | hi'
    · have hw := hr.write_eq c (show i - r.address < r.data.length by omega)
      rw [Nat.add_sub_cancel' hi] at hw
      exact .inr (by rw [Mem.write_of_mem _ hi (by omega), hw])
    · rwa [Mem.write_of_ge _ _ hi']

theorem torn_old_or_new {s : State} {a : ℕ} {v : List UInt8} {r : LogRecord} (hr : r.PartOf a v)
    {j : ℕ} (hj : 0 < j)
    (hz : ∀ i < r.data.length, j * cfg.wordBytes ≤ 3 + i →
      s.cache (r.tornAddress cfg j + i) = 0 ∨ s.cache.write a v (r.tornAddress cfg j + i) = 0)
    {d : Mem UInt8} {i : ℕ} (hd : d i = s.cache i ∨ d i = s.cache.write a v i) :
    d.write (r.tornAddress cfg j) (r.tornData cfg j) i = s.cache i ∨
      d.write (r.tornAddress cfg j) (r.tornData cfg j) i = s.cache.write a v i := by
  have hlen : (r.tornData cfg j).length = r.data.length := by simp [LogRecord.tornData]
  rcases Nat.lt_or_ge i (r.tornAddress cfg j) with hi | hi
  · rwa [Mem.write_of_lt _ _ hi]
  rcases Nat.lt_or_ge i (r.tornAddress cfg j + r.data.length) with hi' | hi'
  · rw [Mem.write_of_mem _ hi (by omega)]
    simp only [LogRecord.tornData, List.getElem_mapIdx]
    obtain ⟨k, rfl⟩ := Nat.exists_eq_add_of_le hi
    simp only [Nat.add_sub_cancel_left]
    split_ifs with hk
    · exact (hz k (by omega) hk).imp Eq.symm Eq.symm
    · have ha : r.tornAddress cfg j = r.address := by
        rw [LogRecord.tornAddress, if_neg (by have := tear_cases cfg hj; omega)]
      have hw := hr.write_eq s.cache (show k < r.data.length by omega)
      rw [← ha] at hw
      exact .inr hw.symm
  · rwa [Mem.write_of_ge _ _ (by omega)]

section Write

variable {s : State} {a : ℕ} {v : List UInt8}

/-- What initialisation finds after some words of the write: the records that are stored, and
possibly a torn one. -/
theorem ready_of_take (hU : cfg.logicalSize ≤ 2 ^ 19) (hr : LogReady env cfg s s.cache)
    (hin : a + v.length ≤ cfg.logicalSize)
    (hB : s.writeAddress + (writeWords cfg a v).length * cfg.wordBytes < cfg.backingSize)
    (hz : TearsHarmless cfg s a v) (k : ℕ) :
    ∃ s' c, s'.store = s.store.write s.writeAddress ((writeWords cfg a v).take k).flatten ∧
      LogReady env cfg s' c ∧ ∀ i, c i = s.cache i ∨ c i = s.cache.write a v i := by
  have hsound := writeRecords_sound hU hin
  rcases take_records (writeRecords cfg a v) k with h | ⟨rs₁, r, rs₂, j, hrs, hj, h⟩
  · have ha := hr.append hsound hB
    rw [applyRecords_writeRecords] at ha
    exact ⟨_, _, by rw [writeWords, h]; rfl, ha, fun i => .inr rfl⟩
  rw [hrs] at hsound
  have hpart : ∀ r' ∈ rs₁ ++ r :: rs₂, r'.PartOf a v := by
    rw [← hrs]
    exact writeRecords_partOf
  have hwords : (writeWords cfg a v).length = (rs₁.flatMap LogRecord.words).length +
      r.words.length + (rs₂.flatMap LogRecord.words).length := by
    simp [writeWords, hrs, Nat.add_assoc]
  rw [hwords, Nat.add_mul, Nat.add_mul] at hB
  have hs₁ : ∀ r ∈ rs₁, r.Sound cfg := fun r hr => hsound r (List.mem_append_left _ hr)
  have hp₁ : ∀ r ∈ rs₁, r.PartOf a v := fun r hr => hpart r (List.mem_append_left _ hr)
  have hmem : r ∈ rs₁ ++ r :: rs₂ := by simp
  have h₁ := hr.append hs₁ (by omega)
  have hc₁ : ∀ i, applyRecords s.cache rs₁ i = s.cache i ∨
      applyRecords s.cache rs₁ i = s.cache.write a v i :=
    fun i => applyRecords_old_or_new hp₁ s.cache (.inl rfl)
  have hflat : s.store.write s.writeAddress ((writeWords cfg a v).take k).flatten =
      (appended cfg s (rs₁.flatMap LogRecord.words)).store.write
        (appended cfg s (rs₁.flatMap LogRecord.words)).writeAddress (r.words.take j).flatten := by
    rw [writeWords, h, List.flatten_append, Mem.write_append,
      length_flatten_words (length_of_mem_words hs₁)]
    rfl
  rw [hflat]
  rcases Nat.eq_zero_or_pos j with rfl | hpos
  · exact ⟨_, _, by simp, h₁, hc₁⟩
  · refine ⟨_, _, rfl, h₁.torn (hsound r hmem) hpos hj ?_, fun i => ?_⟩
    · simp only [appended]
      omega
    · exact torn_old_or_new (hpart r hmem) hpos (hz r (hrs ▸ hmem) j hpos hj) (hc₁ i)

/-- After some records and the first `j` words of the next one, the missing bytes read as zero. -/
theorem exists_torn (hU : cfg.logicalSize ≤ 2 ^ 19) (hr : LogReady env cfg s s.cache)
    (hin : a + v.length ≤ cfg.logicalSize)
    (hB : s.writeAddress + (writeWords cfg a v).length * cfg.wordBytes < cfg.backingSize)
    {r : LogRecord} (hmem : r ∈ writeRecords cfg a v) {j : ℕ} (hj : 0 < j)
    (hj' : j < r.words.length) :
    ∃ k s' c, s'.store = s.store.write s.writeAddress ((writeWords cfg a v).take k).flatten ∧
      LogReady env cfg s' c ∧ ∀ i < r.data.length, j * cfg.wordBytes ≤ 3 + i →
        c (r.tornAddress cfg j + i) = 0 := by
  obtain ⟨rs₁, rs₂, hrs⟩ := List.append_of_mem hmem
  have hsound := writeRecords_sound hU hin
  have hwords : writeWords cfg a v =
      rs₁.flatMap LogRecord.words ++ (r.words ++ rs₂.flatMap LogRecord.words) := by
    simp [writeWords, hrs]
  have hs₁ : ∀ r ∈ rs₁, r.Sound cfg := fun r hr =>
    hsound r (by rw [hrs]; exact List.mem_append_left _ hr)
  have hw₁ := length_of_mem_words hs₁
  rw [hwords, List.length_append, List.length_append, Nat.add_mul, Nat.add_mul] at hB
  have h₁ := hr.append hs₁ (by omega)
  have ht := h₁.torn (hsound r hmem) hj hj' (by simp only [appended]; omega)
  refine ⟨(rs₁.flatMap LogRecord.words).length + j, _, _, ?_, ht, fun i hi hk => ?_⟩
  · rw [hwords, List.take_length_add_append, List.take_append_of_le_length hj'.le,
      List.flatten_append, Mem.write_append, length_flatten_words hw₁]
    rfl
  · have hlen : i < (r.tornData cfg j).length := by simpa [LogRecord.tornData] using hi
    rw [Mem.write_add _ hlen]
    simp [LogRecord.tornData, hk]

theorem calls_write_of_success (hlog : cfg.logStart < cfg.backingSize)
    (hU : cfg.logicalSize ≤ 2 ^ 19) (hf : env.NeverFails) (hr : LogReady env cfg s s.cache)
    (hin : a + v.length ≤ cfg.logicalSize) (hne : s.cache.read a v.length ≠ v)
    (hns : (wearLevelingWrite env cfg a v s).1 ≠ .consolidated) :
    s.writeAddress + (writeWords cfg a v).length * cfg.wordBytes < cfg.backingSize ∧
      (wearLevelingWrite env cfg a v s).2.calls =
        s.calls ++ appendCalls cfg s (writeWords cfg a v) := by
  rcases write_of_ok hlog hU hr.lt hr.dvd hin hne (write_neverFails hf hin s) with
    ⟨hB, he⟩ | ⟨_, _, _, _, he⟩
  · refine ⟨hB, ?_⟩
    rw [he]
    simp [State.endWrite, State.beginWrite, appended, appendCalls]
  · exact absurd (by rw [he]) hns

theorem crashConsistent_of_ready (hlog : cfg.logStart < cfg.backingSize)
    (hU : cfg.logicalSize ≤ 2 ^ 19) (hf : env.NeverFails) (hr : LogReady env cfg s s.cache)
    (hin : a + v.length ≤ cfg.logicalSize)
    (hns : (wearLevelingWrite env cfg a v s).1 ≠ .consolidated) :
    CrashConsistent env cfg s a v ↔ s.cache.read a v.length = v ∨ TearsHarmless cfg s a v := by
  by_cases hne : s.cache.read a v.length = v
  · refine iff_of_true ?_ (.inl hne)
    intro pre hpre t ht i hi
    have hw : wearLevelingWrite env cfg a v s = (.success, s) := by
      simp [wearLevelingWrite, Nat.not_lt.mpr hin, hne]
    rw [hw] at hpre
    have hnil : pre = [] := by
      have := hpre.length_le
      simpa using this
    subst hnil
    obtain ⟨d, _, _, hd, he, _⟩ := hr.reboot hf.reads ht (hf _ _)
    rw [he]
    exact .inl (hd i hi)
  have hword := length_of_mem_writeWords hU hin
  obtain ⟨hB, hcalls⟩ := calls_write_of_success hlog hU hf hr hin hne hns
  constructor
  · intro h
    refine .inr fun r hmem j hj hj' i hi hk => ?_
    obtain ⟨k, s', c, hs', hready, hc⟩ := exists_torn hU hr hin hB hmem hj hj'
    obtain ⟨pre, hpre, hstore⟩ := exists_prefix (s := s) hword k
    obtain ⟨d, _, _, hd, he, _⟩ :=
      hready.reboot hf.reads (t := { s with store := s'.store }) rfl (hf _ _)
    have hlt : r.tornAddress cfg j + i < cfg.logicalSize := by
      have hend := (writeRecords_partOf r hmem).end_le
      have hle : r.tornAddress cfg j ≤ r.address := by
        unfold LogRecord.tornAddress
        split_ifs <;> omega
      omega
    have hcut := h pre (by rw [hcalls, List.prefix_append_right_inj]; exact hpre)
      { s with store := s'.store } (hs'.trans hstore.symm) _ hlt
    rw [he] at hcut
    simp only [hd _ hlt, hc i hi hk] at hcut
    exact hcut.imp Eq.symm Eq.symm
  · rintro (h | hz)
    · exact absurd h hne
    intro pre hpre t ht i hi
    rw [hcalls, List.prefix_append_right_inj] at hpre
    obtain ⟨k, hk⟩ := storeAfter_of_prefix hword hpre
    obtain ⟨s', c, hs', hready, hc⟩ := ready_of_take hU hr hin hB hz k
    obtain ⟨d, _, _, hd, he, _⟩ :=
      hready.reboot hf.reads (ht.trans (hk.trans hs'.symm)) (hf _ _)
    rw [he]
    simp only [hd i hi]
    exact hc i

/-- A write that does not consolidate is crash consistent exactly when it stores nothing or its
tears are harmless. -/
theorem crashConsistent_iff (hlog : cfg.logStart < cfg.backingSize)
    (hU : cfg.logicalSize ≤ 2 ^ 19) (hf : env.NeverFails) (hs : Reachable env cfg s)
    (hin : a + v.length ≤ cfg.logicalSize)
    (hns : (wearLevelingWrite env cfg a v s).1 ≠ .consolidated) :
    CrashConsistent env cfg s a v ↔ s.cache.read a v.length = v ∨ TearsHarmless cfg s a v :=
  crashConsistent_of_ready hlog hU hf (hs.ready hlog hU hf) hin hns

end Write

/-- The state after the bytes 7, 7 have been written to an erased store. -/
def sevens : State := run .working .small .blank [.erase, .write 0 [7, 7]]

theorem sevens_reachable : Reachable .working .small sevens :=
  ⟨.blank, .erase, [.write 0 [7, 7]], fun _ _ => rfl, .inr rfl, rfl⟩

/-- Overwriting the two bytes takes two words; after the first of them the second byte reads as
zero. -/
theorem torn_write_loses_byte : Reachable .working .small sevens ∧
    (wearLevelingWrite .working .small 0 [8, 8] sevens).1 ≠ .consolidated ∧
    ¬ CrashConsistent .working .small sevens 0 [8, 8] := by
  refine ⟨sevens_reachable, by decide +kernel, fun h => ?_⟩
  have hcut := h [.unlock, .write 32 [16, 0, 0, 8]] (by decide +kernel)
    { sevens with store := sevens.store.write 32 [16, 0, 0, 8] } rfl 1 (by decide)
  revert hcut
  decide +kernel

/-- Two bytes that are zero before the write: the torn record replays the second of them as zero. -/
theorem crashConsistent_iff_small : CrashConsistent .working .small sevens 2 [8, 9] := by
  refine (crashConsistent_iff (by decide) (by decide) Env.working_neverFails sevens_reachable
    (by decide) (by decide +kernel)).mpr (.inr ?_)
  have hzero : ∀ r ∈ writeRecords .small 2 [8, 9], r.words.length = 2 ∧
      ∀ j < 2, ∀ i < r.data.length, sevens.cache (r.tornAddress .small j + i) = 0 := by
    decide +kernel
  intro r hr j _ hj i hi _
  obtain ⟨hlen, hcache⟩ := hzero r hr
  exact .inl (hcache j (by omega) i hi)

end Qmk.WearLeveling
