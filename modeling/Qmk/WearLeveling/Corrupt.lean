import Qmk.WearLeveling.Bounds

/-! # Playback of any content

A store may hold bytes that no encoder has written. Playback checks the range of an
entry against the logical size, but takes the length of a multi-byte entry from
three bits of the header: a length of six or seven copies bytes from behind the
entry that was read.
-/

namespace Qmk.WearLeveling

/-- Bytes that a pass writes: `size` bytes of the cache from `dest` on are made from `length` bytes
of the entry from `offset` on. -/
structure Copy where
  dest : ℕ
  size : ℕ
  offset : ℕ
  length : ℕ
  deriving DecidableEq, Repr

/-- The copy of a pass over the entry at `x`. -/
def slotCopy (cfg : Config) (m : Mem UInt8) (x : ℕ) : Copy :=
  let log : Raw8 := fun i => m (x + i)
  if logEntryGetType log = LogEntryType.multibyte.code then
    ⟨logEntryMultibyteGetAddress log, logEntryMultibyteGetLength log, 3,
      logEntryMultibyteGetLength log⟩
  else if cfg.writeSize = .two ∧ logEntryGetType log = LogEntryType.optimized64.code then
    ⟨logEntryOptimized64GetAddress log, 1, 1, 1⟩
  else ⟨logEntryWord01GetAddress log, 2, 0, 1⟩

/-- The copies of the playback loop, which only passes that go on make. -/
def playbackCopies (env : Env) (cfg : Config) : ℕ → ℕ → State → List Copy
  | 0, _, _ => []
  | fuel + 1, address, s =>
    if address < cfg.backingSize then
      let r := playbackEntry env cfg address s
      if r.1.cancel then []
      else slotCopy cfg s.store address :: playbackCopies env cfg fuel r.1.address r.2
    else []

/-- The cache bytes have a logical address, and the bytes of the entry are among its eight. -/
def Copy.InBounds (cfg : Config) (c : Copy) : Prop :=
  c.dest + c.size ≤ cfg.logicalSize ∧ c.offset + c.length ≤ 8

/-- `wearLevelingPlaybackLog` writes logical bytes of the cache only and copies from inside the
entry, its loop has come to an end, and it leaves the write address inside the store. -/
structure StaysBounded (env : Env) (cfg : Config) (s : State) : Prop where
  copies : ∀ c ∈ playbackCopies env cfg cfg.backingSize cfg.logStart s, c.InBounds cfg
  cache : ∀ i, cfg.logicalSize ≤ i → (wearLevelingPlaybackLog env cfg s).2.cache i = s.cache i
  ends : (playbackLoop env cfg cfg.backingSize cfg.logStart s).1.cancel = true ∨
    cfg.backingSize ≤ (playbackLoop env cfg cfg.backingSize cfg.logStart s).1.address
  writeAddress : (wearLevelingPlaybackLog env cfg s).2.writeAddress ≤ cfg.backingSize

/-- No entry that playback arrives at is longer than the driver writes them. -/
def ShortEntries (cfg : Config) (m : Mem UInt8) : Prop :=
  ∀ x, Visits cfg m x → x < cfg.backingSize → ∀ n a data, slotAt cfg m x = .entry n a data →
    data.length ≤ logEntryMultibyteMaxBytes

/-- Store erases that always succeed. -/
def Env.ErasesSucceed (env : Env) : Prop := ∀ n, env.fails n .erase = false

variable {env : Env} {cfg : Config}

/-- The copy of an entry writes its data, and stays inside the entry if the data is short. -/
theorem slotCopy_of_entry {m : Mem UInt8} {x n a : ℕ} {data : List UInt8}
    (h : slotAt cfg m x = .entry n a data) : (slotCopy cfg m x).dest = a ∧
      (slotCopy cfg m x).size = data.length ∧
      ((slotCopy cfg m x).offset + (slotCopy cfg m x).length ≤ 8 ↔
        data.length ≤ logEntryMultibyteMaxBytes) := by
  unfold slotAt at h
  unfold slotCopy
  simp only at h ⊢
  split_ifs at h ⊢ <;> obtain ⟨rfl, rfl, rfl⟩ := Slot.entry.inj h <;>
    simp [logEntryMultibyteMaxBytes]
  omega

section Loop

theorem playbackEntry_goes_on {x : ℕ} {s : State} (hx : x < cfg.backingSize)
    (hgo : (playbackEntry env cfg x s).1.cancel = false) :
    Follows cfg s.store x (playbackEntry env cfg x s).1.address ∧
      x < (playbackEntry env cfg x s).1.address ∧
      (playbackEntry env cfg x s).2.store = s.store ∧
      ∃ (a : ℕ) (data data' : List UInt8), data'.length = data.length ∧
        a + data.length ≤ cfg.logicalSize ∧
        (playbackEntry env cfg x s).2.cache = s.cache.write a data' ∧
        (slotCopy cfg s.store x).dest = a ∧ (slotCopy cfg s.store x).size = data.length := by
  obtain ⟨k, j, -, hstate, haddr, -, hentry⟩ := playbackEntry_treats env cfg x s
  obtain ⟨a, data, data', hslot, hlen, hcache⟩ := hentry hgo
  obtain ⟨hj, hrange⟩ := slotAt_entry_bounds hslot
  have hadvance := Nat.mul_pos hj cfg.wordBytes_pos
  obtain ⟨hdest, hsize, -⟩ := slotCopy_of_entry hslot
  refine ⟨⟨hx, j, a, data, hslot, haddr⟩, by omega, by rw [hstate]; rfl, ?_⟩
  exact ⟨a, data, data', hlen, hrange, hcache, hdest, hsize⟩

theorem playbackLoop_ends (env : Env) (cfg : Config) (fuel : ℕ) {x : ℕ}
    (hfuel : cfg.backingSize - x ≤ fuel) (s : State) :
    (playbackLoop env cfg fuel x s).1.cancel = true ∨
      cfg.backingSize ≤ (playbackLoop env cfg fuel x s).1.address := by
  induction fuel generalizing x s with
  | zero => exact .inr (Nat.le_of_sub_eq_zero (Nat.le_zero.mp hfuel))
  | succ fuel ih =>
    rw [playbackLoop]
    split_ifs with hx
    · cases hgo : (playbackEntry env cfg x s).1.cancel with
      | true => exact .inl (by simp [hgo])
      | false =>
        have hadvance := (playbackEntry_goes_on hx hgo).2.1
        simp only [hgo, Bool.false_eq_true, if_false]
        exact ih (by omega) _
    · exact .inr (Nat.le_of_not_lt hx)

theorem playbackLoop_cache (env : Env) (cfg : Config) (fuel x : ℕ) (s : State) {i : ℕ}
    (hi : cfg.logicalSize ≤ i) : (playbackLoop env cfg fuel x s).2.cache i = s.cache i := by
  induction fuel generalizing x s with
  | zero => rfl
  | succ fuel ih =>
    rw [playbackLoop]
    split_ifs with hx
    · cases hgo : (playbackEntry env cfg x s).1.cancel with
      | true =>
        obtain ⟨-, -, -, -, -, hstop, -⟩ := playbackEntry_treats env cfg x s
        simp only [hgo, if_true, hstop hgo]
      | false =>
        obtain ⟨-, -, -, a, data, data', hlen, hrange, hcache, -⟩ := playbackEntry_goes_on hx hgo
        simp only [hgo, Bool.false_eq_true, if_false]
        rw [ih, hcache, Mem.write_of_ge _ _ (by omega)]
    · rfl

theorem playbackCopies_inBounds {m : Mem UInt8} (hm : ShortEntries cfg m) (fuel : ℕ) {x : ℕ}
    (hx : Visits cfg m x) {s : State} (hs : s.store = m) :
    ∀ c ∈ playbackCopies env cfg fuel x s, c.InBounds cfg := by
  induction fuel generalizing x s with
  | zero => exact fun _ h => absurd h List.not_mem_nil
  | succ fuel ih =>
    rw [playbackCopies]
    split_ifs with hlt
    swap
    · exact fun _ h => absurd h List.not_mem_nil
    cases hgo : (playbackEntry env cfg x s).1.cancel with
    | true => simp [hgo]
    | false =>
      obtain ⟨hfollows, -, hstore, a, data, data', -, hrange, -, hdest, hsize⟩ :=
        playbackEntry_goes_on hlt hgo
      simp only [hgo, Bool.false_eq_true, if_false]
      rw [hs] at hfollows
      rintro c (_ | ⟨_, hc⟩)
      · refine ⟨by omega, ?_⟩
        obtain ⟨-, n, b, bs, hslot, -⟩ := hfollows
        rw [hs]
        exact (slotCopy_of_entry hslot).2.2.mpr (hm x hx hlt n b bs hslot)
      · exact ih (hx.tail hfollows) (hstore.trans hs) c hc

/-- The cursor stays inside the store when no header reaches over its end. -/
theorem playbackLoop_address_le {m : Mem UInt8} (hm : ReplayInBounds cfg m) (fuel : ℕ) {x : ℕ}
    (hx : Visits cfg m x) (hle : x ≤ cfg.backingSize) {s : State} (hs : s.store = m) :
    (playbackLoop env cfg fuel x s).1.address ≤ cfg.backingSize := by
  induction fuel generalizing x s with
  | zero => exact hle
  | succ fuel ih =>
    rw [playbackLoop]
    split_ifs with hlt
    swap
    · exact hle
    obtain ⟨k, j, ⟨hk, hj⟩, -, haddr, -⟩ := playbackEntry_treats env cfg x s
    rw [hs] at hk
    have hend := hm x hx hlt
    have hwords := Nat.mul_le_mul_right cfg.wordBytes (hj.trans hk)
    have hnext : (playbackEntry env cfg x s).1.address ≤ cfg.backingSize := by omega
    cases hgo : (playbackEntry env cfg x s).1.cancel with
    | true => simpa [hgo] using hnext
    | false =>
      obtain ⟨hfollows, -, hstore, -⟩ := playbackEntry_goes_on hlt hgo
      simp only [hgo, Bool.false_eq_true, if_false]
      exact ih (hx.tail (hs ▸ hfollows)) hnext (hstore.trans hs)

/-- With reads that succeed, the loop arrives at every address that the log leads to. -/
theorem playbackLoop_visits (h : env.ReadsSucceed) {s : State} {x : ℕ}
    (hx : Visits cfg s.store x) : ∃ fuel t pre, cfg.backingSize - x ≤ fuel ∧ t.store = s.store ∧
      playbackLoop env cfg cfg.backingSize cfg.logStart s = playbackLoop env cfg fuel x t ∧
      playbackCopies env cfg cfg.backingSize cfg.logStart s =
        pre ++ playbackCopies env cfg fuel x t := by
  induction hx with
  | refl => exact ⟨cfg.backingSize, s, [], Nat.sub_le _ _, rfl, rfl, rfl⟩
  | @tail x y _ hfollows ih =>
    obtain ⟨fuel, t, pre, hfuel, hstore, hloop, hcopies⟩ := ih
    obtain ⟨hlt, n, a, data, hslot, rfl⟩ := hfollows
    obtain ⟨fuel, rfl⟩ : ∃ k, fuel = k + 1 := ⟨fuel - 1, by omega⟩
    have hpass := playbackEntry_outcome cfg h x t
    rw [hstore, hslot] at hpass
    obtain ⟨data', -, -, hpass⟩ := hpass
    have hadvance := Nat.mul_pos (slotAt_entry_bounds hslot).1 cfg.wordBytes_pos
    rw [playbackLoop, if_pos hlt, hpass] at hloop
    rw [playbackCopies, if_pos hlt, hpass] at hcopies
    simp only [Bool.false_eq_true, if_false] at hloop hcopies
    refine ⟨fuel, { t.recordReads cfg x n with cache := t.cache.write a data' },
      pre ++ [slotCopy cfg t.store x], by omega, hstore, hloop, ?_⟩
    rw [hcopies, List.append_assoc, List.singleton_append]

end Loop

section Consolidation

@[simp] theorem unlock_cache (env : Env) (s : State) :
    (wearLevelingUnlock env s).2.cache = s.cache := by
  unfold wearLevelingUnlock
  simp only
  split_ifs <;> rfl

@[simp] theorem lock_cache (env : Env) (s : State) :
    (wearLevelingLock env s).2.cache = s.cache := by
  unfold wearLevelingLock
  simp only
  split_ifs <;> rfl

@[simp] theorem writeBulk_cache (env : Env) (cfg : Config) (x : ℕ) (ws : List (List UInt8))
    (s : State) : (backingStoreWriteBulk env cfg x ws s).2.cache = s.cache := by
  induction ws generalizing x s with
  | nil => rfl
  | cons w ws ih =>
    have hw : (backingStoreWrite env x w s).2.cache = s.cache := by
      unfold backingStoreWrite
      simp only
      split_ifs <;> rfl
    rw [backingStoreWriteBulk]
    split_ifs
    · rw [ih, hw]
    · exact hw

theorem consolidateForce_cache (env : Env) (cfg : Config) (s : State) :
    (wearLevelingConsolidateForce env cfg s).2.cache = s.cache := by
  have herase : (backingStoreErase env cfg s).2.cache = s.cache := by
    unfold backingStoreErase
    simp only
    split_ifs <;> rfl
  unfold wearLevelingConsolidateForce wearLevelingWriteConsolidated
  simp only
  split_ifs <;> simp [herase]

/-- A consolidation that can erase the store leaves the write address behind the hash. -/
theorem consolidateForce_writeAddress (s : State) :
    (wearLevelingConsolidateForce env cfg s).2.writeAddress =
      if env.fails s.calls.length .erase then s.writeAddress else cfg.logStart := by
  unfold wearLevelingConsolidateForce backingStoreErase
  simp only
  split_ifs <;> simp_all [State.record]

/-- The state in which playback decides whether to consolidate. -/
def afterLoop (env : Env) (cfg : Config) (s : State) : State :=
  { (playbackLoop env cfg cfg.backingSize cfg.logStart s).2 with
    writeAddress := (playbackLoop env cfg cfg.backingSize cfg.logStart s).1.address }

theorem playbackLog_cases (env : Env) (cfg : Config) (s : State) :
    wearLevelingPlaybackLog env cfg s = wearLevelingConsolidateForce env cfg (afterLoop env cfg s) ∨
      wearLevelingPlaybackLog env cfg s = (.success, afterLoop env cfg s) ∧
        (afterLoop env cfg s).writeAddress < cfg.backingSize := by
  unfold wearLevelingPlaybackLog wearLevelingConsolidateIfNeeded
  simp only
  split_ifs with hfailed hfull
  · exact .inl rfl
  · exact .inl rfl
  · exact .inr ⟨rfl, Nat.lt_of_not_le hfull⟩

end Consolidation

section Main

variable {m : Mem UInt8}

variable (env) in
/-- Everything but the write address stays in bounds, whichever calls of the store fail. -/
theorem playback_replays (hm : ShortEntries cfg m) {s : State} (hs : s.store = m) :
    (∀ c ∈ playbackCopies env cfg cfg.backingSize cfg.logStart s, c.InBounds cfg) ∧
      (∀ i, cfg.logicalSize ≤ i → (wearLevelingPlaybackLog env cfg s).2.cache i = s.cache i) ∧
      ((playbackLoop env cfg cfg.backingSize cfg.logStart s).1.cancel = true ∨
        cfg.backingSize ≤ (playbackLoop env cfg cfg.backingSize cfg.logStart s).1.address) := by
  refine ⟨playbackCopies_inBounds hm _ .refl hs, fun i hi => ?_,
    playbackLoop_ends env cfg _ (Nat.sub_le _ _) s⟩
  have hloop := playbackLoop_cache env cfg cfg.backingSize cfg.logStart s hi
  rcases playbackLog_cases env cfg s with h | ⟨h, -⟩
  · rw [h, consolidateForce_cache]
    exact hloop
  · rw [h]
    exact hloop

theorem playbackLog_writeAddress (s : State) (hlog : cfg.logStart ≤ cfg.backingSize)
    (h : env.ErasesSucceed ∨
      (playbackLoop env cfg cfg.backingSize cfg.logStart s).1.address ≤ cfg.backingSize) :
    (wearLevelingPlaybackLog env cfg s).2.writeAddress ≤ cfg.backingSize := by
  rcases playbackLog_cases env cfg s with hlog' | ⟨hlog', hlt⟩
  · rw [hlog', consolidateForce_writeAddress]
    split_ifs with hfails
    · rcases h with h | h
      · exact absurd hfails (by simp [h _])
      · exact h
    · exact hlog
  · rw [hlog']
    exact hlt.le

/-- A store whose erases fail and whose other calls succeed. -/
def Env.neverErases : Env := { Env.working with fails := fun _ c => c == .erase }

theorem neverErases_readsSucceed : Env.neverErases.ReadsSucceed := fun _ _ => rfl

theorem working_readsSucceed : Env.working.ReadsSucceed := fun _ _ => rfl

theorem working_erasesSucceed : Env.working.ErasesSucceed := fun _ => rfl

/-- An entry that is too long is copied with bytes from behind the entry. -/
theorem StaysBounded.shortEntries (h : env.ReadsSucceed) {s : State}
    (hs : StaysBounded env cfg s) : ShortEntries cfg s.store := by
  intro x hx hlt n a data hslot
  obtain ⟨fuel, t, pre, hfuel, hstore, -, hcopies⟩ := playbackLoop_visits h hx
  obtain ⟨fuel, rfl⟩ : ∃ k, fuel = k + 1 := ⟨fuel - 1, by omega⟩
  have hpass := playbackEntry_outcome cfg h x t
  rw [hstore, hslot] at hpass
  obtain ⟨data', -, -, hpass⟩ := hpass
  have hmem : slotCopy cfg s.store x ∈
      playbackCopies env cfg cfg.backingSize cfg.logStart s := by
    rw [hcopies, playbackCopies, if_pos hlt, hpass, hstore]
    simp
  exact (slotCopy_of_entry hslot).2.2.mp (hs.copies _ hmem).2

/-- Playback leaves the write address as it is when it cannot erase the store, so the cursor has
not run over the end. -/
theorem StaysBounded.replayInBounds {s : State} (hs : StaysBounded .neverErases cfg s) :
    ReplayInBounds cfg s.store := by
  intro x hx hlt
  have haligned : cfg.wordBytes ∣ x := by
    induction hx with
    | refl => exact cfg.wordBytes_dvd_logStart
    | tail _ hfollows ih =>
      obtain ⟨hbefore, n, _, _, _, rfl⟩ := hfollows
      exact (Nat.dvd_add_right (ih hbefore)).mpr (Nat.dvd_mul_left _ _)
  obtain ⟨fuel, t, -, hfuel, hstore, hloop, -⟩ := playbackLoop_visits neverErases_readsSucceed hx
  obtain ⟨fuel, rfl⟩ : ∃ k, fuel = k + 1 := ⟨fuel - 1, by omega⟩
  have hkeeps : (wearLevelingPlaybackLog .neverErases cfg s).2.writeAddress =
      (playbackLoop .neverErases cfg cfg.backingSize cfg.logStart s).1.address := by
    rcases playbackLog_cases .neverErases cfg s with h | ⟨h, -⟩
    · have hfails : ∀ n, Env.neverErases.fails n .erase = true := fun _ => rfl
      rw [h, consolidateForce_writeAddress, if_pos (hfails _)]
      rfl
    · rw [h]
      rfl
  have hle := hs.writeAddress
  rw [hkeeps, hloop, playbackLoop, if_pos hlt] at hle
  have hpass := playbackEntry_outcome cfg neverErases_readsSucceed x t
  rw [hstore] at hpass
  cases hslot : slotAt cfg s.store x with
  | empty => simpa [Slot.words] using add_word_le haligned hlt
  | corrupt n =>
    rw [hslot] at hpass
    rw [hpass] at hle
    simpa [Slot.words] using hle
  | entry n a data =>
    rw [hslot] at hpass
    obtain ⟨data', -, -, hpass⟩ := hpass
    rw [hpass] at hle
    simp only [Bool.false_eq_true, if_false, Slot.words] at hle ⊢
    by_contra hover
    cases fuel with
    | zero => exact hover (by simpa [playbackLoop] using hle)
    | succ fuel =>
      rw [playbackLoop, if_neg (by omega)] at hle
      exact hover hle

theorem StaysBounded.logStart_le {s : State} (hs : StaysBounded env cfg s) :
    cfg.logStart ≤ cfg.backingSize := by
  by_contra hover
  have haddress := hs.writeAddress
  have hloop : playbackLoop env cfg cfg.backingSize cfg.logStart s =
      (⟨false, .success, cfg.logStart⟩, s) := by
    cases hsize : cfg.backingSize with
    | zero => rfl
    | succ n => rw [playbackLoop, if_neg (by omega)]
  rcases playbackLog_cases env cfg s with h | ⟨-, hlt⟩
  · rw [h, consolidateForce_writeAddress, afterLoop, hloop] at haddress
    simp only [ite_self] at haddress
    exact hover haddress
  · rw [afterLoop, hloop] at hlt
    simp only at hlt
    omega

/-- Playback stays in bounds exactly on the stores in which no entry that it arrives at is longer
than five bytes; where an erase can fail, no header may reach over the end of the store either. -/
theorem playback_bounded_iff (cfg : Config) (m : Mem UInt8) :
    ((∀ env s, env.ErasesSucceed → s.store = m → StaysBounded env cfg s) ↔
      cfg.logStart ≤ cfg.backingSize ∧ ShortEntries cfg m) ∧
    ((∀ env s, s.store = m → StaysBounded env cfg s) ↔
      cfg.logStart ≤ cfg.backingSize ∧ ShortEntries cfg m ∧ ReplayInBounds cfg m) := by
  have hblank : ({ State.blank with store := m } : State).store = m := rfl
  constructor
  · constructor
    · intro h
      have hs := h .working _ working_erasesSucceed hblank
      exact ⟨hs.logStart_le, hs.shortEntries working_readsSucceed⟩
    · rintro ⟨hlog, hm⟩ env s herase hs
      obtain ⟨hcopies, hcache, hends⟩ := playback_replays env hm hs
      exact ⟨hcopies, hcache, hends, playbackLog_writeAddress s hlog (.inl herase)⟩
  · constructor
    · intro h
      have hs := h .neverErases _ hblank
      exact ⟨hs.logStart_le, hs.shortEntries neverErases_readsSucceed, hs.replayInBounds⟩
    · rintro ⟨hlog, hm, hend⟩ env s hs
      obtain ⟨hcopies, hcache, hends⟩ := playback_replays env hm hs
      refine ⟨hcopies, hcache, hends, playbackLog_writeAddress s hlog (.inr ?_)⟩
      exact playbackLoop_address_le hend _ .refl hlog hs

/-- Sixteen logical bytes over 8-byte words. -/
def Config.eightByte : Config where
  writeSize := .eight
  backingSize := 64
  logicalSize := 16
  backing_ge := by decide
  logical_mod := by decide
  backing_mod := by decide

/-- A header of length 7 for address 0 at the start of the log copies two bytes from behind the
entry into the cache. -/
theorem playback_copies_stack :
    let s := { State.blank with store := State.blank.store.write 24 [0b00111000] }
    playbackCopies .working .eightByte 64 24 s = [⟨0, 7, 3, 7⟩] ∧
      ¬ StaysBounded .working .eightByte s := by
  have hcopies : playbackCopies .working .eightByte 64 24
      { State.blank with store := State.blank.store.write 24 [0b00111000] } = [⟨0, 7, 3, 7⟩] := by
    decide +kernel
  refine ⟨hcopies, fun h => ?_⟩
  have hbounds := (h.copies ⟨0, 7, 3, 7⟩ (by rw [show Config.eightByte.logStart = 24 from rfl,
    show Config.eightByte.backingSize = 64 from rfl, hcopies]; simp)).2
  exact absurd hbounds (by decide)

end Main

end Qmk.WearLeveling
