import Qmk.WearLeveling.Driver

/-! # Replaying the write log

What the playback loop finds at a log address is a function of the stored bytes:
an empty slot, a corrupt one, or an entry. The relation `Replays` follows the
entries from one log address to another and carries the cache along; the
playback loop computes it.
-/

namespace Qmk.WearLeveling

/-- What playback finds at a log address, with the number of words it reads there. -/
inductive Slot
  | empty
  | corrupt (words : ℕ)
  | entry (words address : ℕ) (data : List UInt8)
  deriving DecidableEq, Repr

def Slot.words : Slot → ℕ
  | empty => 1
  | corrupt n => n
  | entry n _ _ => n

/-- The number of words of a multi-byte entry with `l` bytes of payload. -/
def multibyteWords : WriteSize → ℕ → ℕ
  | .two, l => 2 + (if 1 < l then 1 else 0) + (if 3 < l then 1 else 0)
  | .four, l => 1 + (if 1 < l then 1 else 0)
  | .eight, _ => 1

/-- The slot at address `x` of a store. -/
def slotAt (cfg : Config) (m : Mem UInt8) (x : ℕ) : Slot :=
  let log : Raw8 := fun i => m (x + i)
  if m.read x cfg.wordBytes = List.replicate cfg.wordBytes 0 then .empty
  else if logEntryGetType log = LogEntryType.multibyte.code then
    let a := logEntryMultibyteGetAddress log
    let l := logEntryMultibyteGetLength log
    if cfg.logicalSize < a + l then .corrupt (if cfg.writeSize = .two then 2 else 1)
    else .entry (multibyteWords cfg.writeSize l) a (m.read (x + 3) l)
  else if cfg.writeSize = .two ∧ logEntryGetType log = LogEntryType.optimized64.code then
    let a := logEntryOptimized64GetAddress log
    if cfg.logicalSize ≤ a then .corrupt 1 else .entry 1 a [logEntryOptimized64GetValue log]
  else if cfg.writeSize = .two ∧ logEntryGetType log = LogEntryType.word01.code then
    let a := logEntryWord01GetAddress log
    if cfg.logicalSize ≤ a + 1 then .corrupt 1
    else .entry 1 a [UInt8.ofNat (logEntryWord01GetValue log), 0]
  else .corrupt 1

/-- The calls that read `n` words from address `x`. -/
def readCalls (cfg : Config) (x n : ℕ) : List StoreCall :=
  (List.range n).map fun i => .read (x + i * cfg.wordBytes)

def State.recordReads (cfg : Config) (s : State) (x n : ℕ) : State :=
  { s with calls := s.calls ++ readCalls cfg x n }

/-- Store reads that always succeed. -/
def Env.ReadsSucceed (env : Env) : Prop := ∀ n a, env.fails n (.read a) = false

section ReadSpec

variable {env : Env} (cfg : Config)

theorem readCalls_succ (x n : ℕ) :
    readCalls cfg x (n + 1) = .read x :: readCalls cfg (x + cfg.wordBytes) n := by
  simp only [readCalls, List.range_succ_eq_map, List.map_cons, List.map_map, Nat.zero_mul,
    Nat.add_zero, List.cons.injEq, true_and]
  refine List.map_congr_left fun i _ => ?_
  simp only [Function.comp_apply, StoreCall.read.injEq, Nat.succ_eq_add_one]
  ring

@[simp] theorem readCalls_zero (x : ℕ) : readCalls cfg x 0 = [] := rfl

@[simp] theorem recordReads_zero (s : State) (x : ℕ) : s.recordReads cfg x 0 = s := by
  simp [State.recordReads]

theorem recordReads_recordReads (s : State) (x n k : ℕ) :
    (s.recordReads cfg x n).recordReads cfg (x + n * cfg.wordBytes) k =
      s.recordReads cfg x (n + k) := by
  simp only [State.recordReads, readCalls, List.append_assoc, List.range_add, List.map_append,
    List.map_map, State.mk.injEq, true_and]
  congr 2
  refine List.map_congr_left fun i _ => ?_
  simp only [Function.comp_apply, StoreCall.read.injEq]
  ring

@[simp] theorem recordReads_store (s : State) (x n : ℕ) :
    (s.recordReads cfg x n).store = s.store := rfl

@[simp] theorem recordReads_cache (s : State) (x n : ℕ) :
    (s.recordReads cfg x n).cache = s.cache := rfl

theorem backingStoreRead_eq (h : env.ReadsSucceed) (x : ℕ) (s : State) :
    backingStoreRead env cfg x s =
      (some (s.store.read x cfg.wordBytes), s.recordReads cfg x 1) := by
  simp [backingStoreRead, h _ x, State.recordReads, State.record, readCalls_succ]

theorem backingStoreReadBulk_eq (h : env.ReadsSucceed) (x n : ℕ) (s : State) :
    backingStoreReadBulk env cfg x n s =
      (true, s.store.read x (n * cfg.wordBytes), s.recordReads cfg x n) := by
  induction n generalizing x s with
  | zero => simp [backingStoreReadBulk]
  | succ n ih =>
    rw [backingStoreReadBulk, backingStoreRead_eq cfg h]
    simp only [ih, recordReads_store]
    have hw : (n + 1) * cfg.wordBytes = cfg.wordBytes + n * cfg.wordBytes := by ring
    have hr := recordReads_recordReads cfg s x 1 n
    rw [Nat.one_mul, Nat.add_comm 1 n] at hr
    rw [← Mem.read_append, hw, hr]

theorem rawEntry_read (s : State) {m : Mem UInt8} {x n i : ℕ} (h : i < n) :
    rawEntry env s (m.read x n) i = m (x + i) :=
  Mem.getD_read m _ h

theorem readMore_eq (h : env.ReadsSucceed) (wanted : Bool) (x n : ℕ) (s : State) :
    readMore env cfg wanted (s.store.read x (n * cfg.wordBytes)) (x + n * cfg.wordBytes)
        (s.recordReads cfg x n) =
      (true, s.store.read x ((n + wanted.toNat) * cfg.wordBytes),
        x + (n + wanted.toNat) * cfg.wordBytes, s.recordReads cfg x (n + wanted.toNat)) := by
  cases wanted with
  | false => simp [readMore]
  | true =>
    rw [readMore, if_pos rfl, backingStoreRead_eq cfg h]
    simp only [recordReads_store, recordReads_recordReads, Bool.toNat_true, Nat.add_mul,
      Nat.one_mul, Mem.read_append, Nat.add_assoc]

theorem multibyteGetAddress_rawEntry (s : State) {m : Mem UInt8} {x n : ℕ} (h : 3 ≤ n) :
    logEntryMultibyteGetAddress (rawEntry env s (m.read x n)) =
      logEntryMultibyteGetAddress fun i => m (x + i) := by
  simp only [logEntryMultibyteGetAddress, rawEntry_read s (show 0 < n by omega),
    rawEntry_read s (show 1 < n by omega), rawEntry_read s (show 2 < n by omega)]

theorem multibyteGetLength_rawEntry (s : State) {m : Mem UInt8} {x n : ℕ} (h : 3 ≤ n) :
    logEntryMultibyteGetLength (rawEntry env s (m.read x n)) =
      logEntryMultibyteGetLength fun i => m (x + i) := by
  simp only [logEntryMultibyteGetLength, rawEntry_read s (show 0 < n by omega)]

theorem payload_lt_multibyteWords {l i : ℕ} (hl : l ≤ 5) (hi : i < l) :
    3 + i < multibyteWords cfg.writeSize l * cfg.wordBytes := by
  unfold Config.wordBytes
  cases cfg.writeSize <;> simp only [multibyteWords, WriteSize.bytes] <;> (try split_ifs) <;> omega

theorem payload_rawEntry (s : State) {m : Mem UInt8} {x l : ℕ} (hl : l ≤ 5) :
    Mem.read (rawEntry env s (m.read x (multibyteWords cfg.writeSize l * cfg.wordBytes))) 3 l =
      m.read (x + 3) l := by
  refine Mem.read_eq_iff.mpr fun i hi => ?_
  rw [rawEntry_read s (payload_lt_multibyteWords cfg hl hi), Nat.add_assoc]

theorem headerWords_eq (w : WriteSize) :
    1 + (decide (w = .two)).toNat = if w = .two then 2 else 1 := by
  cases w <;> rfl

theorem headerWords_le : 3 ≤ (if cfg.writeSize = .two then 2 else 1) * cfg.wordBytes := by
  unfold Config.wordBytes
  cases cfg.writeSize <;> simp [WriteSize.bytes]

theorem multibyteWords_eq (w : WriteSize) (l : ℕ) : (if w = .two then 2 else 1) +
    (decide (w ≠ .eight ∧ 1 < l)).toNat + (decide (w = .two ∧ 3 < l)).toNat =
      multibyteWords w l := by
  cases w <;> simp only [multibyteWords, reduceCtorEq, ne_eq, not_true_eq_false,
    not_false_eq_true, false_and, true_and, if_true, if_false] <;> (try split_ifs) <;> simp [*]

/-- The multi-byte case after the first word of the entry at `x` has been read. A length above
five, which no entry of the log has, copies bytes that were never read. -/
theorem playbackMultibyte_eq (h : env.ReadsSucceed) (x : ℕ) (s : State) :
    let log : Raw8 := fun i => s.store (x + i)
    let a := logEntryMultibyteGetAddress log
    let l := logEntryMultibyteGetLength log
    let n := if cfg.writeSize = .two then 2 else 1
    let k := multibyteWords cfg.writeSize l
    ∃ data : List UInt8, data.length = l ∧ (l ≤ 5 → data = s.store.read (x + 3) l) ∧
      playbackMultibyte env cfg (s.store.read x cfg.wordBytes) (x + cfg.wordBytes)
          (s.recordReads cfg x 1) =
        if cfg.logicalSize < a + l then
          (⟨true, .failed, x + n * cfg.wordBytes⟩, s.recordReads cfg x n)
        else (⟨false, .success, x + k * cfg.wordBytes⟩,
          { s.recordReads cfg x k with cache := s.cache.write a data }) := by
  intro log a l n k
  have hn : 1 + (decide (cfg.writeSize = .two)).toNat = n := headerWords_eq cfg.writeSize
  have h3 : 3 ≤ n * cfg.wordBytes := headerWords_le cfg
  have hk : n + (decide (cfg.writeSize ≠ .eight ∧ 1 < l)).toNat +
      (decide (cfg.writeSize = .two ∧ 3 < l)).toNat = k := multibyteWords_eq cfg.writeSize l
  have h1 := readMore_eq cfg h (decide (cfg.writeSize = .two)) x 1 s
  have h2 := readMore_eq cfg h (decide (cfg.writeSize ≠ .eight ∧ 1 < l)) x n s
  have h3' := readMore_eq cfg h (decide (cfg.writeSize = .two ∧ 3 < l)) x
    (n + (decide (cfg.writeSize ≠ .eight ∧ 1 < l)).toNat) s
  rw [hn, Nat.one_mul] at h1
  rw [hk] at h3'
  refine ⟨Mem.read (rawEntry env (s.recordReads cfg x k) (s.store.read x (k * cfg.wordBytes))) 3 l,
    by simp, fun hl => payload_rawEntry cfg _ hl, ?_⟩
  simp only [playbackMultibyte, h1, multibyteGetAddress_rawEntry _ h3,
    multibyteGetLength_rawEntry _ h3]
  by_cases hf : cfg.logicalSize < a + l
  · rw [if_pos hf, if_pos hf]
  · rw [if_neg hf, if_neg hf]
    simp only [l, log] at h2 h3'
    simp only [h2, h3', recordReads_cache]
    rfl

/-- The result of a pass of the playback loop over a slot. -/
def Slot.Outcome (x : ℕ) (s : State) (r : Playback × State) : Slot → Prop
  | .empty => r = (⟨true, .success, x⟩, s.recordReads cfg x 1)
  | .corrupt n => r = (⟨true, .failed, x + n * cfg.wordBytes⟩, s.recordReads cfg x n)
  | .entry n a data => ∃ data' : List UInt8, data'.length = data.length ∧
      (data.length ≤ 5 → data' = data) ∧
      r = (⟨false, .success, x + n * cfg.wordBytes⟩,
        { s.recordReads cfg x n with cache := s.cache.write a data' })

theorem playbackEntry_outcome (h : env.ReadsSucceed) (x : ℕ) (s : State) :
    (slotAt cfg s.store x).Outcome cfg x s (playbackEntry env cfg x s) := by
  have hw := cfg.wordBytes_cases
  have h0 : ∀ t : State, rawEntry env t (s.store.read x cfg.wordBytes) 0 = s.store (x + 0) :=
    fun t => rawEntry_read t (by omega)
  have h1 : ∀ t : State, rawEntry env t (s.store.read x cfg.wordBytes) 1 = s.store (x + 1) :=
    fun t => rawEntry_read t (by omega)
  obtain ⟨data, hlen, hdata, hm⟩ := playbackMultibyte_eq cfg h x s
  unfold playbackEntry slotAt
  simp only [backingStoreRead_eq cfg h, logEntryGetType, logEntryOptimized64GetAddress,
    logEntryOptimized64GetValue, logEntryWord01GetAddress, logEntryWord01GetValue, h0, h1,
    recordReads_cache, hm]
  by_cases he : s.store.read x cfg.wordBytes = List.replicate cfg.wordBytes 0
  · simp only [he, if_true, Slot.Outcome]
  by_cases ht : (s.store (x + 0)).toNat >>> 6 &&& bitmaskForBitcount 2 =
      LogEntryType.multibyte.code
  · simp only [he, ht, if_true, if_false]
    split_ifs
    · rfl
    · rfl
    · exact ⟨data, by simpa using hlen, fun hl => hdata (by simpa using hl), rfl⟩
  by_cases ho : cfg.writeSize = .two ∧
      (s.store (x + 0)).toNat >>> 6 &&& bitmaskForBitcount 2 = LogEntryType.optimized64.code
  · obtain ⟨hsize, htype⟩ := ho
    simp only [he, hsize, htype, LogEntryType.code, one_ne_zero, if_false, if_true, and_self]
    by_cases ha : cfg.logicalSize ≤ (s.store (x + 0)).toNat &&& bitmaskForBitcount 6
    · simp only [ha, if_true, Slot.Outcome, Nat.one_mul]
    · simp only [ha, if_false, Slot.Outcome, Nat.one_mul]
      exact ⟨_, rfl, fun _ => rfl, rfl⟩
  by_cases hv : cfg.writeSize = .two ∧
      (s.store (x + 0)).toNat >>> 6 &&& bitmaskForBitcount 2 = LogEntryType.word01.code
  · obtain ⟨hsize, htype⟩ := hv
    simp only [he, hsize, htype, LogEntryType.code, OfNat.ofNat_ne_zero, OfNat.ofNat_ne_one,
      if_false, if_true, and_self, and_false]
    by_cases ha : cfg.logicalSize ≤ (((s.store (x + 0)).toNat &&& bitmaskForBitcount 5) <<< 9 |||
        (s.store (x + 1)).toNat <<< 1) + 1
    · simp only [ha, if_true, Slot.Outcome, Nat.one_mul]
    · simp only [ha, if_false, Slot.Outcome, Nat.one_mul]
      exact ⟨_, rfl, fun _ => rfl, rfl⟩
  · simp only [he, ht, ho, hv, if_false, Slot.Outcome, Nat.one_mul]

end ReadSpec

section Log

variable (cfg : Config)

/-- Playback goes on from the log address `x` to the next entry at `y`. -/
def Follows (m : Mem UInt8) (x y : ℕ) : Prop :=
  x < cfg.backingSize ∧ ∃ n a data, slotAt cfg m x = .entry n a data ∧ y = x + n * cfg.wordBytes

/-- Playback applies one entry that the driver can have written. -/
def LogStep (m : Mem UInt8) (p q : ℕ × Mem UInt8) : Prop :=
  p.1 < cfg.backingSize ∧ ∃ n a data, slotAt cfg m p.1 = .entry n a data ∧ data.length ≤ 5 ∧
    q = (p.1 + n * cfg.wordBytes, p.2.write a data)

/-- Playback goes from one log address and cache to another. -/
abbrev Replays (m : Mem UInt8) : ℕ × Mem UInt8 → ℕ × Mem UInt8 → Prop :=
  Relation.ReflTransGen (LogStep cfg m)

abbrev Visits (m : Mem UInt8) (x : ℕ) : Prop := Relation.ReflTransGen (Follows cfg m) cfg.logStart x

variable {cfg} {m m' : Mem UInt8}

theorem multibyteWords_pos (w : WriteSize) (l : ℕ) : 0 < multibyteWords w l := by
  cases w <;> simp only [multibyteWords] <;> omega

theorem header_le_multibyteWords (cfg : Config) (l : ℕ) :
    3 ≤ multibyteWords cfg.writeSize l * cfg.wordBytes := by
  unfold Config.wordBytes
  cases cfg.writeSize <;> simp only [multibyteWords, WriteSize.bytes] <;> omega

/-- An entry takes at least one word, and its data lies in the logical range. -/
theorem slotAt_entry_bounds {x n a : ℕ} {data : List UInt8}
    (h : slotAt cfg m x = .entry n a data) : 0 < n ∧ a + data.length ≤ cfg.logicalSize := by
  have hpos := multibyteWords_pos cfg.writeSize
  unfold slotAt at h
  simp only at h
  split_ifs at h <;> simp only [Slot.entry.injEq] at h <;> obtain ⟨rfl, rfl, rfl⟩ := h <;>
    simp <;> first | exact ⟨hpos _, by omega⟩ | omega

theorem slotAt_entry_congr {x n a : ℕ} {data : List UInt8}
    (h : slotAt cfg m x = .entry n a data) (hd : data.length ≤ 5)
    (hm : ∀ y, x ≤ y → y < x + n * cfg.wordBytes → m y = m' y) :
    slotAt cfg m' x = .entry n a data := by
  have hn := (slotAt_entry_bounds h).1
  have hw := cfg.wordBytes_cases
  have hle : cfg.wordBytes ≤ n * cfg.wordBytes := Nat.le_mul_of_pos_left _ hn
  have h0 : m' (x + 0) = m (x + 0) := (hm _ (by omega) (by omega)).symm
  have h1 : m' (x + 1) = m (x + 1) := (hm _ (by omega) (by omega)).symm
  have hfirst : m'.read x cfg.wordBytes = m.read x cfg.wordBytes :=
    Mem.read_eq_iff.mpr fun i hi => (hm _ (by omega) (by omega)).symm
  unfold slotAt at h ⊢
  simp only [logEntryGetType, logEntryOptimized64GetAddress, logEntryOptimized64GetValue,
    logEntryWord01GetAddress, logEntryWord01GetValue, logEntryMultibyteGetAddress,
    logEntryMultibyteGetLength, h0, h1, hfirst] at h ⊢
  by_cases he : m.read x cfg.wordBytes = List.replicate cfg.wordBytes 0
  · simp [he] at h
  by_cases ht : (m (x + 0)).toNat >>> 6 &&& bitmaskForBitcount 2 = LogEntryType.multibyte.code
  · simp only [he, ht, if_true, if_false] at h ⊢
    by_cases hf : cfg.logicalSize < (((m (x + 0)).toNat &&& bitmaskForBitcount 3) <<< 16 |||
        (m (x + 1)).toNat <<< 8 ||| (m (x + 2)).toNat) +
          ((m (x + 0)).toNat >>> 3 &&& bitmaskForBitcount 3)
    · simp only [hf, if_true, reduceCtorEq] at h
    simp only [hf, if_false] at h
    obtain ⟨rfl, rfl, rfl⟩ := Slot.entry.inj h
    rw [Mem.length_read] at hd
    have h3 := header_le_multibyteWords cfg
      ((m (x + 0)).toNat >>> 3 &&& bitmaskForBitcount 3)
    have h2 : m' (x + 2) = m (x + 2) := (hm _ (by omega) (by omega)).symm
    have hp : m'.read (x + 3) ((m (x + 0)).toNat >>> 3 &&& bitmaskForBitcount 3) =
        m.read (x + 3) ((m (x + 0)).toNat >>> 3 &&& bitmaskForBitcount 3) :=
      Mem.read_eq_iff.mpr fun i hi =>
        (hm _ (by omega) (by have := payload_lt_multibyteWords cfg hd hi; omega)).symm
    simp only [h2, hp, hf, if_false]
  · simp only [he, ht, if_false] at h ⊢
    exact h

theorem LogStep.lt {p q : ℕ × Mem UInt8} (h : LogStep cfg m p q) : p.1 < q.1 := by
  obtain ⟨_, n, a, data, hs, _, rfl⟩ := h
  have := Nat.mul_pos (slotAt_entry_bounds hs).1 cfg.wordBytes_pos
  simp only
  omega

theorem Replays.le {p q : ℕ × Mem UInt8} (h : Replays cfg m p q) : p.1 ≤ q.1 := by
  induction h with
  | refl => exact le_rfl
  | tail _ hs ih => exact ih.trans hs.lt.le

theorem Replays.congr {p q : ℕ × Mem UInt8} (h : Replays cfg m p q)
    (hm : ∀ y, p.1 ≤ y → y < q.1 → m y = m' y) : Replays cfg m' p q := by
  induction h with
  | refl => exact .refl
  | tail hr hs ih =>
    have hlt := hs.lt
    refine (ih fun y hy hy' => hm y hy (hy'.trans hlt)).tail ?_
    obtain ⟨hb, n, a, data, hslot, hd, rfl⟩ := hs
    exact ⟨hb, n, a, data,
      slotAt_entry_congr hslot hd fun y hy hy' => hm y ((Replays.le hr).trans hy) hy', hd, rfl⟩

theorem Replays.cache_of_ge {p q : ℕ × Mem UInt8} (h : Replays cfg m p q) {i : ℕ}
    (hi : cfg.logicalSize ≤ i) : q.2 i = p.2 i := by
  induction h with
  | refl => rfl
  | tail _ hs ih =>
    obtain ⟨_, n, a, data, hslot, _, rfl⟩ := hs
    have := (slotAt_entry_bounds hslot).2
    exact (Mem.write_of_ge _ _ (by omega)).trans ih

/-- Replaying from a cache with the same logical bytes ends with the same logical bytes. -/
theorem Replays.transfer {p q : ℕ × Mem UInt8} (h : Replays cfg m p q) {c : Mem UInt8}
    (hc : ∀ i < cfg.logicalSize, c i = p.2 i) :
    ∃ d, Replays cfg m (p.1, c) (q.1, d) ∧ ∀ i < cfg.logicalSize, d i = q.2 i := by
  induction h with
  | refl => exact ⟨c, .refl, hc⟩
  | tail _ hs ih =>
    obtain ⟨d, hr, hd⟩ := ih
    obtain ⟨hb, n, a, data, hslot, h5, rfl⟩ := hs
    exact ⟨d.write a data, hr.tail ⟨hb, n, a, data, hslot, h5, rfl⟩,
      fun i hi => Mem.write_congr a data (hd i hi)⟩

theorem Replays.aligned {p q : ℕ × Mem UInt8} (h : Replays cfg m p q)
    (hp : cfg.wordBytes ∣ p.1) : cfg.wordBytes ∣ q.1 := by
  induction h with
  | refl => exact hp
  | tail _ hs ih =>
    obtain ⟨_, n, a, data, _, _, rfl⟩ := hs
    exact (Nat.dvd_add_right ih).mpr (Nat.dvd_mul_left _ _)

theorem slotAt_empty {x : ℕ} (h : ∀ y, x ≤ y → y < x + cfg.wordBytes → m y = 0) :
    slotAt cfg m x = .empty := by
  have he : m.read x cfg.wordBytes = List.replicate cfg.wordBytes 0 := by
    refine List.ext_getElem (by simp) fun i hi _ => ?_
    rw [Mem.getElem_read, List.getElem_replicate]
    exact h _ (by omega) (by simpa using hi)
  simp [slotAt, he]

end Log

end Qmk.WearLeveling
