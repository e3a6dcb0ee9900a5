import Qmk.WearLeveling.Records
import Qmk.WearLeveling.Playback

/-! # Appending to the log and consolidating

The write loop appends the words of its records one after the other and stops
at the first word that does not return success. Whenever the status is not a
failure, the state afterwards is known exactly: either all words are in the log,
or the log filled up and the store holds the consolidated cache.
-/

namespace Qmk.WearLeveling

section AppendWords

variable (env : Env) (cfg : Config)

def appendWords : List (List UInt8) → State → Status × State
  | [], s => (.success, s)
  | w :: ws, s => andThen (wearLevelingAppendRaw env cfg w s) (appendWords ws)

/-- The calls that write the words `ws` from address `x`. -/
def writeCalls : ℕ → List (List UInt8) → List StoreCall
  | _, [] => []
  | x, w :: ws => .write x w :: writeCalls (x + cfg.wordBytes) ws

def hashWords (c : Mem UInt8) : List (List UInt8) :=
  (List.range (8 / cfg.wordBytes)).map
    (rawWord cfg (env.fnv64aBuf (c.read 0 cfg.logicalSize)).toList)

def cacheWords (c : Mem UInt8) : List (List UInt8) :=
  wordsOf cfg c (cfg.logicalSize / cfg.wordBytes)

def consolidationCalls (c : Mem UInt8) : List StoreCall :=
  .erase :: (writeCalls cfg 0 (cacheWords cfg c) ++
    writeCalls cfg cfg.logicalSize (hashWords env cfg c))

/-- The store after a consolidation of the cache `c`. -/
def consolidatedStore (c m : Mem UInt8) : Mem UInt8 :=
  ((m.write 0 (List.replicate cfg.backingSize 0)).write 0 (c.read 0 cfg.logicalSize)).write
    cfg.logicalSize (env.fnv64aBuf (c.read 0 cfg.logicalSize)).toList

end AppendWords

variable {env : Env} {cfg : Config}

@[simp] theorem andThen_success (s : State) (k : State → Status × State) :
    andThen (.success, s) k = k s := rfl

@[simp] theorem andThen_return (r : Status × State) : andThen r (fun s => (.success, s)) = r := by
  obtain ⟨st, s⟩ := r
  unfold andThen
  split_ifs with h
  · simp only at h; rw [h]
  · rfl

theorem andThen_assoc (r : Status × State) (k l : State → Status × State) :
    andThen (andThen r k) l = andThen r fun s => andThen (k s) l := by
  by_cases h : r.1 = .success
  · simp only [andThen, h, if_true]
  · simp only [andThen, h, if_false]

theorem appendWords_append (ws ws' : List (List UInt8)) (s : State) :
    appendWords env cfg (ws ++ ws') s =
      andThen (appendWords env cfg ws s) (appendWords env cfg ws') := by
  induction ws generalizing s with
  | nil => rfl
  | cons w ws ih =>
    simp only [List.cons_append, appendWords, andThen_assoc]
    congr 1
    funext s
    exact ih s

theorem appendWords_singleton (w : List UInt8) (s : State) :
    appendWords env cfg [w] s = wearLevelingAppendRaw env cfg w s := by
  simp only [appendWords, andThen_return]

theorem writeRawMultibyte_eq (a : ℕ) (v : List UInt8) (s : State) :
    wearLevelingWriteRawMultibyte env cfg a v s =
      appendWords env cfg (multibyteRecord cfg a v).words s := by
  have htwo : multibyteWords .two v.length =
      if 3 < v.length then 4 else if 1 < v.length then 3 else 2 := by
    simp only [multibyteWords]
    split_ifs <;> omega
  have hfour : multibyteWords .four v.length = if 1 < v.length then 2 else 1 := by
    simp only [multibyteWords]
    split_ifs <;> omega
  have height : multibyteWords .eight v.length = 1 := by
    simp only [multibyteWords]
  unfold wearLevelingWriteRawMultibyte multibyteRecord
  cases cfg.writeSize with
  | two =>
    simp only [htwo]
    by_cases h3 : 3 < v.length
    · have h1 : 1 < v.length := by omega
      simp [h3, h1, List.range_succ, appendWords]
    · by_cases h1 : 1 < v.length
      · simp [h3, h1, List.range_succ, appendWords]
      · simp [h3, h1, List.range_succ, appendWords]
  | four =>
    simp only [hfour]
    by_cases h1 : 1 < v.length
    · simp [h1, List.range_succ, appendWords]
    · simp [h1, List.range_succ, appendWords]
  | eight => simp [height, List.range_succ, appendWords]

theorem writeRawLoop_eq (fuel a : ℕ) (p : List UInt8) (s : State) :
    writeRawLoop env cfg fuel a p s =
      appendWords env cfg ((recordsLoop cfg fuel a p).flatMap LogRecord.words) s := by
  induction fuel generalizing a p s with
  | zero => rfl
  | succ fuel ih =>
    cases p with
    | nil => rfl
    | cons b p =>
      have hk : ∀ a p, writeRawLoop env cfg fuel a p =
          appendWords env cfg ((recordsLoop cfg fuel a p).flatMap LogRecord.words) :=
        fun a p => funext fun s => ih a p s
      simp only [writeRawLoop, recordsLoop, writeRawMultibyte_eq, hk]
      by_cases hw : cfg.writeSize = .two
      · simp only [if_pos hw]
        cases word01Value? a (b :: p) with
        | some v =>
          simp only [List.flatMap_cons, appendWords_append]
          rw [← appendWords_singleton]
          rfl
        | none =>
          by_cases h64 : a < 64
          · simp only [if_pos h64, List.flatMap_cons, appendWords_append]
            rw [← appendWords_singleton]
            rfl
          · simp only [if_neg h64, List.flatMap_cons, appendWords_append]
      · simp only [if_neg hw, List.flatMap_cons, appendWords_append]

theorem writeRaw_eq (a : ℕ) (v : List UInt8) (s : State) :
    wearLevelingWriteRaw env cfg a v s =
      appendWords env cfg ((writeRecords cfg a v).flatMap LogRecord.words) s :=
  writeRawLoop_eq _ _ _ _

section StoreSpec

theorem backingStoreWrite_of_ok {x : ℕ} {w : List UInt8} {s : State}
    (h : (backingStoreWrite env x w s).1 = true) :
    (backingStoreWrite env x w s).2 =
      { s with store := s.store.write x w, calls := s.calls ++ [.write x w] } := by
  unfold backingStoreWrite at h ⊢
  simp only at h ⊢
  split_ifs at h ⊢
  rfl

theorem backingStoreWriteBulk_of_ok {x : ℕ} {ws : List (List UInt8)}
    (hw : ∀ w ∈ ws, w.length = cfg.wordBytes) {s : State}
    (h : (backingStoreWriteBulk env cfg x ws s).1 = true) :
    (backingStoreWriteBulk env cfg x ws s).2 =
      { s with store := s.store.write x ws.flatten, calls := s.calls ++ writeCalls cfg x ws } := by
  induction ws generalizing x s with
  | nil => simp [backingStoreWriteBulk, writeCalls]
  | cons w ws ih =>
    simp only [backingStoreWriteBulk] at h ⊢
    by_cases hok : (backingStoreWrite env x w s).1 = true
    · rw [if_pos hok] at h ⊢
      rw [ih (fun v hv => hw v (List.mem_cons_of_mem _ hv)) h, backingStoreWrite_of_ok hok]
      simp [Mem.write_append, hw w List.mem_cons_self, writeCalls]
    · simp [if_neg hok] at h

theorem flatten_wordsOf (m : Mem UInt8) (n : ℕ) :
    (wordsOf cfg m n).flatten = m.read 0 (n * cfg.wordBytes) := by
  induction n with
  | zero => simp [wordsOf]
  | succ n ih =>
    have hs : wordsOf cfg m (n + 1) =
        wordsOf cfg m n ++ [m.read (n * cfg.wordBytes) cfg.wordBytes] := by
      simp [wordsOf, List.range_succ]
    rw [hs, List.flatten_append, ih, Nat.succ_mul, Mem.read_append, Nat.zero_add]
    simp

theorem flatten_cacheWords (c : Mem UInt8) :
    (cacheWords cfg c).flatten = c.read 0 cfg.logicalSize := by
  rw [cacheWords, flatten_wordsOf, Nat.div_mul_cancel cfg.wordBytes_dvd_logical]

theorem length_of_mem_cacheWords {c : Mem UInt8} : ∀ w ∈ cacheWords cfg c,
    w.length = cfg.wordBytes := by
  intro w hw
  obtain ⟨i, _, rfl⟩ := List.mem_map.mp hw
  simp

theorem flatten_hashWords (c : Mem UInt8) : (hashWords env cfg c).flatten =
    (env.fnv64aBuf (c.read 0 cfg.logicalSize)).toList := by
  rw [hashWords, flatten_rawWords, Nat.div_mul_cancel cfg.wordBytes_dvd_eight]
  exact List.take_of_length_le (by simp)

theorem length_of_mem_hashWords {c : Mem UInt8} : ∀ w ∈ hashWords env cfg c,
    w.length = cfg.wordBytes := by
  intro w hw
  obtain ⟨i, hi, rfl⟩ := List.mem_map.mp hw
  apply length_rawWord
  have h8 := Nat.mul_le_mul_right cfg.wordBytes (List.mem_range.mp hi)
  rw [Nat.div_mul_cancel cfg.wordBytes_dvd_eight] at h8
  simpa using h8

/-- The state after a consolidation. -/
def consolidated (env : Env) (cfg : Config) (s : State) : State :=
  { s with
    store := consolidatedStore env cfg s.cache s.store
    writeAddress := cfg.logStart
    calls := s.calls ++ consolidationCalls env cfg s.cache }

/-- A consolidation that does not fail, made while the store is unlocked. -/
theorem consolidateForce_of_ok {s : State} (hu : s.unlocked = true)
    (h : (wearLevelingConsolidateForce env cfg s).1 ≠ .failed) :
    wearLevelingConsolidateForce env cfg s = (.consolidated, consolidated env cfg s) := by
  unfold wearLevelingConsolidateForce backingStoreErase at h ⊢
  by_cases he : env.fails s.calls.length .erase = true
  · simp [he] at h
  simp only [he, Bool.false_eq_true, if_false, if_true, wearLevelingWriteConsolidated,
    wearLevelingUnlock, State.record, hu, reduceCtorEq, ← cacheWords.eq_def] at h ⊢
  generalize hw : backingStoreWriteBulk env cfg 0 _ _ = w at h ⊢
  by_cases hok : w.1 = true
  · have hwe := @backingStoreWriteBulk_of_ok env cfg _ _ length_of_mem_cacheWords _
      (by rw [hw]; exact hok)
    rw [hw] at hwe
    simp only [hwe, hok, if_true, ← hashWords.eq_def] at h ⊢
    generalize hh : backingStoreWriteBulk env cfg cfg.logicalSize _ _ = v at h ⊢
    by_cases hok' : v.1 = true
    · have hve := @backingStoreWriteBulk_of_ok env cfg _ _ length_of_mem_hashWords _
        (by rw [hh]; exact hok')
      rw [hh] at hve
      simp only [hve, hok', if_true, flatten_cacheWords, flatten_hashWords, consolidated, hu,
        consolidatedStore, consolidationCalls, List.append_assoc, List.cons_append, List.nil_append]
    · simp [hok'] at h
  · simp [hok] at h

/-- The state after appending the words `ws` to a log that is not full afterwards. -/
def appended (cfg : Config) (s : State) (ws : List (List UInt8)) : State :=
  { s with
    store := s.store.write s.writeAddress ws.flatten
    writeAddress := s.writeAddress + ws.length * cfg.wordBytes
    calls := s.calls ++ writeCalls cfg s.writeAddress ws }

theorem appendRaw_of_ok {w : List UInt8} {s : State} (hu : s.unlocked = true)
    (h : (wearLevelingAppendRaw env cfg w s).1 ≠ .failed) :
    wearLevelingAppendRaw env cfg w s =
      if cfg.backingSize ≤ s.writeAddress + cfg.wordBytes then
        (.consolidated, consolidated env cfg (appended cfg s [w]))
      else (.success, appended cfg s [w]) := by
  unfold wearLevelingAppendRaw at h ⊢
  simp only at h ⊢
  by_cases hok : (backingStoreWrite env s.writeAddress w s).1 = true
  · rw [if_pos hok, backingStoreWrite_of_ok hok] at h ⊢
    have ha : appended cfg s [w] = { s with
        store := s.store.write s.writeAddress w
        writeAddress := s.writeAddress + cfg.wordBytes
        calls := s.calls ++ [.write s.writeAddress w] } := by
      simp [appended, writeCalls]
    simp only [wearLevelingConsolidateIfNeeded, ha] at h ⊢
    split_ifs at h ⊢
    · exact consolidateForce_of_ok (by exact hu) h
    · rfl
  · simp [if_neg hok] at h

theorem length_flatten_words {ws : List (List UInt8)} (hw : ∀ w ∈ ws, w.length = cfg.wordBytes) :
    ws.flatten.length = ws.length * cfg.wordBytes := by
  rw [List.length_flatten, List.map_congr_left hw]
  simp

theorem appended_append {ws ws' : List (List UInt8)} (hw : ∀ w ∈ ws, w.length = cfg.wordBytes)
    (s : State) : appended cfg (appended cfg s ws) ws' = appended cfg s (ws ++ ws') := by
  have hlen := length_flatten_words hw
  have hcalls : ∀ x, writeCalls cfg x (ws ++ ws') =
      writeCalls cfg x ws ++ writeCalls cfg (x + ws.length * cfg.wordBytes) ws' := by
    clear hlen hw
    induction ws with
    | nil => simp [writeCalls]
    | cons w ws ih =>
      intro x
      simp only [List.cons_append, writeCalls, ih, List.length_cons, List.cons.injEq, true_and]
      congr 2
      ring
  simp only [appended, List.flatten_append, Mem.write_append, hlen, hcalls, List.append_assoc,
    List.length_append, Nat.add_mul, Nat.add_assoc]

theorem add_word_eq {x : ℕ} (hx : cfg.wordBytes ∣ x) (hlt : x < cfg.backingSize)
    (hge : cfg.backingSize ≤ x + cfg.wordBytes) : x + cfg.wordBytes = cfg.backingSize := by
  obtain ⟨i, rfl⟩ := hx
  obtain ⟨j, hj⟩ := cfg.wordBytes_dvd_backing
  rw [hj] at hlt hge ⊢
  rw [← Nat.mul_succ] at hge ⊢
  have hi := Nat.lt_of_mul_lt_mul_left hlt
  have hj := Nat.le_of_mul_le_mul_left hge cfg.wordBytes_pos
  rw [show j = i + 1 by omega]

/-- Words whose appending does not fail are all in the log, or fill it and are consolidated. -/
theorem appendWords_of_ok {ws : List (List UInt8)} (hw : ∀ w ∈ ws, w.length = cfg.wordBytes)
    {s : State} (hu : s.unlocked = true) (hlt : s.writeAddress < cfg.backingSize)
    (hdvd : cfg.wordBytes ∣ s.writeAddress) (h : (appendWords env cfg ws s).1 ≠ .failed) :
    (s.writeAddress + ws.length * cfg.wordBytes < cfg.backingSize ∧
      appendWords env cfg ws s = (.success, appended cfg s ws)) ∨
    ∃ ws₁ ws₂, ws = ws₁ ++ ws₂ ∧
      s.writeAddress + ws₁.length * cfg.wordBytes = cfg.backingSize ∧
      appendWords env cfg ws s = (.consolidated, consolidated env cfg (appended cfg s ws₁)) := by
  induction ws generalizing s with
  | nil => exact .inl ⟨by simpa using hlt, by simp [appendWords, appended, writeCalls]⟩
  | cons w ws ih =>
    have hw' : ∀ v ∈ [w], v.length = cfg.wordBytes := by
      simpa using hw w List.mem_cons_self
    have hok : (wearLevelingAppendRaw env cfg w s).1 ≠ .failed := by
      intro hf
      simp [appendWords, andThen, hf] at h
    rw [appendWords, appendRaw_of_ok hu hok] at h ⊢
    by_cases hfull : cfg.backingSize ≤ s.writeAddress + cfg.wordBytes
    · refine .inr ⟨[w], ws, rfl, ?_, ?_⟩
      · simpa using add_word_eq hdvd hlt hfull
      · simp [hfull, andThen]
    · rw [if_neg hfull, andThen_success] at h ⊢
      have hd : cfg.wordBytes ∣ (appended cfg s [w]).writeAddress := by
        simpa [appended] using hdvd
      rcases ih (fun v hv => hw v (List.mem_cons_of_mem _ hv)) (by exact hu)
        (by simp [appended]; omega) hd h with ⟨hlt', he⟩ | ⟨ws₁, ws₂, rfl, hB, he⟩
      · refine .inl ⟨?_, by rw [he, appended_append hw']; rfl⟩
        simp only [appended, List.length_cons, List.length_nil] at hlt' ⊢
        rw [Nat.succ_mul]
        omega
      · refine .inr ⟨w :: ws₁, ws₂, rfl, ?_, by rw [he, appended_append hw']; rfl⟩
        simp only [appended, List.length_cons, List.length_nil] at hB ⊢
        rw [Nat.succ_mul]
        omega

/-- Words that do not fit into the rest of the log are consolidated, wherever the log stands. -/
theorem appendWords_full {ws : List (List UInt8)} (hne : ws ≠ []) {s : State}
    (hu : s.unlocked = true) (hfull : cfg.backingSize ≤ s.writeAddress + ws.length * cfg.wordBytes)
    (h : (appendWords env cfg ws s).1 ≠ .failed) :
    ∃ t : State, t.cache = s.cache ∧ t.unlocked = s.unlocked ∧
      appendWords env cfg ws s = (.consolidated, consolidated env cfg t) := by
  induction ws generalizing s with
  | nil => exact absurd rfl hne
  | cons w ws ih =>
    have hok : (wearLevelingAppendRaw env cfg w s).1 ≠ .failed := by
      intro hf
      simp [appendWords, andThen, hf] at h
    rw [appendWords, appendRaw_of_ok hu hok] at h ⊢
    by_cases hw : cfg.backingSize ≤ s.writeAddress + cfg.wordBytes
    · exact ⟨appended cfg s [w], rfl, rfl, by simp [hw, andThen]⟩
    · rw [if_neg hw, andThen_success] at h ⊢
      rw [List.length_cons, Nat.succ_mul] at hfull
      have hne' : ws ≠ [] := by
        rintro rfl
        simp at hfull
        omega
      obtain ⟨t, hc, ht, he⟩ := ih hne' (s := appended cfg s [w]) hu
        (by simp only [appended, List.length_cons, List.length_nil]; omega) h
      exact ⟨t, hc, ht, he⟩

theorem appendWords_of_fits {ws : List (List UInt8)} {s : State} (hu : s.unlocked = true)
    (hfit : s.writeAddress + ws.length * cfg.wordBytes < cfg.backingSize) :
    (appendWords env cfg ws s).1 = .failed ∨
      ∃ t : State, t.unlocked = true ∧ t.writeAddress < cfg.backingSize ∧
        appendWords env cfg ws s = (.success, t) := by
  induction ws generalizing s with
  | nil => exact .inr ⟨s, hu, by simpa using hfit, rfl⟩
  | cons w ws ih =>
    rw [List.length_cons, Nat.succ_mul] at hfit
    by_cases hok : (wearLevelingAppendRaw env cfg w s).1 = .failed
    · exact .inl (by simp [appendWords, andThen, hok])
    have hlt : ¬ cfg.backingSize ≤ s.writeAddress + cfg.wordBytes := by omega
    rw [appendWords, appendRaw_of_ok hu hok, if_neg hlt, andThen_success]
    exact ih (s := appended cfg s [w]) hu
      (by simp only [appended, List.length_cons, List.length_nil]; omega)

end StoreSpec

end Qmk.WearLeveling
