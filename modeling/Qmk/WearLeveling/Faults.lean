import Qmk.WearLeveling.FlatArray

/-! # Durability after failures

Unlocking, locking, erasing and writing may fail at any time. A write updates the
cache before the store, and its short cut compares with the cache, so after a
failure the cache can be ahead of the store and a later success says nothing
about the store. A success is durable when the store is in sync with the write
before it starts. The range check adds in 32 bits, so a call is also asked for
arguments whose sum does not wrap.
-/

namespace Qmk.WearLeveling

/-- The log in the store `m` replays up to some address with nothing behind it. -/
def StoreReady (env : Env) (cfg : Config) (m : Mem UInt8) : Prop :=
  ∃ t c, t.store = m ∧ LogReady env cfg t c

/-- After the calls, the store has been set up (by an erase, by a write that filled the log, or by
the initialisation of a store whose log is ready) and no call inside the logical data has failed
since. -/
inductive Settled (env : Env) (cfg : Config) (s₀ : State) : List Op → Prop
  | erase {ops : List Op} (h : (wearLevelingErase env cfg (run env cfg s₀ ops)).1 ≠ .failed) :
      Settled env cfg s₀ (ops ++ [.erase])
  | consolidate {ops : List Op} {a : ℕ} {v : List UInt8}
      (h : (wearLevelingWrite env cfg a v (run env cfg s₀ ops)).1 = .consolidated) :
      Settled env cfg s₀ (ops ++ [.write a v])
  | init {ops : List Op} (h : StoreReady env cfg (run env cfg s₀ ops).store) :
      Settled env cfg s₀ (ops ++ [.init])
  | call {ops : List Op} {o : Op} (hops : Settled env cfg s₀ ops)
      (h : o.InRange cfg → o.status env cfg (run env cfg s₀ ops) ≠ .failed) :
      Settled env cfg s₀ (ops ++ [o])

/-- The store is in sync with a write that follows the calls `before`. A write whose value is in the
cache already needs a store in which no call has failed; any other needs a log that is ready, or
fills the log and is stored together with the whole cache. -/
structure InSync (env : Env) (cfg : Config) (s₀ : State) (before : List Op) (a : ℕ)
    (v : List UInt8) : Prop where
  noWrap : ∀ o ∈ before ++ [.write a v], o.NoWrap
  cached : (run env cfg s₀ before).cache.read a v.length = v → Settled env cfg s₀ before
  changed : (run env cfg s₀ before).cache.read a v.length ≠ v →
    (∃ c, LogReady env cfg (run env cfg s₀ before) c) ∨
      cfg.backingSize ≤ (run env cfg s₀ before).writeAddress +
        (writeWords cfg a v).length * cfg.wordBytes

/-- Calls that leave the stored data alone. -/
def Op.Harmless : Op → Prop
  | .init => True
  | .read _ _ => True
  | _ => False

variable {env : Env} {cfg : Config}

theorem writeWords_ne_nil {a : ℕ} {v : List UInt8} (hU : cfg.logicalSize ≤ 2 ^ 19)
    (hin : a + v.length ≤ cfg.logicalSize) (hv : v ≠ []) : writeWords cfg a v ≠ [] := by
  obtain ⟨b, p, rfl⟩ := List.exists_cons_of_ne_nil hv
  obtain ⟨r, n, he, _, _, _, _, hs⟩ := recordsLoop_cons cfg p.length a b p
  have hpos := (hs hU hin).words_pos
  intro h
  rw [writeWords, writeRecords, List.length_cons, he, List.flatMap_cons] at h
  simp [(List.append_eq_nil_iff.mp h).1] at hpos

/-- A write that fills the log and does not fail has stored the whole cache. -/
theorem ready_of_full (hlog : cfg.logStart < cfg.backingSize) (hU : cfg.logicalSize ≤ 2 ^ 19)
    {s : State} {a : ℕ} {v : List UInt8} (hin : a + v.length ≤ cfg.logicalSize)
    (hne : s.cache.read a v.length ≠ v)
    (hfull : cfg.backingSize ≤ s.writeAddress + (writeWords cfg a v).length * cfg.wordBytes)
    (h : (wearLevelingWrite env cfg a v s).1 ≠ .failed) :
    (wearLevelingWrite env cfg a v s).2.cache = s.cache.write a v ∧
      LogReady env cfg (wearLevelingWrite env cfg a v s).2 (s.cache.write a v) := by
  have hv : v ≠ [] := by
    rintro rfl
    simp at hne
  by_cases hu : (wearLevelingUnlock env { s with cache := s.cache.write a v }).1 = .failure
  · simp [wearLevelingWrite, Nat.not_lt.mpr hin, hne, hu] at h
  rw [write_eq_finishWrite hin hne hu] at h ⊢
  have hok : (appendWords env cfg (writeWords cfg a v) (s.beginWrite a v)).1 ≠ .failed := by
    intro hf
    rw [← Prod.mk.eta (p := appendWords _ _ _ _), hf] at h
    exact h (finishWrite_failed _)
  obtain ⟨t, hc, ht, he⟩ := appendWords_full (writeWords_ne_nil hU hin hv)
    (s := s.beginWrite a v) rfl hfull hok
  rw [he] at h ⊢
  rw [finishWrite_of_ok (by exact ht) hlog h]
  have hready : LogReady env cfg (consolidated env cfg t) t.cache := logReady_consolidated hlog t
  rw [hc] at hready
  exact ⟨hc, hready.congr rfl rfl fun _ _ => rfl⟩

theorem full_of_consolidated {s : State} {a : ℕ} {v : List UInt8}
    (h : (wearLevelingWrite env cfg a v s).1 = .consolidated) :
    a + v.length ≤ cfg.logicalSize ∧ s.cache.read a v.length ≠ v ∧
      cfg.backingSize ≤ s.writeAddress + (writeWords cfg a v).length * cfg.wordBytes := by
  have hin : a + v.length ≤ cfg.logicalSize := by
    by_contra hlt
    simp [wearLevelingWrite, Nat.not_le.mp hlt] at h
  have hne : s.cache.read a v.length ≠ v := by
    intro hv
    simp [wearLevelingWrite, Nat.not_lt.mpr hin, hv] at h
  refine ⟨hin, hne, ?_⟩
  by_cases hu : (wearLevelingUnlock env { s with cache := s.cache.write a v }).1 = .failure
  · simp [wearLevelingWrite, Nat.not_lt.mpr hin, hne, hu] at h
  rw [write_eq_finishWrite hin hne hu] at h
  by_contra hlt
  rcases appendWords_of_fits (s := s.beginWrite a v) rfl (Nat.lt_of_not_le hlt) with
    hf | ⟨t, htu, htw, he⟩
  · rw [← Prod.mk.eta (p := appendWords _ _ _ _), hf, finishWrite_failed] at h
    cases h
  · rw [he] at h
    rw [finishWrite_of_ok htu htw (by rw [h]; simp)] at h
    cases h

theorem run_concat (s : State) (ops : List Op) (o : Op) :
    run env cfg s (ops ++ [o]) = step env cfg (run env cfg s ops) o := List.foldl_append

theorem Settled.ready (hlog : cfg.logStart < cfg.backingSize) (hU : cfg.logicalSize ≤ 2 ^ 19)
    (hread : env.ReadsSucceed) (hinit : ∀ n, env.fails n .init = false) {s₀ : State}
    {ops : List Op} (h : Settled env cfg s₀ ops) :
    LogReady env cfg (run env cfg s₀ ops) (run env cfg s₀ ops).cache := by
  induction h with
  | erase h =>
    rw [run_concat]
    exact (refines_erase hlog h).ready
  | consolidate h =>
    obtain ⟨hin, hne, hfull⟩ := full_of_consolidated h
    obtain ⟨hc, hr⟩ := ready_of_full hlog hU hin hne hfull (by rw [h]; simp)
    rw [run_concat, step, hc]
    exact hr
  | @init ops h =>
    obtain ⟨t, c, ht, hr⟩ := h
    obtain ⟨d, _, _, _, he, hr'⟩ := hr.reboot hread ht.symm (hinit _)
    have hd : (wearLevelingInit env cfg (run env cfg s₀ ops)).2.cache = d := by rw [he]
    rw [run_concat, step, hd]
    exact hr'
  | @call ops o _ h ih =>
    rw [run_concat]
    cases o with
    | init =>
      obtain ⟨rs, _, he⟩ := ih.init_eq hread (hinit _)
      rw [step, he]
      exact ih.congr rfl rfl fun _ _ => rfl
    | erase => exact (refines_erase hlog (h trivial)).ready
    | read a n => exact ih
    | write a v =>
      rw [step]
      rcases Nat.lt_or_ge cfg.logicalSize (a + v.length) with hin | hin
      · simpa [wearLevelingWrite, hin] using ih
      rcases ih.write hlog hU hin (h hin) with ⟨_, he⟩ | ⟨hc, hr⟩
      · rw [he]
        exact ih
      · rw [hc]
        exact hr.elim id id

theorem InSync.ready (hlog : cfg.logStart < cfg.backingSize) (hU : cfg.logicalSize ≤ 2 ^ 19)
    (hread : env.ReadsSucceed) (hinit : ∀ n, env.fails n .init = false) {s₀ : State}
    {before : List Op} {a : ℕ} {v : List UInt8} (hs : InSync env cfg s₀ before a v)
    (h : (wearLevelingWrite env cfg a v (run env cfg s₀ before)).1 ≠ .failed) :
    ∃ c, LogReady env cfg (wearLevelingWrite env cfg a v (run env cfg s₀ before)).2 c ∧
      c.read a v.length = v := by
  have hin : a + v.length ≤ cfg.logicalSize := by
    by_contra hlt
    simp [wearLevelingWrite, Nat.not_le.mp hlt] at h
  by_cases hne : (run env cfg s₀ before).cache.read a v.length = v
  · have he : wearLevelingWrite env cfg a v (run env cfg s₀ before) =
        (.success, run env cfg s₀ before) := by
      simp [wearLevelingWrite, Nat.not_lt.mpr hin, hne]
    rw [he]
    exact ⟨_, (hs.cached hne).ready hlog hU hread hinit, hne⟩
  rcases hs.changed hne with ⟨c, hr⟩ | hfull
  · rcases hr.write hlog hU hin h with ⟨hv, _⟩ | ⟨_, hr' | hr'⟩
    · exact absurd hv hne
    · exact ⟨_, hr', Mem.read_write _ _ _⟩
    · exact ⟨_, hr', Mem.read_write _ _ _⟩
  · exact ⟨_, (ready_of_full hlog hU hin hne hfull h).2, Mem.read_write _ _ _⟩

/-- Initialising and reading keep a ready store ready with the same logical bytes. -/
theorem ready_harmless (hread : env.ReadsSucceed) (hinit : ∀ n, env.fails n .init = false)
    {ops : List Op} (hops : ∀ o ∈ ops, o.Harmless) {s : State} {c : Mem UInt8}
    (h : LogReady env cfg s c) :
    ∃ d, LogReady env cfg (run env cfg s ops) d ∧ ∀ i < cfg.logicalSize, d i = c i := by
  induction ops generalizing s c with
  | nil => exact ⟨c, h, fun _ _ => rfl⟩
  | cons o ops ih =>
    have hops' : ∀ p ∈ ops, p.Harmless := fun p hp => hops p (List.mem_cons_of_mem _ hp)
    cases o with
    | init =>
      obtain ⟨d, _, _, hd, _, hr⟩ := h.reboot hread (t := s) rfl (hinit _)
      obtain ⟨e, he, hed⟩ := ih hops' hr
      exact ⟨e, he, fun i hi => (hed i hi).trans (hd i hi)⟩
    | read a n => exact ih hops' h
    | erase => exact (hops _ List.mem_cons_self).elim
    | write a v => exact (hops _ List.mem_cons_self).elim

/-- In every run, whatever calls have failed before: a write in sync with the store that reports no
failure is durable. Any number of initialisations and reads may follow, and the last
initialisation may start from any contents of RAM. -/
theorem reported_success_durable (hlog : cfg.logStart < cfg.backingSize)
    (hU : cfg.logicalSize ≤ 2 ^ 19) (hread : env.ReadsSucceed)
    (hinit : ∀ n, env.fails n .init = false) {s₀ : State} {before after : List Op} {a : ℕ}
    {v : List UInt8} (hs : InSync env cfg s₀ before a v)
    (hok : (wearLevelingWrite env cfg a v (run env cfg s₀ before)).1 ≠ .failed)
    (hafter : ∀ o ∈ after, o.Harmless) {t : State}
    (ht : t.store = (run env cfg s₀ (before ++ .write a v :: after)).store) :
    (wearLevelingInit env cfg t).1 = .success ∧
      (wearLevelingInit env cfg t).2.cache.read a v.length = v := by
  have hin : a + v.length ≤ cfg.logicalSize := by
    by_contra hlt
    simp [wearLevelingWrite, Nat.not_le.mp hlt] at hok
  obtain ⟨c, hr, hc⟩ := hs.ready hlog hU hread hinit hok
  obtain ⟨d, hr', hd⟩ := ready_harmless hread hinit hafter hr
  have hrun : run env cfg s₀ (before ++ .write a v :: after) =
      run env cfg (wearLevelingWrite env cfg a v (run env cfg s₀ before)).2 after := by
    simp [run, step]
  rw [hrun] at ht
  obtain ⟨e, _, _, he, hinit_eq, _⟩ := hr'.reboot hread ht (hinit _)
  rw [hinit_eq]
  refine ⟨rfl, Eq.trans ?_ hc⟩
  exact Mem.read_eq_iff.mpr fun i hi => (he _ (by omega)).trans (hd _ (by omega))

theorem LogReady.write_refused {s : State} {c : Mem UInt8} (h : LogReady env cfg s c) {a : ℕ}
    {v : List UInt8} (hin : a + v.length ≤ cfg.logicalSize) (hu : s.unlocked = false)
    (hf : env.fails s.calls.length .unlock = true) :
    LogReady env cfg (wearLevelingWrite env cfg a v s).2 c := by
  by_cases hne : s.cache.read a v.length = v
  · simpa [wearLevelingWrite, Nat.not_lt.mpr hin, hne] using h
  · have he : (wearLevelingWrite env cfg a v s).2 =
        { s with cache := s.cache.write a v, calls := s.calls ++ [.unlock] } := by
      simp [wearLevelingWrite, Nat.not_lt.mpr hin, hne, wearLevelingUnlock, hu, backingStoreUnlock,
        hf, State.record, wearLevelingLock]
    rw [he]
    exact h.congr rfl rfl fun i hi => Mem.write_of_ge _ _ (hin.trans hi)

/-- The store refuses the fourth call when it is an unlock. -/
def Env.refusesUnlock : Env :=
  { Env.working with fails := fun n c => n == 3 && c == .unlock }

/-- A write fails because the store cannot be unlocked; the same write again reports success from
the cache alone, and the value is gone after the next initialisation. -/
theorem success_after_failure_is_lost :
    (wearLevelingWrite .refusesUnlock .small 0 [7]
      (run .refusesUnlock .small .blank [.erase])).1 = .failed ∧
    (wearLevelingWrite .refusesUnlock .small 0 [7]
      (run .refusesUnlock .small .blank [.erase, .write 0 [7]])).1 = .success ∧
    (run .refusesUnlock .small .blank [.erase, .write 0 [7], .write 0 [7], .init]).cache.read 0 1 =
      [0] := by
  decide +kernel

theorem reported_success_durable_small :
    (wearLevelingInit .refusesUnlock .small
      (run .refusesUnlock .small .blank [.erase, .write 1 [5], .write 0 [7]])).2.cache.read 0 1 =
      [7] := by
  have herase : LogReady .refusesUnlock .small (run .refusesUnlock .small .blank [.erase])
      (run .refusesUnlock .small .blank [.erase]).cache :=
    (refines_erase (by decide) (by decide +kernel)).ready
  have hsync : InSync .refusesUnlock .small .blank [.erase, .write 1 [5]] 0 [7] := by
    refine ⟨by simp [Op.NoWrap], fun h => absurd h (by decide +kernel), fun _ =>
      .inl ⟨(run .refusesUnlock .small .blank [.erase]).cache, ?_⟩⟩
    exact herase.write_refused (by decide) (by decide +kernel) (by decide +kernel)
  exact (reported_success_durable (by decide) (by decide) (fun _ _ => by simp [Env.refusesUnlock])
    (fun _ => by simp [Env.refusesUnlock]) hsync (by decide +kernel) (by simp) rfl).2

end Qmk.WearLeveling
