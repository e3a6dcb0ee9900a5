import Qmk.WearLeveling.Steps

/-! # The durable flat array

The abstract device is an array of bytes that an erase sets to zero. On a store
that never fails the driver refines it: the cache is the array, and the store
holds everything that is needed to rebuild the cache.
-/

namespace Qmk.WearLeveling

def Op.apply (m : Mem UInt8) : Op → Mem UInt8
  | .erase => fun _ => 0
  | .write address value => m.write address value
  | _ => m

/-- The array after a sequence of calls that starts with all bytes zero. -/
def flatArray (ops : List Op) : Mem UInt8 := ops.foldl Op.apply fun _ => 0

/-- The driver stands for the array `m`, in the cache and in the store. -/
structure Refines (env : Env) (cfg : Config) (s : State) (m : Mem UInt8) : Prop where
  ready : LogReady env cfg s s.cache
  cache_eq : ∀ i < cfg.logicalSize, s.cache i = m i

variable {env : Env} {cfg : Config}

theorem refines_clearCache (hlog : cfg.logStart < cfg.backingSize) {s : State}
    (hs : ∀ x < cfg.backingSize, s.store x = 0) :
    Refines env cfg (wearLevelingClearCache cfg s) fun _ => 0 where
  ready := logReady_clearCache hlog hs
  cache_eq := by
    intro i hi
    simp only [wearLevelingClearCache]
    rw [Mem.write_of_mem _ (Nat.zero_le _) (by simpa using hi), List.getElem_replicate]

theorem refines_erase (hlog : cfg.logStart < cfg.backingSize) {s : State}
    (h : (wearLevelingErase env cfg s).1 ≠ .failed) :
    Refines env cfg (wearLevelingErase env cfg s).2 fun _ => 0 := by
  have hz : ∀ x < cfg.backingSize,
      s.store.write 0 (List.replicate cfg.backingSize 0) x = 0 := by
    intro x hx
    rw [Mem.write_of_mem _ (Nat.zero_le _) (by simpa using hx), List.getElem_replicate]
  obtain ⟨hr, hc⟩ := @refines_clearCache env cfg hlog
    ({ s with store := s.store.write 0 (List.replicate cfg.backingSize 0) }) hz
  rw [erase_of_ok h]
  exact ⟨hr.congr rfl rfl fun _ _ => rfl, hc⟩

theorem Refines.init (hf : env.NeverFails) {s : State} {m : Mem UInt8} (h : Refines env cfg s m) :
    Refines env cfg (wearLevelingInit env cfg s).2 m := by
  obtain ⟨rs, _, he⟩ := h.ready.init_eq hf.reads (hf _ _)
  rw [he]
  exact ⟨h.ready.congr rfl rfl fun _ _ => rfl, h.cache_eq⟩

theorem Refines.write (hlog : cfg.logStart < cfg.backingSize) (hU : cfg.logicalSize ≤ 2 ^ 19)
    (hf : env.NeverFails) {s : State} {m : Mem UInt8} (h : Refines env cfg s m) {a : ℕ}
    {v : List UInt8} (hin : a + v.length ≤ cfg.logicalSize) :
    Refines env cfg (wearLevelingWrite env cfg a v s).2 (m.write a v) := by
  rcases h.ready.write hlog hU hin (write_neverFails hf hin s) with ⟨hv, he⟩ | ⟨hc, hr⟩
  · rw [he]
    constructor
    · exact h.ready
    intro i hi
    rcases Nat.lt_or_ge i a with hia | hia
    · rw [Mem.write_of_lt _ _ hia, h.cache_eq i hi]
    rcases Nat.lt_or_ge i (a + v.length) with hib | hib
    · have hread := Mem.read_eq_list_iff.mp hv (i - a) (by omega)
      rw [Mem.write_of_mem _ hia (by omega), ← hread, Nat.add_sub_cancel' hia]
    · rw [Mem.write_of_ge _ _ hib, h.cache_eq i hi]
  · refine ⟨?_, fun i hi => by rw [hc]; exact Mem.write_congr a v (h.cache_eq i hi)⟩
    rw [hc]
    exact hr.elim id id

theorem Refines.step (hlog : cfg.logStart < cfg.backingSize) (hU : cfg.logicalSize ≤ 2 ^ 19)
    (hf : env.NeverFails) {s : State} {m : Mem UInt8} (h : Refines env cfg s m) {o : Op}
    (ho : o.InRange cfg) : Refines env cfg (step env cfg s o) (o.apply m) := by
  cases o with
  | init => exact h.init hf
  | erase => exact refines_erase hlog (erase_neverFails hf s)
  | write a v => exact h.write hlog hU hf ho
  | read a n => exact h

theorem Refines.run (hlog : cfg.logStart < cfg.backingSize) (hU : cfg.logicalSize ≤ 2 ^ 19)
    (hf : env.NeverFails) {ops : List Op} (hops : ∀ o ∈ ops, o.InRange cfg) {s : State}
    {m : Mem UInt8} (h : Refines env cfg s m) :
    Refines env cfg (run env cfg s ops) (ops.foldl Op.apply m) := by
  induction ops generalizing s m with
  | nil => exact h
  | cons o ops ih =>
    exact ih (fun p hp => hops p (List.mem_cons_of_mem _ hp))
      (h.step hlog hU hf (hops o List.mem_cons_self))

theorem ready_step (hlog : cfg.logStart < cfg.backingSize) (hU : cfg.logicalSize ≤ 2 ^ 19)
    (hf : env.NeverFails) {s : State} (h : LogReady env cfg s s.cache) (o : Op) :
    LogReady env cfg (WearLeveling.step env cfg s o) (WearLeveling.step env cfg s o).cache := by
  have href : Refines env cfg s s.cache := ⟨h, fun _ _ => rfl⟩
  cases o with
  | init => exact (href.init hf).ready
  | erase => exact (refines_erase hlog (erase_neverFails hf s)).ready
  | read a n => exact h
  | write a v =>
    rcases Nat.lt_or_ge cfg.logicalSize (a + v.length) with hin | hin
    · simpa [WearLeveling.step, wearLevelingWrite, hin] using h
    · exact (href.write hlog hU hf hin).ready

theorem ready_run (hlog : cfg.logStart < cfg.backingSize) (hU : cfg.logicalSize ≤ 2 ^ 19)
    (hf : env.NeverFails) (ops : List Op) {s : State} (h : LogReady env cfg s s.cache) :
    LogReady env cfg (WearLeveling.run env cfg s ops) (WearLeveling.run env cfg s ops).cache := by
  induction ops generalizing s with
  | nil => exact h
  | cons o ops ih => exact ih (ready_step hlog hU hf h o)

/-- Initialising or erasing an erased store yields the empty array, whatever RAM holds. -/
theorem refines_boot (hlog : cfg.logStart < cfg.backingSize) (hf : env.NeverFails) {s : State}
    (hs : ∀ x < cfg.backingSize, s.store x = 0) {boot : Op} (hb : boot = .init ∨ boot = .erase) :
    Refines env cfg (WearLeveling.step env cfg s boot) fun _ => 0 := by
  rcases hb with rfl | rfl
  · obtain ⟨hr, hc⟩ := @refines_clearCache env cfg hlog s hs
    obtain ⟨d, rs, _, hd, he, hready⟩ := hr.reboot hf.reads (t := s) rfl (hf _ _)
    have hcache : (WearLeveling.step env cfg s .init).cache = d := by
      simp only [WearLeveling.step, he]
    constructor
    · rw [hcache]
      exact hready
    intro i hi
    rw [hcache, hd i hi]
    exact hc i hi
  · exact refines_erase hlog (erase_neverFails hf s)

/-- The states that runs on an erased store reach. The first call is the initialisation or an
erase, as the callers of the driver have it. -/
def Reachable (env : Env) (cfg : Config) (s : State) : Prop :=
  ∃ s₀ boot ops, (∀ x < cfg.backingSize, s₀.store x = 0) ∧ (boot = .init ∨ boot = .erase) ∧
    s = WearLeveling.run env cfg s₀ (boot :: ops)

theorem Reachable.ready (hlog : cfg.logStart < cfg.backingSize) (hU : cfg.logicalSize ≤ 2 ^ 19)
    (hf : env.NeverFails) {s : State} (h : Reachable env cfg s) : LogReady env cfg s s.cache := by
  obtain ⟨s₀, boot, ops, hs, hb, rfl⟩ := h
  exact ready_run hlog hU hf ops (refines_boot hlog hf hs hb).ready

/-- The driver on an erased store is a durable array. The first call is the initialisation or an
erase, as the callers of the driver have it; after any further calls a read returns the bytes of
the array, and initialising from the store rebuilds the cache whatever RAM holds. -/
theorem durable_flat_array (h8 : 8 < cfg.logicalSize) (hU : cfg.logicalSize ≤ 2 ^ 19)
    (hf : env.NeverFails) {s₀ : State} (hs : ∀ x < cfg.backingSize, s₀.store x = 0) {boot : Op}
    (hb : boot = .init ∨ boot = .erase) {ops : List Op} (hops : ∀ o ∈ ops, o.InRange cfg) :
    (∀ a n, a + n ≤ cfg.logicalSize →
      wearLevelingRead cfg a n (run env cfg s₀ (boot :: ops)) =
        (.success, (flatArray ops).read a n)) ∧
    ∀ t : State, t.store = (run env cfg s₀ (boot :: ops)).store →
      (wearLevelingInit env cfg t).1 = .success ∧
      (wearLevelingInit env cfg t).2.store = t.store ∧
      (wearLevelingInit env cfg t).2.cache.read 0 cfg.logicalSize =
        (run env cfg s₀ (boot :: ops)).cache.read 0 cfg.logicalSize := by
  have hlog := cfg.logStart_lt h8
  have h : Refines env cfg (WearLeveling.run env cfg s₀ (boot :: ops)) (flatArray ops) :=
    (refines_boot hlog hf hs hb).run hlog hU hf hops
  constructor
  · intro a n hin
    rw [wearLevelingRead, if_neg (Nat.not_lt.mpr hin)]
    exact congrArg _ (Mem.read_eq_iff.mpr fun i hi => h.cache_eq _ (by omega))
  · intro t ht
    obtain ⟨d, rs, _, hd, he, _⟩ := h.ready.reboot hf.reads ht (hf _ _)
    rw [he]
    exact ⟨rfl, rfl, Mem.read_eq_iff.mpr fun i hi => hd _ (by omega)⟩

theorem durable_flat_array_small :
    wearLevelingRead .small 2 3 (run .working .small .blank [.init, .write 2 [7, 8], .init]) =
      (.success, [7, 8, 0]) := by
  have hops : ∀ o ∈ [Op.write 2 [7, 8], .init], o.InRange .small := by
    simp [Op.InRange, Config.small]
  have h := @durable_flat_array .working .small (by decide) (by decide) Env.working_neverFails
    .blank (fun _ _ => rfl) .init (.inl rfl) _ hops
  exact (h.1 2 3 (by decide)).trans rfl

end Qmk.WearLeveling
