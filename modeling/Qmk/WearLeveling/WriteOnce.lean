import Qmk.Monitor
import Qmk.WearLeveling.FlatArray

/-! # Write-once discipline

Flash words are written at most once between two erases. The monitor keeps the
addresses written since the last erase; the driver keeps them below its write
address, so that appending never meets a written word.
-/

namespace Qmk.WearLeveling

/-- The addresses written since the last erase, after one more call. -/
def StoreCall.written (ws : List ℕ) : StoreCall → List ℕ
  | .erase => []
  | .write address _ => address :: ws
  | _ => ws

/-- The addresses that the calls have written since the last erase. -/
def writtenSinceErase (cs : List StoreCall) : List ℕ := cs.foldl StoreCall.written []

/-- A write stores one aligned word inside the store that has not been written since the last
erase. -/
def WritesFreshWord (cfg : Config) (ws : List ℕ) : StoreCall → Prop
  | .write address value => value.length = cfg.wordBytes ∧ cfg.wordBytes ∣ address ∧
      address + cfg.wordBytes ≤ cfg.backingSize ∧ address ∉ ws
  | _ => True

def writeOnce (cfg : Config) : Monitor StoreCall (List ℕ) where
  next := StoreCall.written
  ok := WritesFreshWord cfg

/-- The calls so far write every word once, and nothing is written at or above the write
address. -/
def WroteOnce (cfg : Config) (s : State) : Prop :=
  (writeOnce cfg).Accepts [] s.calls ∧ ∀ a ∈ writtenSinceErase s.calls, a < s.writeAddress

def StoreCall.Passive : StoreCall → Prop
  | .erase => False
  | .write _ _ => False
  | _ => True

variable {env : Env} {cfg : Config}

theorem OnlyReads.passive {cs : List StoreCall} (h : OnlyReads cs) : ∀ c ∈ cs, c.Passive := by
  intro c hc
  obtain ⟨a, rfl⟩ := h c hc
  trivial

theorem writeOnce_passive (cfg : Config) {cs : List StoreCall} (h : ∀ c ∈ cs, c.Passive)
    (q : List ℕ) :
    (writeOnce cfg).Accepts q cs ∧ (writeOnce cfg).after q cs = q := by
  refine (writeOnce cfg).accepts_of_forall (fun c hc => ?_) fun c hc => ?_
  · have := h c hc
    cases c <;> trivial
  · have := h c hc
    cases c <;> first | rfl | exact this.elim

theorem writeOnce_writeCalls {ws : List (List UInt8)} (hw : ∀ w ∈ ws, w.length = cfg.wordBytes)
    {q : List ℕ} {x : ℕ} (hx : cfg.wordBytes ∣ x)
    (hB : x + ws.length * cfg.wordBytes ≤ cfg.backingSize) (hq : ∀ a ∈ q, a < x) :
    (writeOnce cfg).Accepts q (writeCalls cfg x ws) ∧
      ∀ a ∈ (writeOnce cfg).after q (writeCalls cfg x ws), a < x + ws.length * cfg.wordBytes := by
  induction ws generalizing q x with
  | nil => exact ⟨trivial, by simpa [writeCalls] using hq⟩
  | cons w ws ih =>
    have hpos := cfg.wordBytes_pos
    rw [List.length_cons, Nat.succ_mul] at hB ⊢
    have hq' : ∀ a ∈ x :: q, a < x + cfg.wordBytes := by
      intro a ha
      rcases List.mem_cons.mp ha with rfl | ha
      · omega
      · have := hq a ha
        omega
    obtain ⟨hacc, hlt⟩ := ih (fun v hv => hw v (List.mem_cons_of_mem _ hv))
      ((Nat.dvd_add_right hx).mpr dvd_rfl) (by omega) hq'
    refine ⟨⟨⟨hw w List.mem_cons_self, hx, by omega, fun h => (hq x h).false⟩, hacc⟩, ?_⟩
    intro a ha
    have := hlt a ha
    omega

theorem length_cacheWords (cfg : Config) (c : Mem UInt8) :
    (cacheWords cfg c).length * cfg.wordBytes = cfg.logicalSize := by
  simp [cacheWords, wordsOf, Nat.div_mul_cancel cfg.wordBytes_dvd_logical]

theorem length_hashWords (env : Env) (cfg : Config) (c : Mem UInt8) :
    (hashWords env cfg c).length * cfg.wordBytes = 8 := by
  simp [hashWords, Nat.div_mul_cancel cfg.wordBytes_dvd_eight]

theorem writeOnce_consolidationCalls (hlog : cfg.logStart < cfg.backingSize) (q : List ℕ)
    (c : Mem UInt8) :
    (writeOnce cfg).Accepts q (consolidationCalls env cfg c) ∧
      ∀ a ∈ (writeOnce cfg).after q (consolidationCalls env cfg c), a < cfg.logStart := by
  have hB := hlog
  unfold Config.logStart at hB ⊢
  have hlen := length_cacheWords cfg c
  have hword : ∀ w ∈ cacheWords cfg c, w.length = cfg.wordBytes := length_of_mem_cacheWords
  obtain ⟨hacc, hlt⟩ := writeOnce_writeCalls hword (q := []) (dvd_zero _) (by omega) (by simp)
  rw [Nat.zero_add, hlen] at hlt
  have hlen' := length_hashWords env cfg c
  have hword' : ∀ w ∈ hashWords env cfg c, w.length = cfg.wordBytes := length_of_mem_hashWords
  obtain ⟨hacc', hlt'⟩ :=
    writeOnce_writeCalls hword' cfg.wordBytes_dvd_logical (by omega) hlt
  rw [hlen'] at hlt'
  simp only [consolidationCalls, Monitor.accepts_cons, Monitor.accepts_append, Monitor.after_cons,
    Monitor.after_append]
  exact ⟨⟨trivial, hacc, hacc'⟩, hlt'⟩

theorem WroteOnce.passive {s t : State} (h : WroteOnce cfg s) (cs : List StoreCall)
    (hcs : ∀ c ∈ cs, c.Passive) (ht : t.calls = s.calls ++ cs)
    (hle : s.writeAddress ≤ t.writeAddress) : WroteOnce cfg t := by
  obtain ⟨hacc, hq⟩ := writeOnce_passive cfg hcs ((writeOnce cfg).after [] s.calls)
  obtain ⟨h₁, h₂⟩ := h
  constructor
  · rw [ht, Monitor.accepts_append]
    exact ⟨h₁, hacc⟩
  intro a ha
  have hw : writtenSinceErase t.calls = writtenSinceErase s.calls := by
    rw [ht]
    exact ((writeOnce cfg).after_append [] s.calls cs).trans hq
  rw [hw] at ha
  exact (h₂ a ha).trans_le hle

theorem WroteOnce.erase (hf : env.NeverFails) {s : State} (h : WroteOnce cfg s) :
    WroteOnce cfg (wearLevelingErase env cfg s).2 := by
  obtain ⟨h₁, _⟩ := h
  rw [erase_of_ok (erase_neverFails hf s)]
  cases hu : s.unlocked with
  | true =>
    refine ⟨by simpa [hu] using ⟨h₁, trivial⟩, ?_⟩
    simp [writtenSinceErase, StoreCall.written]
  | false =>
    refine ⟨by simpa [hu] using ⟨h₁, trivial, trivial, trivial⟩, ?_⟩
    simp [writtenSinceErase, StoreCall.written]

theorem WroteOnce.beginWrite {s : State} (h : WroteOnce cfg s) (a : ℕ) (v : List UInt8) :
    WroteOnce cfg (s.beginWrite a v) := by
  refine h.passive (if s.unlocked then [] else [.unlock]) ?_ rfl le_rfl
  cases s.unlocked <;> simp [StoreCall.Passive]

theorem WroteOnce.endWrite {t : State} (h : WroteOnce cfg t) (s : State) :
    WroteOnce cfg (s.endWrite t) := by
  refine h.passive (if s.unlocked then [] else [.lock]) ?_ rfl le_rfl
  cases s.unlocked <;> simp [StoreCall.Passive]

theorem WroteOnce.appended {s : State} (h : WroteOnce cfg s) {ws : List (List UInt8)}
    (hw : ∀ w ∈ ws, w.length = cfg.wordBytes) (hx : cfg.wordBytes ∣ s.writeAddress)
    (hB : s.writeAddress + ws.length * cfg.wordBytes ≤ cfg.backingSize) :
    WroteOnce cfg (appended cfg s ws) := by
  obtain ⟨h₁, h₂⟩ := h
  obtain ⟨hacc, hlt⟩ := writeOnce_writeCalls hw hx hB h₂
  refine ⟨((writeOnce cfg).accepts_append [] _ _).mpr ⟨h₁, hacc⟩, fun a ha => hlt a ?_⟩
  have hq := (writeOnce cfg).after_append [] s.calls (writeCalls cfg s.writeAddress ws)
  exact hq ▸ ha

theorem WroteOnce.consolidated (hlog : cfg.logStart < cfg.backingSize) {s : State}
    (h : WroteOnce cfg s) : WroteOnce cfg (consolidated env cfg s) := by
  obtain ⟨h₁, _⟩ := h
  obtain ⟨hacc, hlt⟩ := writeOnce_consolidationCalls hlog (writtenSinceErase s.calls) s.cache
  refine ⟨((writeOnce cfg).accepts_append [] _ _).mpr ⟨h₁, hacc⟩, fun a ha => hlt a ?_⟩
  have hq := (writeOnce cfg).after_append [] s.calls (consolidationCalls env cfg s.cache)
  exact hq ▸ ha

theorem WroteOnce.write (hlog : cfg.logStart < cfg.backingSize) (hU : cfg.logicalSize ≤ 2 ^ 19)
    (hf : env.NeverFails) {s : State} (hr : LogReady env cfg s s.cache) (h : WroteOnce cfg s)
    (a : ℕ) (v : List UInt8) : WroteOnce cfg (wearLevelingWrite env cfg a v s).2 := by
  rcases Nat.lt_or_ge cfg.logicalSize (a + v.length) with hin | hin
  · simpa [wearLevelingWrite, hin] using h
  by_cases hne : s.cache.read a v.length = v
  · simpa [wearLevelingWrite, Nat.not_lt.mpr hin, hne] using h
  have hword := length_of_mem_writeWords hU hin
  rcases write_of_ok hlog hU hr.lt hr.dvd hin hne (write_neverFails hf hin s) with
    ⟨hB, he⟩ | ⟨ws₁, ws₂, hws, hB, he⟩
  · rw [he]
    exact ((h.beginWrite a v).appended hword hr.dvd hB.le).endWrite s
  · rw [he]
    rw [hws] at hword
    have hword₁ : ∀ w ∈ ws₁, w.length = cfg.wordBytes :=
      fun w hw => hword w (List.mem_append_left _ hw)
    exact (((h.beginWrite a v).appended hword₁ hr.dvd hB.le).consolidated hlog).endWrite s

theorem WroteOnce.step (hlog : cfg.logStart < cfg.backingSize) (hU : cfg.logicalSize ≤ 2 ^ 19)
    (hf : env.NeverFails) {s : State} (hr : LogReady env cfg s s.cache) (h : WroteOnce cfg s)
    (o : Op) : WroteOnce cfg (step env cfg s o) := by
  cases o with
  | init =>
    obtain ⟨rs, hrs, he⟩ := hr.init_eq hf.reads (hf _ _)
    refine h.passive (.init :: rs) ?_ (by simp only [WearLeveling.step, he])
      (by simp only [WearLeveling.step, he, le_refl])
    rintro c (_ | ⟨_, hc⟩)
    · trivial
    · exact hrs.passive c hc
  | erase => exact h.erase hf
  | write a v => exact h.write hlog hU hf hr a v
  | read a n => exact h

theorem WroteOnce.run (hlog : cfg.logStart < cfg.backingSize) (hU : cfg.logicalSize ≤ 2 ^ 19)
    (hf : env.NeverFails) (ops : List Op) {s : State} (hr : LogReady env cfg s s.cache)
    (h : WroteOnce cfg s) : WroteOnce cfg (run env cfg s ops) := by
  induction ops generalizing s with
  | nil => exact h
  | cons o ops ih => exact ih (ready_step hlog hU hf hr o) (h.step hlog hU hf hr o)

theorem wroteOnce_boot (hlog : cfg.logStart < cfg.backingSize) (hf : env.NeverFails) {s : State}
    (hs : ∀ x < cfg.backingSize, s.store x = 0) (hc : s.calls = []) {boot : Op}
    (hb : boot = .init ∨ boot = .erase) : WroteOnce cfg (WearLeveling.step env cfg s boot) := by
  have h₀ : WroteOnce cfg s := by simp [WroteOnce, hc, writtenSinceErase]
  rcases hb with rfl | rfl
  · obtain ⟨d, rs, hrs, _, he, _⟩ :=
      (logReady_clearCache hlog hs).reboot hf.reads (t := s) rfl (hf _ _)
    obtain ⟨hacc, hq⟩ := writeOnce_passive cfg hrs.passive []
    simp only [WearLeveling.step, he, WroteOnce, hc, List.nil_append]
    constructor
    · exact ⟨trivial, hacc⟩
    intro a ha
    have hq' : writtenSinceErase (.init :: rs) = [] := hq
    simp [hq'] at ha
  · exact h₀.erase hf

/-- Every write of a run on an erased store is aligned, lies inside the store and meets a word
that has not been written since the last erase. -/
theorem writes_once (h8 : 8 < cfg.logicalSize) (hU : cfg.logicalSize ≤ 2 ^ 19)
    (hf : env.NeverFails) {s₀ : State} (hs : ∀ x < cfg.backingSize, s₀.store x = 0)
    (hc : s₀.calls = []) {boot : Op} (hb : boot = .init ∨ boot = .erase) (ops : List Op)
    {pre post : List StoreCall} {address : ℕ} {value : List UInt8}
    (hcall : (run env cfg s₀ (boot :: ops)).calls = pre ++ .write address value :: post) :
    value.length = cfg.wordBytes ∧ cfg.wordBytes ∣ address ∧
      address + cfg.wordBytes ≤ cfg.backingSize ∧ address ∉ writtenSinceErase pre := by
  have hlog := cfg.logStart_lt h8
  have hr := (refines_boot hlog hf hs hb).ready
  obtain ⟨hacc, _⟩ := (wroteOnce_boot hlog hf hs hc hb).run hlog hU hf ops hr
  exact hacc.ok hcall

theorem writes_once_small : (28 : ℕ) ∉ writtenSinceErase
    [.unlock, .erase, .lock, .unlock, .write 24 [16, 0, 2, 7]] := by
  have h : (run .working .small .blank [.erase, .write 2 [7, 8]]).calls =
      [.unlock, .erase, .lock, .unlock, .write 24 [16, 0, 2, 7]] ++
        .write 28 [8, 0, 0, 0] :: [.lock] := by decide
  exact (writes_once (by decide) (by decide) Env.working_neverFails (fun _ _ => rfl) rfl
    (.inr rfl) [.write 2 [7, 8]] h).2.2.2

end Qmk.WearLeveling
