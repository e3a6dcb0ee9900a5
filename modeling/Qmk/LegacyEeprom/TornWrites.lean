import Qmk.LegacyEeprom.FlatArray

/-! # Torn writes

Power may be lost after any number of the flash operations of a write. What the
flash operations of a run program outside compaction is erased, and a write that
is cut short leaves every byte with its old or its new value, as long as it does
not compact.
-/

namespace Qmk.LegacyEeprom

variable (cfg : Config)

def Write.ops (s : State) (w : Write) : List FlashOp := (w.run cfg s).trace.drop s.trace.length

/-- Power is lost after `n` flash operations of the write; RAM starts from zero. -/
def cutAfter (s : State) (w : Write) (n : ℕ) : State where
  flash := flashRules.after s.flash ((w.ops cfg s).take n)
  dataBuf _ := 0
  emptySlot := 0
  trace := s.trace ++ (w.ops cfg s).take n

/-- The driver is called, or power is lost during a write and the driver starts again. -/
inductive Event
  | call (c : Call)
  | cut (w : Write) (n : ℕ)

def Event.step (s : State) : Event → State
  | .call c => LegacyEeprom.step cfg s c
  | .cut w n => eepromInit cfg (cutAfter cfg s w n)

/-- Calls are safe, and a write that is cut short is one that does not compact. -/
def eventGuard : Monitor Event State where
  next := Event.step cfg
  ok s
    | .call c => (callGuard cfg).ok s c
    | .cut w _ => .erase ∉ w.ops cfg s

instance : ∀ s e, Decidable ((eventGuard cfg).ok s e)
  | s, .call c => inferInstanceAs (Decidable ((callGuard cfg).ok s c))
  | s, .cut w _ => inferInstanceAs (Decidable (.erase ∉ w.ops cfg s))

variable {cfg} {s : State}

theorem Wrote.ops_eq {s' : State} {old new : Mem (BitVec 8)} (h : Wrote cfg s s' old new) :
    s'.trace = s.trace ++ s'.trace.drop s.trace.length ∧
    s'.flash = flashRules.after s.flash (s'.trace.drop s.trace.length) ∧
    Survives cfg s.flash (s'.trace.drop s.trace.length) old new := by
  obtain ⟨-, ops, ht, hf, hs⟩ := h
  rw [ht, List.drop_left]
  exact ⟨rfl, hf, hs⟩

section Compacting

theorem erase_mem_compact (cfg : Config) (s : State) :
    ∃ ops, (eepromCompact cfg s).2.trace = s.trace ++ .erase :: ops := by
  obtain ⟨ops, he, -, -⟩ := foldl_compactWord (s := eepromClear s) rfl cfg.words
  refine ⟨ops, ?_⟩
  simp only [eepromCompact, he]
  simp [eepromClear, State.emit]

theorem trace_logByteEntry (cfg : Config) (s : State) (a : ℕ) :
    ∃ ops, (eepromWriteLogByteEntry cfg a s).2.trace = s.trace ++ ops := by
  rw [eepromWriteLogByteEntry]
  split_ifs
  · obtain ⟨ops, he⟩ := erase_mem_compact cfg s
    exact ⟨_, he⟩
  · exact ⟨_, rfl⟩

theorem ZeroesFullLog.compacts (h : Synced cfg s) {a : ℕ} {w : BitVec 16}
    (hz : ZeroesFullLog cfg a w s) : FlashOp.erase ∈ (Write.word a w).ops cfg s := by
  obtain ⟨ha, hr, rfl, hlow, -, -, hs⟩ := hz
  have hr' := cfg.byteRange_le
  have hr'' : feeByteRange = 128 := rfl
  have he : s.flash (a / 2) ≠ feeEmptyWord :=
    fun he => hlow (h.eq_zero_of_empty (by omega) he)
  have hne : halfWord s.dataBuf a ≠ 0 := fun h0 => hlow (bytes_eq_zero.mp h0).2
  have hc : (halfWord s.dataBuf a).setWidth 8 ≠ (0 : BitVec 16).setWidth 8 := by
    rwa [halfWord, bytes_setWidth]
  set t : State := { s with dataBuf := storeHalfWord s.dataBuf a 0 } with ht
  obtain ⟨ops, hops⟩ := erase_mem_compact cfg t
  have htrace : ∃ ops', (eepromWriteDataWord cfg a 0 s).2.trace =
      s.trace ++ .erase :: ops ++ ops' := by
    rw [eepromWriteDataWord, if_neg (by omega), if_neg (by omega)]
    simp only [if_neg hne, persistWord, ← ht]
    rw [direct_of_ne (s := t) he]
    simp only [if_pos hr, writeLogChangedBytes, if_pos hc]
    rw [logByte_full (s := t) hs.ge]
    split_ifs
    · obtain ⟨ops', hops'⟩ := trace_logByteEntry cfg (eepromCompact cfg t).2 (a + 1)
      rw [hops] at hops'
      exact ⟨ops', hops'⟩
    · exact ⟨[], by rw [List.append_nil]; exact hops⟩
  obtain ⟨ops', htr⟩ := htrace
  change FlashOp.erase ∈ (eepromWriteDataWord cfg a 0 s).2.trace.drop s.trace.length
  rw [htr, List.append_assoc, List.drop_left]
  simp

theorem Write.safe_of_not_mem (h : Synced cfg s) {w : Write} (hw : .erase ∉ w.ops cfg s) :
    w.Safe cfg s := by
  cases w with
  | byte a v => trivial
  | word a w =>
    intro hz
    exact hw (hz.compacts h)

end Compacting

/-- A write that is cut short leaves a flash that holds old and new bytes. -/
theorem Synced.cut (h : Synced cfg s) {w : Write} (hw : .erase ∉ w.ops cfg s) (n : ℕ) :
    ∃ k b, Holds cfg (cutAfter cfg s w n).flash k b ∧
      ∀ x < cfg.densityBytes, b x = s.dataBuf x ∨ b x = w.apply s.dataBuf x := by
  obtain ⟨hwr, -⟩ := h.wrote (Write.safe_of_not_mem h hw)
  obtain ⟨-, -, hs⟩ := hwr.ops_eq
  apply hs.cut
  intro hm
  exact hw (List.mem_of_mem_take hm)

theorem Write.apply_of_not_covers {w : Write} {x : ℕ} (h : ¬ w.Covers x) (m : Mem (BitVec 8)) :
    w.apply m x = m x := by
  cases w with
  | byte a v => exact write_singleton_of_ne _ _ _ h
  | word a v =>
    obtain ⟨h₀, h₁⟩ := not_or.mp h
    exact storeHalfWord_of_ne _ _ _ h₀ h₁

/-- The flash is what the trace makes of the first flash, by operations that obey the rules. -/
structure Traced (f : Flash) (s : State) : Prop where
  flash_eq : s.flash = flashRules.after f s.trace
  rules : flashRules.Accepts f s.trace

namespace Traced

variable {f : Flash}

theorem extend (h : Traced f s) {ops : List FlashOp} {s' : State}
    (ht : s'.trace = s.trace ++ ops) (hf : s'.flash = flashRules.after s.flash ops)
    (hr : flashRules.Accepts s.flash ops) : Traced f s' := by
  constructor
  · rw [hf, ht, Monitor.after_append, ← h.flash_eq]
  · rw [ht, Monitor.accepts_append, ← h.flash_eq]
    exact ⟨h.rules, hr⟩

theorem wrote (h : Traced f s) {s' : State} {old new : Mem (BitVec 8)}
    (hw : Wrote cfg s s' old new) : Traced f s' := by
  obtain ⟨-, ops, ht, hf, hs⟩ := hw
  exact h.extend ht hf hs.rules

theorem erase (h : Traced f s) : Traced f (eepromErase cfg s) := by
  have hr : flashRules.Accepts s.flash [.erase] := ⟨trivial, trivial⟩
  exact h.extend rfl rfl hr

theorem init (h : Traced f s) : Traced f (eepromInit cfg s) := ⟨h.flash_eq, h.rules⟩

theorem writes (h : Traced f s) (hs : Synced cfg s) {ws : List Write}
    (hw : (writeGuard cfg).Accepts s ws) : Traced f ((writeGuard cfg).after s ws) := by
  have hinv := hw.invariant (P := fun s => Synced cfg s ∧ Traced f s) ?_ ⟨hs, h⟩
  · exact hinv.2
  · rintro s w ⟨hs, h⟩ hok
    exact ⟨hs.write hok, h.wrote (hs.wrote hok).1⟩

theorem step (h : Traced f s) (hs : Synced cfg s) {c : Call} (hc : (callGuard cfg).ok s c) :
    Traced f (LegacyEeprom.step cfg s c) := by
  cases c with
  | init => exact h.init
  | erase => exact h.erase
  | write w => exact h.wrote (hs.wrote hc.1).1
  | block a v =>
    change Traced f (eepromWriteBlock cfg v a s)
    rw [writeBlock_eq]
    exact h.writes hs hc

theorem cut (h : Traced f s) (hs : Synced cfg s) {w : Write} (hw : .erase ∉ w.ops cfg s) (n : ℕ) :
    Traced f (cutAfter cfg s w n) := by
  obtain ⟨-, -, hsv⟩ := (hs.wrote (Write.safe_of_not_mem hs hw)).1.ops_eq
  refine h.extend rfl rfl ?_
  have hr := hsv.rules
  change flashRules.Accepts s.flash (w.ops cfg s) at hr
  rw [← List.take_append_drop n (w.ops cfg s), Monitor.accepts_append] at hr
  exact hr.1

end Traced

structure Sound (cfg : Config) (f : Flash) (s : State) : Prop where
  synced : Synced cfg s
  traced : Traced f s

theorem Sound.event {f : Flash} (h : Sound cfg f s) {e : Event} (he : (eventGuard cfg).ok s e) :
    Sound cfg f (e.step cfg s) := by
  cases e with
  | call c => exact ⟨h.synced.step he, h.traced.step h.synced he⟩
  | cut w n =>
    obtain ⟨k, b, hk, -⟩ := h.synced.cut he n
    exact ⟨.of_init hk, (h.traced.cut h.synced he n).init⟩

theorem Boots.sound {boot : Call} (hb : Boots cfg s boot) (ht : s.trace = []) :
    Sound cfg s.flash (step cfg s boot) := by
  have hs : Traced s.flash s := by
    constructor
    · rw [ht, Monitor.after_nil]
    · rw [ht]
      trivial
  refine ⟨hb.refines.synced, ?_⟩
  cases boot with
  | erase => exact hs.erase
  | init => exact hs.init
  | write w => exact hb.elim
  | block a v => exact hb.elim

/-- In every run of safe writes, also one in which power has been lost before, only erased
half-words are programmed outside compaction, and a write that does not compact can be cut short
anywhere: the bytes it covers are old or new, and the others are the old ones. -/
theorem torn_writes_of_safe {s₀ : State} {boot : Call} (hb : Boots cfg s₀ boot)
    (ht : s₀.trace = []) {es : List Event}
    (hc : (eventGuard cfg).Accepts (step cfg s₀ boot) es) :
    let s := (eventGuard cfg).after (step cfg s₀ boot) es
    s.flash = flashRules.after s₀.flash s.trace ∧ flashRules.Accepts s₀.flash s.trace ∧
    ∀ w n, .erase ∉ w.ops cfg s → ∀ x < cfg.densityBytes,
      (¬ w.Covers x → (eepromInit cfg (cutAfter cfg s w n)).dataBuf x = s.dataBuf x) ∧
      ((eepromInit cfg (cutAfter cfg s w n)).dataBuf x = s.dataBuf x ∨
        (eepromInit cfg (cutAfter cfg s w n)).dataBuf x = w.apply s.dataBuf x) := by
  intro s
  have h : Sound cfg s₀.flash s :=
    hc.invariant (fun _ _ hs hok => hs.event hok) (hb.sound ht)
  refine ⟨h.traced.flash_eq, h.traced.rules, ?_⟩
  intro w n hw x hx
  obtain ⟨k, b, hk, hx'⟩ := h.synced.cut hw n
  rw [(hk.init rfl).2.1 x hx]
  refine ⟨fun hcov => ?_, hx' x hx⟩
  rcases hx' x hx with hold | hnew
  · exact hold
  · rw [hnew, Write.apply_of_not_covers hcov]

/-- A word write whose two byte entries are torn apart, twice. -/
def tornRun : List Event :=
  [.call (.write (.word 2 0x0101)), .cut (.word 2 0x0202) 1]

theorem torn_writes_of_safe_twice :
    (eventGuard (.smallest 6 rfl)).Accepts (step (.smallest 6 rfl) .blank .init) tornRun ∧
    (let s := (eventGuard (.smallest 6 rfl)).after (step (.smallest 6 rfl) .blank .init) tornRun
    let t := eepromInit (.smallest 6 rfl) (cutAfter (.smallest 6 rfl) s (.word 2 0x0303) 1)
    t.dataBuf 1 = s.dataBuf 1) := by
  have hc : (eventGuard (.smallest 6 rfl)).Accepts (step (.smallest 6 rfl) .blank .init)
      tornRun := by decide +kernel
  have h := @torn_writes_of_safe (.smallest 6 rfl) .blank .init (fun _ _ => rfl) rfl tornRun hc
  refine ⟨hc, (h.2.2 (.word 2 0x0303) 1 ?_ 1 (by decide)).1 ?_⟩
  · decide +kernel
  · rintro (h | h) <;> exact absurd h (by decide)

/-- A word 0 over a full log, a direct write to the half-word that it leaves erased, and another
half-word. -/
def staleZeroEvents : List Event :=
  [.word 0 0x0101, .byte 0 2, .byte 0 3, .byte 0 4, .word 0 0, .word 0 0x0505, .word 2 0x0101].map
    fun w => .call (.write w)

/-- A torn write of the half-word at 2 changes the byte at 1. -/
theorem torn_write_changes_other_byte :
    let s := (eventGuard (.smallest 6 rfl)).after (step (.smallest 6 rfl) .blank .init)
      staleZeroEvents
    (Write.word 2 0x0202).ops (.smallest 6 rfl) s =
      [.program false 65 0x0202, .program false 66 0x0302] ∧
    s.dataBuf 1 = 5 ∧
    (eepromInit (.smallest 6 rfl)
      (cutAfter (.smallest 6 rfl) s (.word 2 0x0202) 1)).dataBuf 1 = 0 := by
  decide +kernel

end Qmk.LegacyEeprom
