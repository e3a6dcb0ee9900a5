import Qmk.LegacyEeprom.Writers

/-! # Byte and word writes

Between calls the flash and the copy in RAM agree. Every byte write keeps this,
and so does every word write but one: a word 0 that finds the log full.
-/

namespace Qmk.LegacyEeprom

variable {cfg : Config}

def Synced (cfg : Config) (s : State) : Prop := Holds cfg s.flash s.emptySlot s.dataBuf

/-- A word 0 is written over two bytes that both change, below `feeByteRange`, when the log is
full: the first byte compacts the log and leaves the half-word erased, and the second byte is
then written to the log all the same. -/
def ZeroesFullLog (cfg : Config) (address : ℕ) (dataWord : BitVec 16) (s : State) : Prop :=
  address % 2 = 0 ∧ address < feeByteRange ∧ dataWord = 0 ∧ s.dataBuf address ≠ 0 ∧
    s.dataBuf (address + 1) ≠ 0 ∧ 0 < cfg.slots ∧ s.emptySlot = cfg.slots

instance (a : ℕ) (w : BitVec 16) (s : State) : Decidable (ZeroesFullLog cfg a w s) :=
  inferInstanceAs (Decidable (_ ∧ _))

section Byte

variable {s : State} {b : Mem (BitVec 8)} {a : ℕ}

theorem direct_of_ne (h : s.flash (a / 2) ≠ feeEmptyWord) :
    eepromWriteDirectEntry a s = (.notWritten, s) := by
  rw [eepromWriteDirectEntry, if_neg h]

/-- What a byte entry leaves: the byte in the log, or a compacted flash. -/
inductive LoggedByte (cfg : Config) (s s' : State) (b : Mem (BitVec 8)) (a : ℕ) :
    Mem (BitVec 8) → Prop
  | entry (hp : s'.flash (a / 2) ≠ feeEmptyWord) : LoggedByte cfg s s' b a (b.write a [s.dataBuf a])
  | compacted (hs : s.emptySlot = cfg.slots) (hz : s'.emptySlot = 0)
      (hf : s'.flash (a / 2) = ~~~halfWord s.dataBuf (2 * (a / 2))) :
      LoggedByte cfg s s' b a s.dataBuf

theorem wrote_logByteEntry (h : Holds cfg s.flash s.emptySlot b) (ha : a < feeByteRange)
    (hp : s.emptySlot < cfg.slots → s.flash (a / 2) ≠ feeEmptyWord) :
    ∃ m, Wrote cfg s (eepromWriteLogByteEntry cfg a s).2 b m ∧
      (eepromWriteLogByteEntry cfg a s).2.dataBuf = s.dataBuf ∧
      LoggedByte cfg s (eepromWriteLogByteEntry cfg a s).2 b a m := by
  rcases Nat.lt_or_ge s.emptySlot cfg.slots with hs | hs
  · obtain ⟨hw, hb, hf⟩ := wrote_logByte h ha (hp hs) hs
    exact ⟨_, hw, hb, .entry hf⟩
  · obtain ⟨hw, hb, hz, hf⟩ := wrote_compact h
    have hlt : a / 2 < cfg.words := by
      have hr := cfg.byteRange_le
      have hr' : feeByteRange = 128 := rfl
      exact cfg.half_lt_words.mpr (by omega)
    rw [logByte_full hs]
    exact ⟨_, hw, hb, .compacted (le_antisymm h.slot_le hs) hz (hf _ hlt)⟩

theorem wrote_persistByte (h : Holds cfg s.flash s.emptySlot b) (hd : a < cfg.densityBytes)
    {v : BitVec 8} (hv : s.dataBuf = b.write a [v]) :
    Wrote cfg s (persistByte cfg a s).2 b s.dataBuf ∧
    (persistByte cfg a s).2.dataBuf = s.dataBuf := by
  have hb : ∀ x, x / 2 ≠ a / 2 → s.dataBuf x = b x := by
    intro x hx
    rw [hv]
    apply write_singleton_of_ne
    rintro rfl
    exact hx rfl
  rw [persistByte]
  rcases eq_or_ne (s.flash (a / 2)) feeEmptyWord with he | he
  · obtain ⟨s', hs, hw, hb'⟩ := wrote_direct h hd he hb
    rw [hs]
    exact ⟨hw, hb'⟩
  · rw [direct_of_ne he]
    dsimp only
    split_ifs with hr
    · obtain ⟨m, hw, hb', hl⟩ := wrote_logByteEntry h hr fun _ => he
      refine ⟨?_, hb'⟩
      cases hl with
      | entry _ =>
        apply hw.congr
        intro x _
        rw [hv, write_singleton_self]
      | compacted _ _ _ => exact hw
    · have hr' : feeByteRange = 128 := rfl
      have h2 : 2 * (a / 2) / 2 = a / 2 := by omega
      exact wrote_logWord h (by omega) (by omega) (by omega) (by rwa [h2]) (by rwa [h2])

theorem Synced.writeDataByte (h : Synced cfg s) (a : ℕ) (v : BitVec 8) :
    Wrote cfg s (eepromWriteDataByte cfg a v s).2 s.dataBuf (s.dataBuf.write a [v]) ∧
    ∀ x < cfg.densityBytes,
      (eepromWriteDataByte cfg a v s).2.dataBuf x = s.dataBuf.write a [v] x := by
  rw [eepromWriteDataByte]
  split_ifs with hd hv
  · have hlt : ∀ x < cfg.densityBytes, s.dataBuf x = s.dataBuf.write a [v] x := by
      intro x hx
      rw [Mem.write_of_lt _ _ (by omega)]
    exact ⟨(Wrote.refl h).congr hlt, hlt⟩
  · subst hv
    rw [write_singleton_eq]
    exact ⟨.refl h, fun _ _ => rfl⟩
  · obtain ⟨hw, hb⟩ := wrote_persistByte
      (s := { s with dataBuf := s.dataBuf.write a [v] }) h (Nat.lt_of_not_le hd) rfl
    exact ⟨⟨hw.holds, hw.ops⟩, fun x _ => congrFun hb x⟩

end Byte

section Word

variable {s : State} {b : Mem (BitVec 8)} {a : ℕ} {w : BitVec 16}

theorem storeHalfWord_eq_writes (b : Mem (BitVec 8)) (a : ℕ) (w : BitVec 16) :
    storeHalfWord b a w = (b.write a [w.setWidth 8]).write (a + 1) [(w >>> 8).setWidth 8] :=
  Mem.write_append b a [_] [_]

theorem wrote_lowByte (h : Holds cfg s.flash s.emptySlot b) (hr : a < feeByteRange)
    (he : s.flash (a / 2) ≠ feeEmptyWord) (hv : s.dataBuf = storeHalfWord b a w) :
    let s' := (if (halfWord b a).setWidth 8 ≠ w.setWidth 8 then
      eepromWriteLogByteEntry cfg a s else (.complete, s)).2
    ∃ m, Wrote cfg s s' b m ∧ s'.dataBuf = s.dataBuf ∧ LoggedByte cfg s s' b a m ∧
      (s'.flash (a / 2) ≠ feeEmptyWord ∨ b a ≠ w.setWidth 8) := by
  have hlow : s.dataBuf a = w.setWidth 8 := by
    rw [hv, storeHalfWord_low]
  rw [halfWord, bytes_setWidth]
  dsimp only
  split_ifs with hc
  · obtain ⟨m, hw, hb, hl⟩ := wrote_logByteEntry h hr fun _ => he
    exact ⟨m, hw, hb, hl, Or.inr hc⟩
  · refine ⟨b.write a [s.dataBuf a], ?_, rfl, .entry he, Or.inl he⟩
    have hba : b a = w.setWidth 8 := not_not.mp hc
    rw [hlow, ← hba, write_singleton_eq]
    exact .refl h

theorem wrote_highByte (h : Holds cfg s.flash s.emptySlot b) (hr : a + 1 < feeByteRange)
    (hp : s.emptySlot < cfg.slots → s.flash ((a + 1) / 2) ≠ feeEmptyWord) {m : Mem (BitVec 8)}
    (hm : m (a + 1) = b (a + 1)) (hv : s.dataBuf (a + 1) = (w >>> 8).setWidth 8)
    (hb : b.write (a + 1) [s.dataBuf (a + 1)] = s.dataBuf) :
    let s' := (if halfWord m a >>> 8 ≠ w >>> 8 then
      eepromWriteLogByteEntry cfg (a + 1) s else (.complete, s)).2
    Wrote cfg s s' b s.dataBuf ∧ s'.dataBuf = s.dataBuf := by
  dsimp only
  split_ifs with hc
  · obtain ⟨m, hw, hb', hl⟩ := wrote_logByteEntry h hr hp
    refine ⟨?_, hb'⟩
    cases hl with
    | entry _ => rwa [hb] at hw
    | compacted _ _ _ => exact hw
  · have hba : b (a + 1) = (w >>> 8).setWidth 8 := by
      rw [← hm, ← not_not.mp hc, halfWord, bytes_shift_setWidth]
    rw [hv, ← hba, write_singleton_eq] at hb
    exact ⟨(Wrote.refl h).congr fun x _ => congrFun hb x, rfl⟩

theorem wrote_changedBytes (h : Holds cfg s.flash s.emptySlot b) (ha : a % 2 = 0)
    (hr : a < feeByteRange) (he : s.flash (a / 2) ≠ feeEmptyWord)
    (hv : s.dataBuf = storeHalfWord b a w)
    (hg : ¬ (w = 0 ∧ b a ≠ 0 ∧ b (a + 1) ≠ 0 ∧ 0 < cfg.slots ∧ s.emptySlot = cfg.slots)) :
    Wrote cfg s (writeLogChangedBytes cfg a (halfWord b a) w s).2 b s.dataBuf ∧
    (writeLogChangedBytes cfg a (halfWord b a) w s).2.dataBuf = s.dataBuf := by
  have hr' : feeByteRange = 128 := rfl
  have h2 : (a + 1) / 2 = a / 2 := by omega
  have h2' : 2 * (a / 2) = a := by omega
  have hhigh : s.dataBuf (a + 1) = (w >>> 8).setWidth 8 := by
    rw [hv, storeHalfWord_high]
  have hlow : s.dataBuf a = w.setWidth 8 := by
    rw [hv, storeHalfWord_low]
  obtain ⟨m, hw, hb, hl, hch⟩ := wrote_lowByte h hr he hv
  simp only [writeLogChangedBytes]
  set s₁ := (if (halfWord b a).setWidth 8 ≠ w.setWidth 8 then
    eepromWriteLogByteEntry cfg a s else (.complete, s)).2
  cases hl with
  | entry hp =>
    have hm : b.write a [s.dataBuf a] (a + 1) = b (a + 1) := write_singleton_of_ne _ _ _ (by omega)
    have hstore : (b.write a [s.dataBuf a]).write (a + 1) [s₁.dataBuf (a + 1)] = s₁.dataBuf := by
      rw [hb, hhigh, hlow, hv, storeHalfWord_eq_writes]
    obtain ⟨hw', hb'⟩ := wrote_highByte (w := w) (m := b) hw.holds (by omega)
      (fun _ => by rwa [h2]) hm.symm (by rw [hb, hhigh]) hstore
    rw [hb] at hw' hb'
    refine ⟨hw.trans hw' ?_, hb'⟩
    intro x _
    rcases eq_or_ne x a with rfl | hx
    · exact Or.inr (write_singleton_self _ _ _)
    · exact Or.inl (write_singleton_of_ne _ _ _ hx)
  | compacted hs hz hf =>
    -- the second entry finds the half-word erased only when the word is 0
    by_cases hc : halfWord b a >>> 8 ≠ w >>> 8
    · have hp : s₁.emptySlot < cfg.slots → s₁.flash ((a + 1) / 2) ≠ feeEmptyWord := by
        intro hlt hempty
        rw [h2, hf, h2', hv, halfWord_store, not_eq_empty] at hempty
        subst hempty
        have hb1 : b (a + 1) ≠ 0 := by
          intro h0
          apply hc
          apply BitVec.eq_of_toNat_eq
          rw [halfWord, toNat_bytes_shift, h0]
          rfl
        rcases hch with hp | hba
        · rw [hf, h2', hv, halfWord_store] at hp
          exact hp rfl
        · exact hg ⟨rfl, hba, hb1, by omega, hs⟩
      have hstore : s.dataBuf.write (a + 1) [s₁.dataBuf (a + 1)] = s₁.dataBuf := by
        rw [hb, write_singleton_eq]
      have hw'' := wrote_logByteEntry hw.holds (a := a + 1) (by omega) hp
      rw [if_pos hc]
      obtain ⟨m, hw', hb', hl⟩ := hw''
      rw [hb] at hb'
      refine ⟨hw.trans (hw'.congr ?_) fun x _ => Or.inr rfl, hb'⟩
      intro x _
      cases hl with
      | entry _ => exact congrFun (hstore.trans hb) x
      | compacted _ _ _ => exact congrFun hb x
    · rw [if_neg hc]
      exact ⟨hw, hb⟩

theorem wrote_persistWord (h : Holds cfg s.flash s.emptySlot b) (ha : a % 2 = 0)
    (hd : a < cfg.densityBytes) (hv : s.dataBuf = storeHalfWord b a w)
    (hg : a < feeByteRange →
      ¬ (w = 0 ∧ b a ≠ 0 ∧ b (a + 1) ≠ 0 ∧ 0 < cfg.slots ∧ s.emptySlot = cfg.slots)) :
    Wrote cfg s (persistWord cfg a (halfWord b a) w s).2 b s.dataBuf ∧
    (persistWord cfg a (halfWord b a) w s).2.dataBuf = s.dataBuf := by
  have hb : ∀ x, x / 2 ≠ a / 2 → s.dataBuf x = b x := by
    intro x hx
    rw [hv]
    exact storeHalfWord_of_ne _ _ _ (by omega) (by omega)
  rw [persistWord]
  rcases eq_or_ne (s.flash (a / 2)) feeEmptyWord with he | he
  · obtain ⟨s', hs, hw, hb'⟩ := wrote_direct h hd he hb
    rw [hs]
    exact ⟨hw, hb'⟩
  · rw [direct_of_ne he]
    dsimp only
    split_ifs with hr
    · exact wrote_changedBytes h ha hr he hv (hg hr)
    · exact wrote_logWord h ha (by omega) hd he hb

/-- A word write that does not zero a full log takes the flash from the old array to the new
one. -/
theorem Synced.writeDataWord (h : Synced cfg s) (hg : ¬ ZeroesFullLog cfg a w s) :
    Wrote cfg s (eepromWriteDataWord cfg a w s).2 s.dataBuf (storeHalfWord s.dataBuf a w) ∧
    ∀ x < cfg.densityBytes,
      (eepromWriteDataWord cfg a w s).2.dataBuf x = storeHalfWord s.dataBuf a w x := by
  simp only [eepromWriteDataWord]
  split_ifs with hd ho hv
  · have hlt : ∀ x < cfg.densityBytes, s.dataBuf x = storeHalfWord s.dataBuf a w x := by
      intro x hx
      rw [storeHalfWord_of_ne _ _ _ (by omega) (by omega)]
    exact ⟨(Wrote.refl h).congr hlt, hlt⟩
  · -- an odd address: two byte writes
    obtain ⟨hw₁, hb₁⟩ := h.writeDataByte a (w.setWidth 8)
    have hh : Synced cfg (eepromWriteDataByte cfg a (w.setWidth 8) s).2 :=
      hw₁.holds.congr fun x hx => (hb₁ x hx).symm
    obtain ⟨hw₂, hb₂⟩ := hh.writeDataByte (a + 1) ((w >>> 8).setWidth 8)
    have hcong : ∀ x < cfg.densityBytes,
        (eepromWriteDataByte cfg a (w.setWidth 8) s).2.dataBuf.write (a + 1)
          [(w >>> 8).setWidth 8] x = storeHalfWord s.dataBuf a w x := by
      intro x hx
      rw [storeHalfWord_eq_writes]
      exact Mem.write_congr _ _ (hb₁ x hx)
    refine ⟨hw₁.trans ((hw₂.congr hcong).congr_left hb₁) ?_, ?_⟩
    · intro x _
      rcases eq_or_ne x a with rfl | hx
      · exact Or.inr ((write_singleton_self _ _ _).trans (storeHalfWord_low _ _ _).symm)
      · exact Or.inl (write_singleton_of_ne _ _ _ hx)
    · intro x hx
      exact (hb₂ x hx).trans (hcong x hx)
  · rw [← hv, store_halfWord]
    exact ⟨.refl h, fun _ _ => rfl⟩
  · have hg' : a < feeByteRange → ¬ (w = 0 ∧ s.dataBuf a ≠ 0 ∧ s.dataBuf (a + 1) ≠ 0 ∧
        0 < cfg.slots ∧ s.emptySlot = cfg.slots) := by
      intro hr hz
      exact hg ⟨by omega, hr, hz⟩
    obtain ⟨hw, hb⟩ := wrote_persistWord
      (s := { s with dataBuf := storeHalfWord s.dataBuf a w }) h (by omega)
      (Nat.lt_of_not_le hd) rfl hg'
    exact ⟨⟨hw.holds, hw.ops⟩, fun x _ => congrFun hb x⟩

end Word

end Qmk.LegacyEeprom
