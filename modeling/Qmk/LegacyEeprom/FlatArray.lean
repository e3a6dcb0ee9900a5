import Qmk.LegacyEeprom.Runs

/-! # The legacy EEPROM as a durable array

The abstract device is an array of bytes that an erase sets to zero. The driver
refines it in every run whose word writes are safe: reads return the bytes of the
array, and the initialisation rebuilds the copy in RAM and the end of the log.
-/

namespace Qmk.LegacyEeprom

variable {cfg : Config}

def Call.apply (m : Mem (BitVec 8)) : Call → Mem (BitVec 8)
  | .init => m
  | .erase => fun _ => 0
  | .write w => w.apply m
  | .block a v => m.write a v

/-- The array after a sequence of calls that starts with all bytes zero. -/
def flatArray (calls : List Call) : Mem (BitVec 8) := calls.foldl Call.apply fun _ => 0

/-- Every byte that the call addresses is inside the EEPROM. -/
def Call.InRange (cfg : Config) : Call → Prop
  | .init | .erase => True
  | .write (.byte a _) => a < cfg.densityBytes
  | .write (.word a _) => a + 1 < cfg.densityBytes
  | .block a v => a + v.length ≤ cfg.densityBytes

instance : ∀ c : Call, Decidable (c.InRange cfg)
  | .init | .erase => isTrue trivial
  | .write (.byte a _) => inferInstanceAs (Decidable (a < cfg.densityBytes))
  | .write (.word a _) => inferInstanceAs (Decidable (a + 1 < cfg.densityBytes))
  | .block a v => inferInstanceAs (Decidable (a + v.length ≤ cfg.densityBytes))

theorem toAddress_of_le (cfg : Config) {p : ℕ} (h : p ≤ cfg.densityBytes) : toAddress p = p := by
  have := cfg.density_le
  exact Nat.mod_eq_of_lt (by omega)

section Blocks

theorem storeHalfWord_bytes (m : Mem (BitVec 8)) (a : ℕ) (b₀ b₁ : BitVec 8) :
    storeHalfWord m a (b₁ ++ b₀) = m.write a [b₀, b₁] := by
  rw [storeHalfWord, bytes_setWidth, bytes_shift_setWidth]

theorem foldl_wordWrites (cfg : Config) (buf : List (BitVec 8)) (dest : ℕ) (m : Mem (BitVec 8))
    (h : dest + buf.length ≤ cfg.densityBytes) :
    (wordWrites buf dest).foldl Write.apply m = m.write dest buf := by
  have ht : toAddress dest = dest := toAddress_of_le cfg (by omega)
  fun_induction wordWrites buf dest generalizing m with
  | case1 _ => exact (Mem.write_nil m _).symm
  | case2 b dest =>
    rw [ht]
    rfl
  | case3 b₀ b₁ buf dest ih =>
    simp only [List.length_cons] at h
    have hw : m.write dest (b₀ :: b₁ :: buf) = (m.write dest [b₀, b₁]).write (dest + 2) buf :=
      Mem.write_append m dest [b₀, b₁] buf
    rw [List.foldl_cons, ih _ (by omega) (toAddress_of_le cfg (by omega)), hw, ht,
      Write.apply, storeHalfWord_bytes]

theorem foldl_blockWrites (cfg : Config) (buf : List (BitVec 8)) (dest : ℕ) (m : Mem (BitVec 8))
    (h : dest + buf.length ≤ cfg.densityBytes) :
    (blockWrites buf dest).foldl Write.apply m = m.write dest buf := by
  cases buf with
  | nil => exact (Mem.write_nil m _).symm
  | cons b bs =>
    simp only [blockWrites]
    split_ifs
    · rw [List.length_cons] at h
      have hw : m.write dest (b :: bs) = (m.write dest [b]).write (dest + 1) bs :=
        Mem.write_append m dest [b] bs
      rw [List.foldl_cons, foldl_wordWrites cfg bs _ _ (by omega), hw,
        toAddress_of_le cfg (by omega)]
      rfl
    · exact foldl_wordWrites cfg _ _ _ h

end Blocks

/-- The driver stands for the array `m`, in RAM and in the flash. -/
structure Refines (cfg : Config) (s : State) (m : Mem (BitVec 8)) : Prop where
  synced : Synced cfg s
  data_eq : ∀ x < cfg.densityBytes, s.dataBuf x = m x

namespace Refines

variable {s : State} {m : Mem (BitVec 8)}

theorem of_init (h : Holds cfg s.flash 0 m) : Refines cfg (eepromInit cfg s) m :=
  ⟨.of_init h, (h.init rfl).2.1⟩

theorem write (h : Refines cfg s m) {w : Write} (hw : w.Safe cfg s) :
    Refines cfg (w.run cfg s) (w.apply m) := by
  obtain ⟨hwr, hb⟩ := h.synced.wrote hw
  refine ⟨h.synced.write hw, ?_⟩
  intro x hx
  rw [hb x hx]
  cases w with
  | byte a v => exact Mem.write_congr a _ (h.data_eq x hx)
  | word a w => exact storeHalfWord_congr a _ (h.data_eq x hx)

theorem writes (h : Refines cfg s m) {ws : List Write} (hw : (writeGuard cfg).Accepts s ws) :
    Refines cfg ((writeGuard cfg).after s ws) (ws.foldl Write.apply m) := by
  induction ws generalizing s m with
  | nil => exact h
  | cons w ws ih => exact ih (h.write hw.1) hw.2

theorem step (h : Refines cfg s m) {c : Call} (hin : c.InRange cfg) (hc : (callGuard cfg).ok s c) :
    Refines cfg (step cfg s c) (c.apply m) := by
  cases c with
  | init =>
    change Refines cfg (eepromInit cfg s) m
    rwa [h.synced.init_eq]
  | erase => exact of_init (.erased fun _ _ => rfl)
  | write w => exact h.write hc.1
  | block a v =>
    change Refines cfg (eepromWriteBlock cfg v a s) (m.write a v)
    rw [writeBlock_eq, ← foldl_blockWrites cfg v a m hin]
    exact h.writes hc

theorem run (h : Refines cfg s m) {calls : List Call} (hin : ∀ c ∈ calls, c.InRange cfg)
    (hc : (callGuard cfg).Accepts s calls) : Refines cfg (run cfg s calls)
      (calls.foldl Call.apply m) := by
  induction calls generalizing s m with
  | nil => exact h
  | cons c calls ih =>
    exact ih (h.step (hin c List.mem_cons_self) hc.1)
      (fun d hd => hin d (List.mem_cons_of_mem _ hd)) hc.2

theorem readByte (h : Refines cfg s m) {a : ℕ} (ha : a < cfg.densityBytes) :
    eepromReadDataByte cfg a s = m a := by
  rw [eepromReadDataByte, if_pos ha, h.data_eq a ha]

theorem readWord (h : Refines cfg s m) {a : ℕ} (ha : a + 1 < cfg.densityBytes) :
    eepromReadDataWord cfg a s = m (a + 1) ++ m a := by
  have hlow := h.data_eq a (by omega)
  have hhigh := h.data_eq (a + 1) ha
  have hbytes := ofNat_shift_or (m (a + 1)).toNat (m a)
  rw [BitVec.ofNat_toNat, BitVec.ofNat_toNat, BitVec.setWidth_eq] at hbytes
  rw [eepromReadDataWord, if_pos (by omega)]
  split_ifs
  · rw [hlow, hhigh, BitVec.or_comm, hbytes]
  · rw [halfWord, hlow, hhigh]

theorem readWords (h : Refines cfg s m) (src len : ℕ) (hin : src + len ≤ cfg.densityBytes) :
    readWords cfg s src len = m.read src len := by
  have ht : toAddress src = src := toAddress_of_le cfg (by omega)
  fun_induction LegacyEeprom.readWords cfg s src len with
  | case1 _ => rfl
  | case2 src =>
    rw [ht, h.readByte (by omega)]
    rfl
  | case3 src len value ih =>
    have hv : value = m (src + 1) ++ m src := by
      rw [← h.readWord (by omega), ← ht]
    have hr : m.read src (len + 2) = m src :: m (src + 1) :: m.read (src + 2) len := by
      rw [Nat.add_comm len 2, Mem.read_append]
      rfl
    rw [ih (by omega) (toAddress_of_le cfg (by omega)), hr, hv, bytes_setWidth,
      bytes_shift_setWidth]

theorem readBlock (h : Refines cfg s m) {src len : ℕ} (hin : src + len ≤ cfg.densityBytes) :
    eepromReadBlock cfg src len s = m.read src len := by
  rw [eepromReadBlock]
  split_ifs with hc
  · obtain ⟨n, rfl⟩ : ∃ n, len = 1 + n := ⟨len - 1, by omega⟩
    rw [toAddress_of_le cfg (by omega), h.readByte (by omega), Nat.add_sub_cancel_left,
      h.readWords _ _ (by omega), Mem.read_append]
    rfl
  · exact h.readWords _ _ hin

end Refines

/-- The driver is started by an erase, or by an initialisation on an erased flash. -/
def Boots (cfg : Config) (s : State) : Call → Prop
  | .erase => True
  | .init => ∀ i < cfg.words + cfg.slots, s.flash i = feeEmptyWord
  | _ => False

theorem Boots.refines {s : State} {boot : Call} (h : Boots cfg s boot) :
    Refines cfg (step cfg s boot) fun _ => 0 := by
  cases boot with
  | erase => exact .of_init (.erased fun _ _ => rfl)
  | init => exact .of_init (.erased h)
  | write w => exact h.elim
  | block a v => exact h.elim

/-- In every run whose word writes are safe, byte, word and block reads return the bytes of the
array, the initialisation changes nothing, and it rebuilds RAM from the flash alone. -/
theorem durable_array_of_safe {s₀ : State} {boot : Call} (hb : Boots cfg s₀ boot)
    {calls : List Call} (hin : ∀ c ∈ calls, c.InRange cfg)
    (hc : (callGuard cfg).Accepts (step cfg s₀ boot) calls) :
    (∀ a < cfg.densityBytes,
      eepromReadDataByte cfg a (run cfg s₀ (boot :: calls)) = flatArray calls a) ∧
    (∀ a, a + 1 < cfg.densityBytes → eepromReadDataWord cfg a (run cfg s₀ (boot :: calls)) =
      flatArray calls (a + 1) ++ flatArray calls a) ∧
    (∀ a n, a + n ≤ cfg.densityBytes →
      eepromReadBlock cfg a n (run cfg s₀ (boot :: calls)) = (flatArray calls).read a n) ∧
    eepromInit cfg (run cfg s₀ (boot :: calls)) = run cfg s₀ (boot :: calls) ∧
    ∀ t : State, t.flash = (run cfg s₀ (boot :: calls)).flash →
      (eepromInit cfg t).emptySlot = (run cfg s₀ (boot :: calls)).emptySlot ∧
      ∀ x < cfg.densityBytes,
        (eepromInit cfg t).dataBuf x = (run cfg s₀ (boot :: calls)).dataBuf x := by
  have h : Refines cfg (LegacyEeprom.run cfg s₀ (boot :: calls)) (flatArray calls) :=
    hb.refines.run hin hc
  refine ⟨fun a ha => h.readByte ha, fun a ha => h.readWord ha, fun a n hn => h.readBlock hn,
    h.synced.init_eq, ?_⟩
  intro t ht
  obtain ⟨hk, hx, -⟩ := h.synced.init ht
  exact ⟨hk, hx⟩

/-- The smallest EEPROM, with a write log of the given size. -/
def Config.smallest (writeLogBytes : ℕ) (h : writeLogBytes % 2 = 0) : Config :=
  ⟨128, writeLogBytes, rfl, h, le_rfl, by decide⟩

def State.blank : State := ⟨fun _ => feeEmptyWord, fun _ => 0, 0, []⟩

/-- A word write whose first byte finds the log full, and a block write over it. -/
def compactingRun : List Call :=
  [.write (.word 0 0x0101), .write (.byte 0 2), .write (.word 0 0x0303), .block 1 [5, 6, 7]]

theorem durable_array_of_safe_compacting :
    (callGuard (.smallest 2 rfl)).Accepts (step (.smallest 2 rfl) .blank .init) compactingRun ∧
    eepromReadBlock (.smallest 2 rfl) 0 5 (run (.smallest 2 rfl) .blank (.init :: compactingRun)) =
      [3, 5, 6, 7, 0] := by
  have hc : (callGuard (.smallest 2 rfl)).Accepts (step (.smallest 2 rfl) .blank .init)
      compactingRun := by decide +kernel
  have h := @durable_array_of_safe (.smallest 2 rfl) .blank .init (fun _ _ => rfl) compactingRun
    (by decide) hc
  refine ⟨hc, (h.2.2.1 0 5 (by decide)).trans ?_⟩
  decide

/-- A word 0 over a full log, and a direct write to the half-word that it leaves erased. -/
def staleZeroRun : List Call :=
  [.write (.word 0 0x0101), .write (.byte 0 2), .write (.word 0 0), .write (.word 0 0x0505)]

/-- The log replays the zero over the direct write. -/
theorem init_replays_stale_zero :
    (∀ c ∈ staleZeroRun, c.InRange (.smallest 2 rfl)) ∧
    (run (.smallest 2 rfl) .blank (.init :: staleZeroRun)).dataBuf 1 = 5 ∧
    (eepromInit (.smallest 2 rfl)
      (run (.smallest 2 rfl) .blank (.init :: staleZeroRun))).dataBuf 1 = 0 := by
  decide +kernel

end Qmk.LegacyEeprom
