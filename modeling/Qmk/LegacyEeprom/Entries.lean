import Qmk.LegacyEeprom.Driver

/-! # The entries of the write log

An entry is one of the four things that the log can hold: a byte, a half-word 0
or 1, a half-word with its value in the next slot, or the first slot of such a
half-word whose second slot has stayed erased. Replaying the slots of an entry
has the effect of the entry, and the slots are what the writer programs.
-/

namespace Qmk.LegacyEeprom

section Bits

theorem toNat_bytes (x y : BitVec 8) : (x ++ y : BitVec 16).toNat = 256 * x.toNat + y.toNat := by
  rw [BitVec.toNat_append, ← Nat.shiftLeft_add_eq_or_of_lt y.isLt, Nat.shiftLeft_eq]
  omega

theorem bytes_setWidth (x y : BitVec 8) : (x ++ y : BitVec 16).setWidth 8 = y := by
  apply BitVec.eq_of_toNat_eq
  rw [BitVec.toNat_setWidth, toNat_bytes]
  omega

theorem toNat_bytes_shift (x y : BitVec 8) : ((x ++ y : BitVec 16) >>> 8).toNat = x.toNat := by
  rw [BitVec.toNat_ushiftRight, toNat_bytes, Nat.shiftRight_eq_div_pow]
  omega

theorem bytes_shift_setWidth (x y : BitVec 8) :
    ((x ++ y : BitVec 16) >>> 8).setWidth 8 = x := by
  apply BitVec.eq_of_toNat_eq
  rw [BitVec.toNat_setWidth, toNat_bytes_shift]
  omega

theorem bytes_of_halves (w : BitVec 16) : (w >>> 8).setWidth 8 ++ w.setWidth 8 = w := by
  apply BitVec.eq_of_toNat_eq
  rw [toNat_bytes, BitVec.toNat_setWidth, BitVec.toNat_setWidth, BitVec.toNat_ushiftRight,
    Nat.shiftRight_eq_div_pow]
  omega

theorem bytes_eq_zero {x y : BitVec 8} : (x ++ y : BitVec 16) = 0 ↔ x = 0 ∧ y = 0 := by
  constructor
  · intro h
    constructor
    · rw [← bytes_shift_setWidth x y, h]
      rfl
    · rw [← bytes_setWidth x y, h]
      rfl
  · rintro ⟨rfl, rfl⟩
    rfl

theorem not_eq_empty {w : BitVec 16} : ~~~w = feeEmptyWord ↔ w = 0 := by
  constructor
  · intro h
    rw [← BitVec.not_not (b := w), h]
    rfl
  · rintro rfl
    rfl

theorem empty_and (w : BitVec 16) : feeEmptyWord &&& w = w := by
  rw [show feeEmptyWord = BitVec.allOnes 16 from rfl, BitVec.allOnes_and]

/-- A slot with the tag `t` in its top three bits and the field `n` below. -/
def tagged (t : BitVec 3) (n : ℕ) : BitVec 16 := t ++ BitVec.ofNat 13 n

theorem toNat_tagged (t : BitVec 3) {n : ℕ} (h : n < 8192) :
    (tagged t n).toNat = 8192 * t.toNat + n := by
  have hn : (BitVec.ofNat 13 n).toNat = n := Nat.mod_eq_of_lt h
  rw [tagged, BitVec.toNat_append, ← Nat.shiftLeft_add_eq_or_of_lt (BitVec.isLt _),
    Nat.shiftLeft_eq, hn]
  omega

theorem tagged_and (t u : BitVec 3) (n : ℕ) : tagged t n &&& (u ++ 0#13) = tagged (t &&& u) 0 := by
  rw [tagged, BitVec.and_append, BitVec.and_zero]
  rfl

theorem tagged_and_field (t : BitVec 3) (n : ℕ) : tagged t n &&& 0x1FFF = tagged 0 n := by
  rw [tagged, show (0x1FFF : BitVec 16) = 0#3 ++ BitVec.allOnes 13 by decide, BitVec.and_append,
    BitVec.and_zero, BitVec.and_allOnes]
  rfl

theorem tagged_or (t : BitVec 3) (n : ℕ) : tagged 0 n ||| (t ++ 0#13) = tagged t n := by
  rw [tagged, BitVec.or_append, BitVec.or_zero]
  congr 1
  exact BitVec.zero_or

theorem tagged_ne_empty {t : BitVec 3} {n : ℕ} (h : n < 8191) : tagged t n ≠ feeEmptyWord := by
  intro he
  have hn := congrArg BitVec.toNat he
  rw [toNat_tagged t (by omega)] at hn
  have ht := t.isLt
  simp only [feeEmptyWord] at hn
  change 8192 * t.toNat + n = 65535 at hn
  omega

theorem toNat_field_shift {n : ℕ} (h : n < 8192) : (tagged 0 n <<< 1).toNat = 2 * n := by
  rw [BitVec.toNat_shiftLeft, toNat_tagged 0 h, Nat.shiftLeft_eq]
  change (8192 * 0 + n) * 2 ^ 1 % 65536 = 2 * n
  omega

/-- The writer's form of a field: the even address without its last bit. -/
theorem ofNat_shift_eq_tagged {a : ℕ} (h : a < 16384) :
    BitVec.ofNat 16 a >>> 1 = tagged 0 (a / 2) := by
  apply BitVec.eq_of_toNat_eq
  rw [toNat_tagged 0 (by omega), BitVec.toNat_ushiftRight, BitVec.toNat_ofNat,
    Nat.shiftRight_eq_div_pow]
  change a % 65536 / 2 ^ 1 = 8192 * 0 + a / 2
  omega

theorem ofNat_shift_or (a : ℕ) (v : BitVec 8) :
    (BitVec.ofNat 16 a <<< 8) ||| v.setWidth 16 = BitVec.ofNat 8 a ++ v := by
  have ha : BitVec.ofNat 16 a <<< 8 = BitVec.ofNat 8 a ++ 0#8 := by
    apply BitVec.eq_of_toNat_eq
    rw [toNat_bytes, BitVec.toNat_shiftLeft, BitVec.toNat_ofNat, BitVec.toNat_ofNat,
      Nat.shiftLeft_eq]
    change a % 65536 * 2 ^ 8 % 65536 = 256 * (a % 256) + 0
    omega
  have hv : v.setWidth 16 = 0#8 ++ v := by
    apply BitVec.eq_of_toNat_eq
    rw [toNat_bytes, BitVec.toNat_setWidth]
    have := v.isLt
    change v.toNat % 65536 = 256 * 0 + v.toNat
    omega
  rw [ha, hv, BitVec.or_append, BitVec.or_zero]
  congr 1
  exact BitVec.zero_or

end Bits

section Buffers

variable (buf : Mem (BitVec 8)) (a : ℕ) (w : BitVec 16)

theorem storeHalfWord_of_ne {x : ℕ} (h : x ≠ a) (h' : x ≠ a + 1) :
    storeHalfWord buf a w x = buf x := by
  rcases Nat.lt_or_ge x a with hx | hx
  · exact Mem.write_of_lt _ _ hx
  · exact Mem.write_of_ge _ _ (by change a + 2 ≤ x; omega)

@[simp] theorem storeHalfWord_low : storeHalfWord buf a w a = w.setWidth 8 :=
  Mem.write_add buf (i := 0) (by simp)

@[simp] theorem storeHalfWord_high : storeHalfWord buf a w (a + 1) = (w >>> 8).setWidth 8 :=
  Mem.write_add buf (i := 1) (by simp)

@[simp] theorem halfWord_store : halfWord (storeHalfWord buf a w) a = w := by
  rw [halfWord, storeHalfWord_low, storeHalfWord_high]
  exact bytes_of_halves w

theorem storeHalfWord_congr {buf buf' : Mem (BitVec 8)} {x : ℕ} (h : buf x = buf' x) :
    storeHalfWord buf a w x = storeHalfWord buf' a w x :=
  Mem.write_congr a _ h

theorem store_halfWord : storeHalfWord buf a (halfWord buf a) = buf := by
  funext x
  rcases eq_or_ne x a with rfl | hx
  · rw [storeHalfWord_low, halfWord, bytes_setWidth]
  rcases eq_or_ne x (a + 1) with rfl | hx'
  · rw [storeHalfWord_high, halfWord, bytes_shift_setWidth]
  · exact storeHalfWord_of_ne buf a _ hx hx'

theorem write_singleton_of_ne {x : ℕ} (v : BitVec 8) (h : x ≠ a) : buf.write a [v] x = buf x := by
  rcases Nat.lt_or_ge x a with hx | hx
  · exact Mem.write_of_lt _ _ hx
  · exact Mem.write_of_ge _ _ (by change a + 1 ≤ x; omega)

@[simp] theorem write_singleton_self (v : BitVec 8) : buf.write a [v] a = v :=
  Mem.write_add buf (i := 0) (by simp)

theorem write_singleton_eq : buf.write a [buf a] = buf := by
  funext x
  rcases eq_or_ne x a with rfl | hx
  · exact write_singleton_self buf x _
  · exact write_singleton_of_ne buf a _ hx

end Buffers

inductive Entry
  | byte (a : ℕ) (v : BitVec 8)
  | short (a : ℕ) (one : Bool)
  | next (a : ℕ) (w : BitVec 16)
  | torn (a : ℕ)

namespace Entry

def slots : Entry → List (BitVec 16)
  | .byte a v => [BitVec.ofNat 8 a ++ v]
  | .short a one => [tagged (if one then 5 else 4) (a / 2)]
  | .next a w => [tagged 7 ((a - feeByteRange) / 2), ~~~w]
  | .torn a => [tagged 7 ((a - feeByteRange) / 2), feeEmptyWord]

def apply (buf : Mem (BitVec 8)) : Entry → Mem (BitVec 8)
  | .byte a v => buf.write a [v]
  | .short a one => storeHalfWord buf a (if one then 1 else 0)
  | .next a w => storeHalfWord buf a w
  | .torn _ => buf

/-- The half-word of the compacted area that an entry overrides. -/
def word : Entry → Option ℕ
  | .byte a _ | .short a _ | .next a _ => some (a / 2)
  | .torn _ => none

def Wf (cfg : Config) : Entry → Prop
  | .byte a _ => a < feeByteRange
  | .short a _ => a % 2 = 0 ∧ a < cfg.densityBytes
  | .next a w => a % 2 = 0 ∧ feeByteRange ≤ a ∧ a < cfg.densityBytes ∧ w ≠ 0
  | .torn a => a % 2 = 0 ∧ feeByteRange ≤ a ∧ a < cfg.densityBytes

theorem apply_congr {buf buf' : Mem (BitVec 8)} {x : ℕ} (e : Entry) (h : buf x = buf' x) :
    e.apply buf x = e.apply buf' x := by
  cases e with
  | byte a v => exact Mem.write_congr a _ h
  | short a one => exact storeHalfWord_congr a _ h
  | next a w => exact storeHalfWord_congr a _ h
  | torn a => exact h

theorem apply_of_word_ne {cfg : Config} {e : Entry} (hw : e.Wf cfg) (buf : Mem (BitVec 8)) {x : ℕ}
    (h : e.word ≠ some (x / 2)) : e.apply buf x = buf x := by
  cases e with
  | byte a v =>
    apply write_singleton_of_ne
    rintro rfl
    exact h rfl
  | short a one =>
    obtain ⟨ha, -⟩ := hw
    apply storeHalfWord_of_ne <;> rintro rfl <;> apply h <;> simp only [word, Option.some.injEq]
    omega
  | next a w =>
    obtain ⟨ha, -⟩ := hw
    apply storeHalfWord_of_ne <;> rintro rfl <;> apply h <;> simp only [word, Option.some.injEq]
    omega
  | torn a => rfl

variable {cfg : Config} {log : List (BitVec 16)} {k : ℕ} {buf : Mem (BitVec 8)}

theorem replay_byte {a : ℕ} {v : BitVec 8} (h : a < feeByteRange) :
    replayLog cfg ((BitVec.ofNat 8 a ++ v) :: log) k buf =
      replayLog cfg log (k + 1) (buf.write a [v]) := by
  have hr : feeByteRange = 128 := rfl
  have ha : (BitVec.ofNat 8 a).toNat = a := Nat.mod_eq_of_lt (by omega)
  have hn : BitVec.ofNat 8 a ++ v ≠ feeEmptyWord := by
    intro he
    have hv := toNat_bytes_shift (BitVec.ofNat 8 a) v
    rw [he, ha] at hv
    change 255 = a at hv
    omega
  have hm : ∀ b < 128, BitVec.ofNat 8 b &&& 0x80#8 = 0#8 := by decide
  have he : (BitVec.ofNat 8 a ++ v) &&& feeWordEncoding = 0 := by
    rw [show feeWordEncoding = 0x80#8 ++ 0#8 by decide, BitVec.and_append, BitVec.and_zero,
      hm a (by omega)]
    rfl
  rw [replayLog.eq_def]
  simp only [if_neg hn, if_pos he, bytes_setWidth, toNat_bytes_shift, ha]

theorem replay_short {a : ℕ} {one : Bool} (ha : a % 2 = 0) (h : a < cfg.densityBytes) :
    replayLog cfg (tagged (if one then 5 else 4) (a / 2) :: log) k buf =
      replayLog cfg log (k + 1) (storeHalfWord buf a (if one then 1 else 0)) := by
  have hd := cfg.density_le
  have hw : (tagged 0 (a / 2) <<< 1).toNat = a := by
    rw [toNat_field_shift (by omega)]
    omega
  have hn : tagged (if one then 5 else 4) (a / 2) ≠ feeEmptyWord := by
    intro he
    have hv := congrArg (· &&& (2#3 ++ 0#13)) he
    simp only [tagged_and] at hv
    cases one <;> exact absurd hv (by decide)
  rw [replayLog.eq_def]
  simp only [if_neg hn]
  rw [show feeWordEncoding = 4#3 ++ 0#13 by decide, show feeValueNext = 3#3 ++ 0#13 by decide,
    show feeValueReserved = 2#3 ++ 0#13 by decide, show feeValueEncoded = 1#3 ++ 0#13 by decide]
  simp only [tagged_and, tagged_and_field, replayWord, hw, if_pos h]
  cases one
  · rfl
  · rfl

/-- The two slots of a half-word are read together; the entry is skipped when the second slot is
erased. -/
theorem replay_next {a : ℕ} {y : BitVec 16} (ha : a % 2 = 0) (hr : feeByteRange ≤ a)
    (h : a < cfg.densityBytes) :
    replayLog cfg (tagged 7 ((a - feeByteRange) / 2) :: y :: log) k buf =
      replayLog cfg log (k + 2) (if ~~~y = 0 then buf else storeHalfWord buf a (~~~y)) := by
  have hd := cfg.density_le
  have hb : feeByteRange = 128 := rfl
  have hw : ((tagged 0 ((a - feeByteRange) / 2) <<< 1) + BitVec.ofNat 16 feeByteRange).toNat =
      a := by
    rw [BitVec.toNat_add, toNat_field_shift (by omega), BitVec.toNat_ofNat]
    omega
  have hn : tagged 7 ((a - feeByteRange) / 2) ≠ feeEmptyWord := tagged_ne_empty (by omega)
  have he : tagged 7 ((a - feeByteRange) / 2) &&& feeWordEncoding ≠ 0 := by
    rw [show feeWordEncoding = 4#3 ++ 0#13 by decide, tagged_and]
    decide
  have hx : tagged 7 ((a - feeByteRange) / 2) &&& feeValueNext = feeValueNext := by
    rw [show feeValueNext = 3#3 ++ 0#13 by decide, tagged_and]
    decide
  rw [replayLog.eq_def]
  simp only [if_neg hn, if_neg he, if_pos hx, tagged_and_field, replayWord, hw, if_pos h]
  split_ifs
  · rfl
  · rfl

theorem replay_slots {e : Entry} (h : e.Wf cfg) :
    replayLog cfg (e.slots ++ log) k buf =
      replayLog cfg log (k + e.slots.length) (e.apply buf) := by
  cases e with
  | byte a v => exact replay_byte h
  | short a one => exact replay_short h.1 h.2
  | next a w =>
    obtain ⟨ha, hr, hd, hw⟩ := h
    have hn : ~~~(~~~w) ≠ 0 := by rwa [BitVec.not_not]
    refine (replay_next ha hr hd).trans ?_
    rw [if_neg hn, BitVec.not_not]
    rfl
  | torn a => exact replay_next h.1 h.2.1 h.2.2

end Entry

end Qmk.LegacyEeprom
