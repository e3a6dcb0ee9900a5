import Qmk.EncoderSplit
import Qmk.Gf2

/-! # Checksums

`crc8` in its two builds. The one with a table divides by another polynomial than the one with a
loop over the bits, so that the two agree only where the remainder by both polynomials at once is
short. Each of them finds every burst of eight bits.
-/

namespace Qmk.Crc

open Gf2 Polynomial

/-- `crc_t`, which is `uint_least8_t` or `uint_fast8_t`. -/
structure CrcType where
  width : ℕ
  eight_le : 8 ≤ width

section Model

variable (t : CrcType)

def crcTable : List (BitVec 8) :=
  [0x00, 0x07, 0x0e, 0x09, 0x1c, 0x1b, 0x12, 0x15, 0x38, 0x3f, 0x36, 0x31, 0x24, 0x23, 0x2a, 0x2d,
    0x70, 0x77, 0x7e, 0x79, 0x6c, 0x6b, 0x62, 0x65, 0x48, 0x4f, 0x46, 0x41, 0x54, 0x53, 0x5a, 0x5d,
    0xe0, 0xe7, 0xee, 0xe9, 0xfc, 0xfb, 0xf2, 0xf5, 0xd8, 0xdf, 0xd6, 0xd1, 0xc4, 0xc3, 0xca, 0xcd,
    0x90, 0x97, 0x9e, 0x99, 0x8c, 0x8b, 0x82, 0x85, 0xa8, 0xaf, 0xa6, 0xa1, 0xb4, 0xb3, 0xba, 0xbd,
    0xc7, 0xc0, 0xc9, 0xce, 0xdb, 0xdc, 0xd5, 0xd2, 0xff, 0xf8, 0xf1, 0xf6, 0xe3, 0xe4, 0xed, 0xea,
    0xb7, 0xb0, 0xb9, 0xbe, 0xab, 0xac, 0xa5, 0xa2, 0x8f, 0x88, 0x81, 0x86, 0x93, 0x94, 0x9d, 0x9a,
    0x27, 0x20, 0x29, 0x2e, 0x3b, 0x3c, 0x35, 0x32, 0x1f, 0x18, 0x11, 0x16, 0x03, 0x04, 0x0d, 0x0a,
    0x57, 0x50, 0x59, 0x5e, 0x4b, 0x4c, 0x45, 0x42, 0x6f, 0x68, 0x61, 0x66, 0x73, 0x74, 0x7d, 0x7a,
    0x89, 0x8e, 0x87, 0x80, 0x95, 0x92, 0x9b, 0x9c, 0xb1, 0xb6, 0xbf, 0xb8, 0xad, 0xaa, 0xa3, 0xa4,
    0xf9, 0xfe, 0xf7, 0xf0, 0xe5, 0xe2, 0xeb, 0xec, 0xc1, 0xc6, 0xcf, 0xc8, 0xdd, 0xda, 0xd3, 0xd4,
    0x69, 0x6e, 0x67, 0x60, 0x75, 0x72, 0x7b, 0x7c, 0x51, 0x56, 0x5f, 0x58, 0x4d, 0x4a, 0x43, 0x44,
    0x19, 0x1e, 0x17, 0x10, 0x05, 0x02, 0x0b, 0x0c, 0x21, 0x26, 0x2f, 0x28, 0x3d, 0x3a, 0x33, 0x34,
    0x4e, 0x49, 0x40, 0x47, 0x52, 0x55, 0x5c, 0x5b, 0x76, 0x71, 0x78, 0x7f, 0x6a, 0x6d, 0x64, 0x63,
    0x3e, 0x39, 0x30, 0x37, 0x22, 0x25, 0x2c, 0x2b, 0x06, 0x01, 0x08, 0x0f, 0x1a, 0x1d, 0x14, 0x13,
    0xae, 0xa9, 0xa0, 0xa7, 0xb2, 0xb5, 0xbc, 0xbb, 0x96, 0x91, 0x98, 0x9f, 0x8a, 0x8d, 0x84, 0x83,
    0xde, 0xd9, 0xd0, 0xd7, 0xc2, 0xc5, 0xcc, 0xcb, 0xe6, 0xe1, 0xe8, 0xef, 0xfa, 0xfd, 0xf4, 0xf3]

/-- A round of the loop of `crc8` with `CRC8_USE_TABLE`. -/
def tableStep (crc : BitVec t.width) (d : BitVec 8) : BitVec t.width :=
  let tblIdx := crc ^^^ d.setWidth t.width
  (crcTable.getD tblIdx.toNat 0).setWidth t.width &&& 0xff

def crc8Table (data : List (BitVec 8)) : BitVec 8 :=
  (data.foldl (tableStep t) 0xff).setWidth 8

/-- A round of the inner loop of `crc8` without `CRC8_USE_TABLE`. -/
def bitStep (crc : BitVec t.width) : BitVec t.width :=
  if crc &&& 0x80 ≠ 0 then (crc <<< 1) ^^^ 0x31 else crc <<< 1

/-- `crc8` without `CRC8_USE_TABLE`. -/
def crc8Bitwise (data : List (BitVec 8)) : BitVec 8 :=
  (data.foldl (fun crc d => (bitStep t)^[8] (crc ^^^ d.setWidth t.width)) 0xff).setWidth 8

end Model

section Registers

variable {t : CrcType}

theorem crcTable_eq :
    crcTable = (List.range 256).map fun v => (shift 0x07#8)^[8] (BitVec.ofNat 8 v) := by
  decide +kernel

theorem getD_crcTable (v : BitVec 8) : crcTable.getD v.toNat 0 = (shift 0x07#8)^[8] v := by
  have hlt : v.toNat < (List.range 256).length := by
    rw [List.length_range]
    exact v.isLt
  rw [crcTable_eq, List.getD_eq_getElem _ _ (by rwa [List.length_map])]
  simp

/-- The bit that leaves the byte, in every width of `crc_t`. -/
theorem and_ne_zero_iff (crc : BitVec t.width) :
    crc &&& 0x80 ≠ 0 ↔ (crc.setWidth 8).msb = true := by
  have hwidth := t.eight_le
  have hpow : (0x80 : BitVec t.width) = BitVec.twoPow t.width 7 := by
    apply BitVec.eq_of_toNat_eq
    simp [BitVec.toNat_twoPow]
  have hne : BitVec.twoPow t.width 7 ≠ 0 := by
    intro h
    have hbit := congrArg (fun x => x.getLsbD 7) h
    simp [show 7 < t.width by omega] at hbit
  rw [hpow, BitVec.and_twoPow, BitVec.msb_setWidth]
  cases crc.getLsbD 7 <;> simp_all

theorem setWidth_bitStep (crc : BitVec t.width) :
    (bitStep t crc).setWidth 8 = shift 0x31#8 (crc.setWidth 8) := by
  have hwidth := t.eight_le
  have hshift : (crc <<< 1).setWidth 8 = crc.setWidth 8 <<< 1 :=
    BitVec.setWidth_shiftLeft_of_le hwidth
  have hconst : (0x31 : BitVec t.width).setWidth 8 = 0x31#8 :=
    BitVec.setWidth_ofNat_of_le hwidth _
  unfold bitStep shift
  rw [if_congr (and_ne_zero_iff crc) rfl rfl, apply_ite (BitVec.setWidth 8), BitVec.setWidth_xor,
    hshift, hconst]

theorem setWidth_setWidth (d : BitVec 8) : (d.setWidth t.width).setWidth 8 = d := by
  rw [BitVec.setWidth_setWidth_of_le _ t.eight_le, BitVec.setWidth_eq]

theorem setWidth_iterate (k : ℕ) (crc : BitVec t.width) :
    ((bitStep t)^[k] crc).setWidth 8 = (shift 0x31#8)^[k] (crc.setWidth 8) := by
  induction k generalizing crc with
  | zero => rfl
  | succ k ih => rw [Function.iterate_succ_apply, ih, setWidth_bitStep, Function.iterate_succ_apply]

theorem setWidth_init : (0xff : BitVec t.width).setWidth 8 = 0xff#8 :=
  BitVec.setWidth_ofNat_of_le t.eight_le _

theorem crc8Bitwise_eq (data : List (BitVec 8)) :
    crc8Bitwise t data = checksum 0x31#8 0xff#8 data := by
  have hfold : ∀ crc : BitVec t.width,
      (data.foldl (fun crc d => (bitStep t)^[8] (crc ^^^ d.setWidth t.width)) crc).setWidth 8 =
        checksum 0x31#8 (crc.setWidth 8) data := by
    induction data with
    | nil => exact fun _ => rfl
    | cons d data ih =>
      intro crc
      rw [List.foldl_cons, ih, setWidth_iterate, BitVec.setWidth_xor, setWidth_setWidth]
      rfl
  rw [crc8Bitwise, hfold, setWidth_init]

theorem tableStep_setWidth (crc d : BitVec 8) :
    tableStep t (crc.setWidth t.width) d = ((shift 0x07#8)^[8] (crc ^^^ d)).setWidth t.width := by
  have hwidth := t.eight_le
  have hindex : (crc.setWidth t.width ^^^ d.setWidth t.width).toNat = (crc ^^^ d).toNat := by
    rw [← BitVec.setWidth_xor, BitVec.toNat_setWidth_of_le hwidth]
  unfold tableStep
  dsimp only
  rw [hindex, getD_crcTable]
  generalize (shift 0x07#8)^[8] (crc ^^^ d) = x
  have hmask : (0xff : BitVec t.width) = (BitVec.allOnes 8).setWidth t.width :=
    BitVec.ofNat_toNat t.width (BitVec.allOnes 8)
  rw [hmask, ← BitVec.setWidth_and, BitVec.and_allOnes]

theorem crc8Table_eq (data : List (BitVec 8)) :
    crc8Table t data = checksum 0x07#8 0xff#8 data := by
  have hfold : ∀ crc : BitVec 8, (data.foldl (tableStep t) (crc.setWidth t.width)).setWidth 8 =
      checksum 0x07#8 crc data := by
    induction data with
    | nil => exact fun crc => setWidth_setWidth crc
    | cons d data ih =>
      intro crc
      rw [List.foldl_cons, tableStep_setWidth, ih]
      rfl
  have hinit : (0xff : BitVec t.width) = (0xff#8).setWidth t.width :=
    BitVec.ofNat_toNat t.width 0xff#8
  rw [crc8Table, hinit, hfold]

end Registers

section Polynomials

/-- The common multiple of the two moduli, without the factor `X + 1` that they share. -/
noncomputable def commonModulus : (ZMod 2)[X] := modulus 0x07#8 * modulus 0x6f#7

theorem two_eq_zero : (2 : (ZMod 2)[X]) = 0 := CharTwo.two_eq_zero

theorem modulus_table : modulus 0x07#8 = (X + 1) * modulus 0x7d#7 := by
  have h : bits 0x07#8 = [false, false, false, false, false, true, true, true] := by decide
  have h' : bits 0x7d#7 = [true, true, true, true, true, false, true] := by decide
  rw [modulus, toPoly, h, modulus, toPoly, h']
  simp only [ofBits, List.foldl, if_true, Bool.false_eq_true, if_false]
  linear_combination (-X ^ 3 - X ^ 4 - X ^ 5 - X ^ 6 - X ^ 7) * two_eq_zero

theorem modulus_bitwise : modulus 0x31#8 = (X + 1) * modulus 0x6f#7 := by
  have h : bits 0x31#8 = [false, false, true, true, false, false, false, true] := by decide
  have h' : bits 0x6f#7 = [true, true, false, true, true, true, true] := by decide
  rw [modulus, toPoly, h, modulus, toPoly, h']
  simp only [ofBits, List.foldl, if_true, Bool.false_eq_true, if_false]
  linear_combination (-X - X ^ 2 - X ^ 3 - X ^ 6 - X ^ 7) * two_eq_zero

theorem cofactors_coprime :
    (X ^ 3 + X ^ 2 + X + 1) * modulus 0x7d#7 + (X ^ 3 + X ^ 2 + X) * modulus 0x6f#7 = 1 := by
  have h : bits 0x7d#7 = [true, true, true, true, true, false, true] := by decide
  have h' : bits 0x6f#7 = [true, true, false, true, true, true, true] := by decide
  rw [modulus, toPoly, h, modulus, toPoly, h']
  simp only [ofBits, List.foldl, if_true, Bool.false_eq_true, if_false]
  linear_combination (X + 2 * X ^ 2 + 3 * X ^ 3 + 3 * X ^ 4 + 3 * X ^ 5 + 3 * X ^ 6 + 3 * X ^ 7 +
    3 * X ^ 8 + 2 * X ^ 9 + X ^ 10) * two_eq_zero

theorem commonModulus_dvd_iff (p : (ZMod 2)[X]) :
    commonModulus ∣ p ↔ modulus 0x07#8 ∣ p ∧ modulus 0x31#8 ∣ p := by
  constructor
  · intro h
    refine ⟨(dvd_mul_right _ _).trans h, (Dvd.intro_left (modulus 0x7d#7) ?_).trans h⟩
    rw [commonModulus, modulus_table, modulus_bitwise]
    ring
  · rintro ⟨⟨s, hs⟩, ⟨r, hr⟩⟩
    refine ⟨r * (X ^ 3 + X ^ 2 + X + 1) + s * (X ^ 3 + X ^ 2 + X), ?_⟩
    rw [modulus_table] at hs
    rw [modulus_bitwise] at hr
    rw [commonModulus, modulus_table]
    calc p = p * ((X ^ 3 + X ^ 2 + X + 1) * modulus 0x7d#7 +
          (X ^ 3 + X ^ 2 + X) * modulus 0x6f#7) := by rw [cofactors_coprime, mul_one]
      _ = _ := by linear_combination (X ^ 3 + X ^ 2 + X + 1) * modulus 0x7d#7 * hr +
          (X ^ 3 + X ^ 2 + X) * modulus 0x6f#7 * hs

/-- The builds agree where the remainder by the common modulus is short. -/
theorem crc8Table_eq_crc8Bitwise_iff (t t' : CrcType) (data : List (BitVec 8)) :
    crc8Table t data = crc8Bitwise t' data ↔
      (dividend 0xff#8 data %ₘ commonModulus).degree < 8 := by
  rw [crc8Table_eq, crc8Bitwise_eq]
  exact checksum_eq_checksum_iff ((monic_modulus _).mul (monic_modulus _)) commonModulus_dvd_iff
    0xff#8 data

theorem crc8_zero_differs :
    crc8Table ⟨8, le_rfl⟩ [0] = 0xf3#8 ∧ crc8Bitwise ⟨8, le_rfl⟩ [0] = 0xac#8 := by
  decide

end Polynomials

section Bursts

/-- Bits that differ within eight places make a difference in both builds. -/
theorem crc8_ne_of_burst (t : CrcType) {data data' : List (BitVec 8)} (hne : data ≠ data')
    (hlength : data.length = data'.length) {k : ℕ}
    (hburst : ∀ i, (data.flatMap bits)[i]? ≠ (data'.flatMap bits)[i]? → k ≤ i ∧ i < k + 8) :
    crc8Table t data ≠ crc8Table t data' ∧ crc8Bitwise t data ≠ crc8Bitwise t data' := by
  rw [crc8Table_eq, crc8Table_eq, crc8Bitwise_eq, crc8Bitwise_eq]
  exact ⟨checksum_ne_of_burst (by decide) hne hlength hburst,
    checksum_ne_of_burst (by decide) hne hlength hburst⟩

/-- A burst over the border of two bytes. -/
theorem crc8_ne_border :
    crc8Table ⟨8, le_rfl⟩ [0x12, 0x34] ≠ crc8Table ⟨8, le_rfl⟩ [0x1f, 0xc4] ∧
      crc8Bitwise ⟨8, le_rfl⟩ [0x12, 0x34] ≠ crc8Bitwise ⟨8, le_rfl⟩ [0x1f, 0xc4] := by
  have hne : [0x12#8, 0x34#8] ≠ [0x1f#8, 0xc4#8] := by decide
  apply crc8_ne_of_burst ⟨8, le_rfl⟩ hne rfl (k := 4)
  intro i hi
  have hshort : ∀ i < 16, ([0x12#8, 0x34#8].flatMap bits)[i]? ≠
      ([0x1f#8, 0xc4#8].flatMap bits)[i]? → 4 ≤ i ∧ i < 4 + 8 := by decide
  apply hshort i ?_ hi
  by_contra hlong
  apply hi
  rw [List.getElem?_eq_none (not_lt.mp hlong), List.getElem?_eq_none (not_lt.mp hlong)]

end Bursts

section EightBits

theorem encoderSplit_crc8_eq (data : List UInt8) :
    (EncoderSplit.crc8 data).toBitVec = crc8Bitwise ⟨8, le_rfl⟩ (data.map UInt8.toBitVec) := by
  have hbit : Function.Semiconj UInt8.toBitVec EncoderSplit.crcBit (bitStep ⟨8, le_rfl⟩) := by
    intro crc
    have hif : (crc &&& 0x80 ≠ 0) ↔ crc.toBitVec &&& 0x80 ≠ 0 := by
      rw [← UInt8.toBitVec_inj.ne]
      rfl
    unfold EncoderSplit.crcBit bitStep
    rw [apply_ite UInt8.toBitVec, if_congr hif rfl rfl]
    rfl
  rw [EncoderSplit.crc8, crc8Bitwise, List.foldl_map, BitVec.setWidth_eq]
  apply (List.foldl_hom UInt8.toBitVec ?_).symm
  intro crc d
  rw [(hbit.iterate_right 8).eq, UInt8.toBitVec_xor]
  exact congrArg (fun d => (bitStep ⟨8, le_rfl⟩)^[8] (crc.toBitVec ^^^ d)) (BitVec.setWidth_eq _)

end EightBits

end Qmk.Crc
