import Mathlib.Data.Nat.Bitwise
import Mathlib.Tactic.Linarith
import Qmk.Memory

/-! # Decoding UTF-8

A code point is decoded from as many bytes as the first of them asks for, whatever the others are.
The loops over a string decode one code point behind the other until they come to a zero. They come
to the zero that ends the string as long as no first byte asks for that zero, too.
-/

namespace Qmk.Utf8

/-- What is decoded, where the next code point begins, and the bytes that are looked at. -/
structure Decoded where
  codePoint : ℤ
  next : ℕ
  reads : List ℕ
  deriving DecidableEq

/-- The branches of `decode_utf8` at an address, where a `char` has no sign. -/
def decodeBytes (str : Mem (BitVec 8)) (p : ℕ) : Decoded :=
  let bits (i mask : ℕ) := (str (p + i)).toNat &&& mask
  if (str p).toNat < 0x80 then ⟨(str p).toNat, p + 1, [p]⟩
  else if bits 0 0xE0 = 0xC0 then
    ⟨(bits 0 0x1F <<< 6 ||| bits 1 0x3F : ℕ), p + 2, [p, p + 1]⟩
  else if bits 0 0xF0 = 0xE0 then
    ⟨(bits 0 0x0F <<< 12 ||| bits 1 0x3F <<< 6 ||| bits 2 0x3F : ℕ), p + 3, [p, p + 1, p + 2]⟩
  else if bits 0 0xF8 = 0xF0 ∧ (str p).toNat ≤ 0xF4 then
    ⟨(bits 0 0x07 <<< 18 ||| bits 1 0x3F <<< 12 ||| bits 2 0x3F <<< 6 ||| bits 3 0x3F : ℕ), p + 4,
      [p, p + 1, p + 2, p + 3]⟩
  else ⟨-1, p + 1, [p]⟩

/-- `decode_utf8`, for which a part of a surrogate pair is no code point. -/
def decodeUtf8 (str : Mem (BitVec 8)) (p : ℕ) : Decoded :=
  let decoded := decodeBytes str p
  if 0xD800 ≤ decoded.codePoint ∧ decoded.codePoint ≤ 0xDFFF then { decoded with codePoint := -1 }
  else decoded

/-- What a loop over a string reads and decodes, and the zero it stops at, unless it ends early. -/
structure Run where
  reads : List ℕ
  codePoints : List ℤ
  stop : Option ℕ
  deriving DecidableEq

def Run.behind (run : Run) (reads : List ℕ) (codePoint : ℤ) : Run :=
  ⟨reads ++ run.reads, codePoint :: run.codePoints, run.stop⟩

/-- A loop over a string from an address on, which ends early when `ends` says so of the code point
with a number. It has no value if it does not come to an end in `fuel` rounds. -/
def iterate (str : Mem (BitVec 8)) (ends : ℕ → ℤ → Bool) : ℕ → ℕ → ℕ → Option Run
  | 0, _, _ => none
  | fuel + 1, k, p =>
    if str p = 0 then some ⟨[p], [], some p⟩
    else
      let decoded := decodeUtf8 str p
      if ends k decoded.codePoint then some ⟨p :: decoded.reads, [decoded.codePoint], none⟩
      else
        (iterate str ends fuel (k + 1) decoded.next).map
          (·.behind (p :: decoded.reads) decoded.codePoint)

/-- The loop of `send_unicode_string`, which passes over what is no code point. -/
def sendUnicodeString (str : Mem (BitVec 8)) (fuel p : ℕ) : Option Run :=
  iterate str (fun _ _ => false) fuel 0 p

/-- The loop of `qp_iterate_code_points`, with what the preparation of a glyph and the handler
answer to the code point with a number. -/
def qpIterateCodePoints (str : Mem (BitVec 8)) (prepare handler : ℕ → ℤ → Bool) (fuel p : ℕ) :
    Option Run :=
  iterate str (fun k c => c < 0 || !prepare k c || !handler k c) fuel 0 p

/-- The number of bytes that a first byte asks for. -/
def sequenceLength (lead : BitVec 8) : ℕ :=
  if lead.toNat < 0xC0 then 1
  else if lead.toNat < 0xE0 then 2
  else if lead.toNat < 0xF0 then 3
  else if lead.toNat ≤ 0xF4 then 4
  else 1

def tailBits (b : BitVec 8) : ℕ := b.toNat % 64

/-- The bytes do not begin a code point: the first byte does not begin one, or they are a part of a
surrogate pair in three or in four bytes. -/
def Refused (str : Mem (BitVec 8)) (p : ℕ) : Prop :=
  (0x80 ≤ (str p).toNat ∧ (str p).toNat < 0xC0) ∨ 0xF4 < (str p).toNat ∨
    (str p = 0xED ∧ 32 ≤ tailBits (str (p + 1))) ∨
      (str p = 0xF0 ∧ tailBits (str (p + 1)) = 13 ∧ 32 ≤ tailBits (str (p + 2)))

instance (str : Mem (BitVec 8)) (p : ℕ) : Decidable (Refused str p) :=
  inferInstanceAs (Decidable (_ ∨ _ ∨ _ ∨ _))

/-- The bytes are not those of a number beyond the last code point. -/
def InRange (str : Mem (BitVec 8)) (p : ℕ) : Prop :=
  str p = 0xF4 → tailBits (str (p + 1)) < 16

def IsScalar (c : ℤ) : Prop :=
  0 ≤ c ∧ c ≤ 0x10FFFF ∧ ¬ (0xD800 ≤ c ∧ c ≤ 0xDFFF)

section Decode

variable {str : Mem (BitVec 8)} {p : ℕ}

theorem and_eq_mod (n : ℕ) : n &&& 0x3F = n % 64 := Nat.and_two_pow_sub_one_eq_mod n 6

theorem lead_two : ∀ b < 256, (b &&& 0xE0 = 0xC0 ↔ 0xC0 ≤ b ∧ b < 0xE0) := by decide +kernel

theorem lead_three : ∀ b < 256, (b &&& 0xF0 = 0xE0 ↔ 0xE0 ≤ b ∧ b < 0xF0) := by decide +kernel

theorem lead_four : ∀ b < 256, (b &&& 0xF8 = 0xF0 ↔ 0xF0 ≤ b ∧ b < 0xF8) := by decide +kernel

/-- The bits of a byte go behind those of the bytes before. -/
theorem mul_or {high low : ℕ} (k : ℕ) (h : low < 2 ^ k) :
    high * 2 ^ k ||| low = high * 2 ^ k + low := by
  rw [← Nat.shiftLeft_eq, Nat.shiftLeft_add_eq_or_of_lt h]

theorem bits_two (a b : ℕ) :
    (a &&& 0x1F) <<< 6 ||| (b &&& 0x3F) = a % 32 * 64 + b % 64 := by
  have hb : b % 64 < 2 ^ 6 := Nat.mod_lt b (by decide)
  rw [and_eq_mod, Nat.and_two_pow_sub_one_eq_mod a 5, Nat.shiftLeft_eq, mul_or 6 hb]
  rfl

theorem bits_three (a b c : ℕ) :
    (a &&& 0x0F) <<< 12 ||| (b &&& 0x3F) <<< 6 ||| (c &&& 0x3F) =
      a % 16 * 4096 + b % 64 * 64 + c % 64 := by
  have hb : b % 64 * 2 ^ 6 < 2 ^ 12 := by omega
  have hc : c % 64 < 2 ^ 6 := Nat.mod_lt c (by decide)
  rw [and_eq_mod, and_eq_mod, Nat.and_two_pow_sub_one_eq_mod a 4, Nat.shiftLeft_eq,
    Nat.shiftLeft_eq, mul_or 12 hb,
    show a % 2 ^ 4 * 2 ^ 12 + b % 64 * 2 ^ 6 = (a % 16 * 64 + b % 64) * 2 ^ 6 by omega, mul_or 6 hc]
  omega

theorem bits_four (a b c d : ℕ) :
    (a &&& 0x07) <<< 18 ||| (b &&& 0x3F) <<< 12 ||| (c &&& 0x3F) <<< 6 ||| (d &&& 0x3F) =
      a % 8 * 262144 + b % 64 * 4096 + c % 64 * 64 + d % 64 := by
  have hb : b % 64 * 2 ^ 12 < 2 ^ 18 := by omega
  have hc : c % 64 * 2 ^ 6 < 2 ^ 12 := by omega
  have hd : d % 64 < 2 ^ 6 := Nat.mod_lt d (by decide)
  rw [and_eq_mod, and_eq_mod, and_eq_mod, Nat.and_two_pow_sub_one_eq_mod a 3, Nat.shiftLeft_eq,
    Nat.shiftLeft_eq, Nat.shiftLeft_eq, mul_or 18 hb,
    show a % 2 ^ 3 * 2 ^ 18 + b % 64 * 2 ^ 12 = (a % 8 * 64 + b % 64) * 2 ^ 12 by omega,
    mul_or 12 hc,
    show (a % 8 * 64 + b % 64) * 2 ^ 12 + c % 64 * 2 ^ 6 =
      ((a % 8 * 64 + b % 64) * 64 + c % 64) * 2 ^ 6 by omega, mul_or 6 hd]
  omega

/-- A number of which a part of a surrogate pair is made none. -/
def unpaired (n : ℕ) : ℤ := if 0xD800 ≤ n ∧ n ≤ 0xDFFF then -1 else n

theorem decode_of_bytes {n next : ℕ} {reads : List ℕ} (h : decodeBytes str p = ⟨n, next, reads⟩) :
    decodeUtf8 str p = ⟨unpaired n, next, reads⟩ := by
  simp only [decodeUtf8, h, unpaired]
  split_ifs <;> first | rfl | omega

theorem decode_one (h : (str p).toNat < 0x80) :
    decodeUtf8 str p = ⟨(str p).toNat, p + 1, [p]⟩ := by
  rw [decode_of_bytes (n := (str p).toNat) (if_pos h), unpaired, if_neg (by omega)]

theorem tailBits_lt (b : BitVec 8) : tailBits b < 64 := Nat.mod_lt _ (by decide)

theorem decode_two (h : 0xC0 ≤ (str p).toNat ∧ (str p).toNat < 0xE0) :
    decodeUtf8 str p =
      ⟨((str p).toNat % 32 * 64 + tailBits (str (p + 1)) : ℕ), p + 2, [p, p + 1]⟩ := by
  have htail := tailBits_lt (str (p + 1))
  have hbytes : decodeBytes str p =
      ⟨((str p).toNat % 32 * 64 + tailBits (str (p + 1)) : ℕ), p + 2, [p, p + 1]⟩ := by
    simp only [decodeBytes, Nat.add_zero, bits_two]
    rw [if_neg (by omega), if_pos ((lead_two _ (str p).isLt).mpr h)]
    rfl
  rw [decode_of_bytes hbytes, unpaired, if_neg (by omega)]

theorem decode_three (h : 0xE0 ≤ (str p).toNat ∧ (str p).toNat < 0xF0) :
    decodeUtf8 str p =
      ⟨unpaired ((str p).toNat % 16 * 4096 + tailBits (str (p + 1)) * 64 + tailBits (str (p + 2))),
        p + 3, [p, p + 1, p + 2]⟩ := by
  have htwo := lead_two _ (str p).isLt
  refine decode_of_bytes ?_
  simp only [decodeBytes, Nat.add_zero, bits_three]
  rw [if_neg (by omega), if_neg (by omega), if_pos ((lead_three _ (str p).isLt).mpr h)]
  rfl

theorem decode_four (h : 0xF0 ≤ (str p).toNat ∧ (str p).toNat ≤ 0xF4) :
    decodeUtf8 str p =
      ⟨unpaired ((str p).toNat % 8 * 262144 + tailBits (str (p + 1)) * 4096 +
        tailBits (str (p + 2)) * 64 + tailBits (str (p + 3))), p + 4,
        [p, p + 1, p + 2, p + 3]⟩ := by
  have htwo := lead_two _ (str p).isLt
  have hthree := lead_three _ (str p).isLt
  have hfour := lead_four _ (str p).isLt
  refine decode_of_bytes ?_
  simp only [decodeBytes, Nat.add_zero, bits_four]
  rw [if_neg (by omega), if_neg (by omega), if_neg (by omega), if_pos ⟨by omega, h.2⟩]
  rfl

theorem decode_none (h : (0x80 ≤ (str p).toNat ∧ (str p).toNat < 0xC0) ∨ 0xF4 < (str p).toNat) :
    decodeUtf8 str p = ⟨-1, p + 1, [p]⟩ := by
  have htwo := lead_two _ (str p).isLt
  have hthree := lead_three _ (str p).isLt
  have hfour := lead_four _ (str p).isLt
  have hbytes : decodeBytes str p = ⟨-1, p + 1, [p]⟩ := by
    simp only [decodeBytes, Nat.add_zero]
    rw [if_neg (by omega), if_neg (by omega), if_neg (by omega), if_neg (by omega)]
  simp [decodeUtf8, hbytes]

theorem lead_cases (b : BitVec 8) :
    b.toNat < 0x80 ∨ (0xC0 ≤ b.toNat ∧ b.toNat < 0xE0) ∨ (0xE0 ≤ b.toNat ∧ b.toNat < 0xF0) ∨
      (0xF0 ≤ b.toNat ∧ b.toNat ≤ 0xF4) ∨
        ((0x80 ≤ b.toNat ∧ b.toNat < 0xC0) ∨ 0xF4 < b.toNat) := by omega

theorem next_eq : (decodeUtf8 str p).next = p + sequenceLength (str p) := by
  rcases lead_cases (str p) with h | h | h | h | h
  · rw [decode_one h, sequenceLength, if_pos (by omega)]
  · rw [decode_two h, sequenceLength, if_neg (by omega), if_pos h.2]
  · rw [decode_three h, sequenceLength, if_neg (by omega), if_neg (by omega), if_pos h.2]
  · rw [decode_four h, sequenceLength, if_neg (by omega), if_neg (by omega), if_neg (by omega),
      if_pos h.2]
  · rw [decode_none h, sequenceLength]
    split_ifs <;> first | rfl | omega

theorem mem_reads {a : ℕ} :
    a ∈ (decodeUtf8 str p).reads ↔ p ≤ a ∧ a < p + sequenceLength (str p) := by
  rw [← next_eq]
  rcases lead_cases (str p) with h | h | h | h | h
  · simp only [decode_one h, List.mem_singleton]
    omega
  · simp only [decode_two h, List.mem_cons, List.not_mem_nil, or_false]
    omega
  · simp only [decode_three h, List.mem_cons, List.not_mem_nil, or_false]
    omega
  · simp only [decode_four h, List.mem_cons, List.not_mem_nil, or_false]
    omega
  · simp only [decode_none h, List.mem_singleton]
    omega

theorem unpaired_eq_neg_one {n : ℕ} : unpaired n = -1 ↔ 0xD800 ≤ n ∧ n ≤ 0xDFFF := by
  by_cases h : 0xD800 ≤ n ∧ n ≤ 0xDFFF
  · exact iff_of_true (if_pos h) h
  · rw [unpaired, if_neg h]
    omega

theorem unpaired_isScalar {n : ℕ} : unpaired n = -1 ∨ IsScalar (unpaired n) ↔ n ≤ 0x10FFFF := by
  by_cases h : 0xD800 ≤ n ∧ n ≤ 0xDFFF
  · exact iff_of_true (.inl (if_pos h)) (by omega)
  · rw [unpaired, if_neg h, IsScalar]
    omega

theorem codePoint_eq_neg_one : (decodeUtf8 str p).codePoint = -1 ↔ Refused str p := by
  have hone := tailBits_lt (str (p + 1))
  have htwo := tailBits_lt (str (p + 2))
  have hthree := tailBits_lt (str (p + 3))
  have hed : str p = 0xED ↔ (str p).toNat = 0xED := BitVec.toNat_inj.symm
  have hf0 : str p = 0xF0 ↔ (str p).toNat = 0xF0 := BitVec.toNat_inj.symm
  rw [Refused, hed, hf0]
  rcases lead_cases (str p) with h | h | h | h | h
  · simp only [decode_one h]
    omega
  · simp only [decode_two h]
    omega
  · simp only [decode_three h, unpaired_eq_neg_one]
    omega
  · simp only [decode_four h, unpaired_eq_neg_one]
    omega
  · rw [decode_none h]
    exact iff_of_true rfl (by omega)

theorem codePoint_neg : (decodeUtf8 str p).codePoint < 0 ↔ Refused str p := by
  have hle : -1 ≤ (decodeUtf8 str p).codePoint := by
    have hunpaired : ∀ n, -1 ≤ unpaired n := fun n => by
      rw [unpaired]
      split_ifs <;> omega
    rcases lead_cases (str p) with h | h | h | h | h
    · simp only [decode_one h]
      omega
    · simp only [decode_two h]
      omega
    · simpa only [decode_three h] using hunpaired _
    · simpa only [decode_four h] using hunpaired _
    · rw [decode_none h]
  rw [← codePoint_eq_neg_one]
  omega

theorem codePoint_isScalar :
    (decodeUtf8 str p).codePoint = -1 ∨ IsScalar (decodeUtf8 str p).codePoint ↔
      InRange str p := by
  have hone := tailBits_lt (str (p + 1))
  have htwo := tailBits_lt (str (p + 2))
  have hthree := tailBits_lt (str (p + 3))
  have hf4 : str p = 0xF4 ↔ (str p).toNat = 0xF4 := BitVec.toNat_inj.symm
  rw [InRange, hf4]
  rcases lead_cases (str p) with h | h | h | h | h
  · simp only [decode_one h, IsScalar]
    omega
  · simp only [decode_two h, IsScalar]
    omega
  · simp only [decode_three h, unpaired_isScalar]
    omega
  · simp only [decode_four h, unpaired_isScalar]
    omega
  · rw [decode_none h]
    exact iff_of_true (.inl rfl) (by omega)

end Decode

/-- The bytes of a Unicode scalar value. -/
def encode (c : Char) : List (BitVec 8) := (String.utf8EncodeChar c).map UInt8.toBitVec

theorem toNat_write {str : Mem (BitVec 8)} {p : ℕ} {ns : List ℕ} {bytes : List UInt8}
    (h : bytes = ns.map UInt8.ofNat) (hsmall : ∀ n ∈ ns, n < 256) (i : ℕ) (hi : i < ns.length) :
    (str.write p (bytes.map UInt8.toBitVec) (p + i)).toNat = ns[i] := by
  subst h
  rw [Mem.write_add _ (by simpa using hi)]
  simpa using hsmall _ (List.getElem_mem hi)

theorem decode_encode (str : Mem (BitVec 8)) (p : ℕ) (c : Char) :
    (decodeUtf8 (str.write p (encode c)) p).codePoint = c.toNat ∧
      (decodeUtf8 (str.write p (encode c)) p).next = p + (encode c).length := by
  have hvalid : c.val.toNat < 0xD800 ∨ (0xDFFF < c.val.toNat ∧ c.val.toNat < 0x110000) := c.valid
  obtain ⟨v, hv⟩ : ∃ v, v = c.val.toNat := ⟨_, rfl⟩
  have hcode : c.toNat = v := hv.symm
  rw [← hv] at hvalid
  have hbytes : String.utf8EncodeChar c =
      if v ≤ 0x7f then [v].map UInt8.ofNat
      else if v ≤ 0x7ff then [v / 64 % 0x20 + 0xc0, v % 0x40 + 0x80].map UInt8.ofNat
      else if v ≤ 0xffff then
        [v / 4096 % 0x10 + 0xe0, v / 64 % 0x40 + 0x80, v % 0x40 + 0x80].map UInt8.ofNat
      else
        [v / 262144 % 0x08 + 0xf0, v / 4096 % 0x40 + 0x80, v / 64 % 0x40 + 0x80,
          v % 0x40 + 0x80].map UInt8.ofNat := by
    subst hv
    rfl
  rw [hcode, encode]
  split_ifs at hbytes with hone htwo hthree
  all_goals
    have hbyte := @toNat_write str p _ _ hbytes
      (by simp only [List.mem_cons, List.not_mem_nil, or_false]; omega)
    simp only [List.length_cons, List.length_nil] at hbyte
  · have h0 := hbyte 0 (by decide)
    simp only [List.getElem_cons_zero, Nat.add_zero] at h0
    rw [decode_one (by omega), h0, hbytes]
    exact ⟨rfl, rfl⟩
  · have h0 := hbyte 0 (by decide)
    have h1 := hbyte 1 (by decide)
    simp only [List.getElem_cons_succ, List.getElem_cons_zero, Nat.add_zero] at h0 h1
    rw [decode_two (by omega), tailBits, h0, h1, hbytes]
    refine ⟨?_, rfl⟩
    simp only [Nat.cast_inj]
    omega
  · have h0 := hbyte 0 (by decide)
    have h1 := hbyte 1 (by decide)
    have h2 := hbyte 2 (by decide)
    simp only [List.getElem_cons_succ, List.getElem_cons_zero, Nat.add_zero] at h0 h1 h2
    rw [decode_three (by omega), tailBits, tailBits, h0, h1, h2, hbytes]
    refine ⟨?_, rfl⟩
    simp only [unpaired]
    rw [if_neg (by omega), Nat.cast_inj]
    omega
  · have h0 := hbyte 0 (by decide)
    have h1 := hbyte 1 (by decide)
    have h2 := hbyte 2 (by decide)
    have h3 := hbyte 3 (by decide)
    simp only [List.getElem_cons_succ, List.getElem_cons_zero, Nat.add_zero] at h0 h1 h2 h3
    rw [decode_four (by omega), tailBits, tailBits, tailBits, h0, h1, h2, h3, hbytes]
    refine ⟨?_, rfl⟩
    simp only [unpaired]
    rw [if_neg (by omega), Nat.cast_inj]
    omega

/-- A string in memory, with the zero that ends it. -/
structure CString where
  mem : Mem (BitVec 8)
  start : ℕ
  nul : ℕ
  start_le : start ≤ nul
  mem_nul : mem nul = 0
  mem_ne : ∀ q, start ≤ q → q < nul → mem q ≠ 0

/-- Where a loop that ends at bytes with `ends` decodes, from an address on. -/
inductive Arrives (str : Mem (BitVec 8)) (ends : ℕ → Prop) : ℕ → ℕ → Prop
  | here (p : ℕ) : Arrives str ends p p
  | next {p q : ℕ} (hends : ¬ ends p) (h : Arrives str ends (p + sequenceLength (str p)) q) :
      Arrives str ends p q

theorem sequenceLength_pos (lead : BitVec 8) : 0 < sequenceLength lead := by
  rw [sequenceLength]
  split_ifs <;> decide

theorem Arrives.le {str : Mem (BitVec 8)} {ends : ℕ → Prop} {p q : ℕ} (h : Arrives str ends p q) :
    p ≤ q := by
  induction h with
  | here p => exact le_rfl
  | next _ _ ih => exact (Nat.le_add_right _ _).trans ih

namespace CString

variable (s : CString)

/-- The bytes that a first byte asks for lie in front of the zero, or the loop ends with the zero as
one of them, and they are not beyond the last code point. -/
def FitsAt (ends : ℕ → Prop) (p : ℕ) : Prop :=
  (p + sequenceLength (s.mem p) ≤ s.nul ∨
    (ends p ∧ p + sequenceLength (s.mem p) = s.nul + 1)) ∧ InRange s.mem p

/-- From an address on, every first byte that a loop arrives at fits. -/
def FitsFrom (ends : ℕ → Prop) (p : ℕ) : Prop :=
  ∀ q < s.nul, Arrives s.mem ends p q → s.FitsAt ends q

def Fits (ends : ℕ → Prop) : Prop := s.FitsFrom ends s.start

/-- What is promised of a loop: it stops at the zero if it does not end early, reads nothing behind
it, and decodes nothing but Unicode scalar values. -/
structure Sound (run : Run) : Prop where
  reads : ∀ a ∈ run.reads, a ≤ s.nul
  codePoints : ∀ c ∈ run.codePoints, c = -1 ∨ IsScalar c
  stop : ∀ q ∈ run.stop, q = s.nul

/-- `send_unicode_string` keeps the promise. -/
def SendsSound : Prop := ∃ fuel run, sendUnicodeString s.mem fuel s.start = some run ∧ s.Sound run

/-- `qp_iterate_code_points` keeps the promise, whatever is answered to the code points. -/
def DrawsSound : Prop :=
  ∀ prepare handler, ∃ fuel run,
    qpIterateCodePoints s.mem prepare handler fuel s.start = some run ∧ s.Sound run

variable {s : CString} {ends : ℕ → Prop} {stops : ℕ → ℤ → Bool} {p : ℕ}

theorem fitsFrom_of_le (h : s.nul ≤ p) : s.FitsFrom ends p := fun _ hq harrives =>
  absurd (h.trans harrives.le) (Nat.not_le.mpr hq)

theorem fitsFrom_iff (hp : p < s.nul) :
    s.FitsFrom ends p ↔
      s.FitsAt ends p ∧ (¬ ends p → s.FitsFrom ends (p + sequenceLength (s.mem p))) := by
  constructor
  · intro h
    exact ⟨h p hp (.here p), fun hends q hq harrives => h q hq (.next hends harrives)⟩
  · rintro ⟨hat, hlater⟩ q hq harrives
    cases harrives with
    | here => exact hat
    | next hends harrives => exact hlater hends q hq harrives

/-- What is read to decode at an address in front of the zero lies in front of what comes next. -/
theorem reads_le {next : ℕ} (hnext : p + sequenceLength (s.mem p) = next) (hle : next ≤ s.nul + 1) :
    ∀ a ∈ p :: (decodeUtf8 s.mem p).reads, a ≤ s.nul := by
  have hpos := sequenceLength_pos (s.mem p)
  intro a ha
  rcases List.mem_cons.mp ha with rfl | ha
  · omega
  · have := mem_reads.mp ha
    omega

/-- A loop that ends wherever the condition says so comes to the zero. The induction is on the bytes
up to the zero. -/
theorem sound_of_fitsFrom
    (hstops : ∀ q k, ends q → stops k (decodeUtf8 s.mem q).codePoint = true)
    (hstart : s.start ≤ p) (hp : p ≤ s.nul) (hfits : s.FitsFrom ends p) (k : ℕ) :
    ∃ fuel run, iterate s.mem stops fuel k p = some run ∧ s.Sound run := by
  induction hn : s.nul - p using Nat.strong_induction_on generalizing p k with
  | _ n ih =>
    rcases hp.eq_or_lt with rfl | hlt
    · exact ⟨1, ⟨[s.nul], [], some s.nul⟩, by rw [iterate, if_pos s.mem_nul],
        by simp, by simp, by simp⟩
    have hne := s.mem_ne p hstart hlt
    have hpos := sequenceLength_pos (s.mem p)
    obtain ⟨⟨hfit, hrange⟩, hlater⟩ := (fitsFrom_iff hlt).mp hfits
    have hreads := @reads_le s p _ rfl (by omega)
    have hscalar := codePoint_isScalar.mpr hrange
    by_cases hstop : stops k (decodeUtf8 s.mem p).codePoint
    · refine ⟨1, ⟨_, _, none⟩, by rw [iterate, if_neg hne, if_pos hstop], hreads, ?_, by simp⟩
      simpa using hscalar
    · have hends : ¬ ends p := fun h => hstop (hstops p k h)
      have hnext : p + sequenceLength (s.mem p) ≤ s.nul := hfit.resolve_right fun h => hends h.1
      obtain ⟨fuel, run, hrun, hsound⟩ :=
        ih _ (by omega) (by omega) hnext (hlater hends) (k + 1) rfl
      refine ⟨fuel + 1, run.behind (p :: (decodeUtf8 s.mem p).reads)
        (decodeUtf8 s.mem p).codePoint, ?_, ?_, ?_, hsound.stop⟩
      · rw [iterate, if_neg hne, if_neg hstop, next_eq, hrun]
        rfl
      · intro a ha
        exact (List.mem_append.mp ha).elim (hreads a) (hsound.reads a)
      · intro c hc
        rcases List.mem_cons.mp hc with rfl | hc
        · exact hscalar
        · exact hsound.codePoints c hc

theorem mem_reads_iterate {str : Mem (BitVec 8)} {fuel k : ℕ} {run : Run}
    (h : iterate str stops fuel k p = some run) : p ∈ run.reads := by
  cases fuel with
  | zero => simp [iterate] at h
  | succ fuel =>
    simp only [iterate] at h
    split_ifs at h
    · cases h
      exact List.mem_singleton_self p
    · cases h
      exact List.mem_cons_self
    · obtain ⟨later, -, rfl⟩ := Option.map_eq_some_iff.mp h
      exact List.mem_cons_self

/-- A loop that ends only where the condition says so arrives at what fits, as long as it keeps the
promise. -/
theorem fitsFrom_of_sound
    (hstops : ∀ q k, stops k (decodeUtf8 s.mem q).codePoint = true → ends q)
    (hstart : s.start ≤ p) (hp : p ≤ s.nul) {fuel k : ℕ} {run : Run}
    (hrun : iterate s.mem stops fuel k p = some run) (hsound : s.Sound run) :
    s.FitsFrom ends p := by
  induction fuel generalizing p k run with
  | zero => simp [iterate] at hrun
  | succ fuel ih =>
    rcases hp.eq_or_lt with rfl | hlt
    · exact fitsFrom_of_le le_rfl
    have hne := s.mem_ne p hstart hlt
    have hpos := sequenceLength_pos (s.mem p)
    have hlast : p + sequenceLength (s.mem p) - 1 ∈ (decodeUtf8 s.mem p).reads :=
      mem_reads.mpr (by omega)
    rw [iterate, if_neg hne] at hrun
    refine (fitsFrom_iff hlt).mpr ?_
    by_cases hstop : stops k (decodeUtf8 s.mem p).codePoint
    · rw [if_pos hstop] at hrun
      cases hrun
      have hle := hsound.reads _ (List.mem_cons_of_mem p hlast)
      have hends := hstops p k hstop
      refine ⟨⟨?_, codePoint_isScalar.mp (hsound.codePoints _ (List.mem_singleton_self _))⟩,
        fun h => absurd hends h⟩
      by_cases h : p + sequenceLength (s.mem p) ≤ s.nul
      · exact .inl h
      · exact .inr ⟨hends, by omega⟩
    · rw [if_neg hstop, next_eq] at hrun
      obtain ⟨later, hlater, rfl⟩ := Option.map_eq_some_iff.mp hrun
      have hsoundLater : s.Sound later :=
        ⟨fun a ha => hsound.reads a (List.mem_append_right _ ha),
          fun c hc => hsound.codePoints c (List.mem_cons_of_mem _ hc), hsound.stop⟩
      have hnext := hsoundLater.reads _ (mem_reads_iterate hlater)
      exact ⟨⟨.inl hnext, codePoint_isScalar.mp (hsound.codePoints _ List.mem_cons_self)⟩,
        fun _ => ih (by omega) hnext hlater hsoundLater⟩

theorem sendsSound_iff : s.SendsSound ↔ s.Fits fun _ => False := by
  constructor
  · rintro ⟨fuel, run, hrun, hsound⟩
    exact fitsFrom_of_sound (by simp) le_rfl s.start_le hrun hsound
  · intro h
    exact sound_of_fitsFrom (by simp) le_rfl s.start_le h 0

theorem drawsSound_iff : s.DrawsSound ↔ s.Fits (Refused s.mem) := by
  have hneg : ∀ q, (decodeUtf8 s.mem q).codePoint < 0 ↔ Refused s.mem q := fun q => codePoint_neg
  constructor
  · intro h
    obtain ⟨fuel, run, hrun, hsound⟩ := h (fun _ _ => true) fun _ _ => true
    exact fitsFrom_of_sound (fun q k hq => by simpa [hneg] using hq) le_rfl s.start_le hrun hsound
  · intro h prepare handler
    exact sound_of_fitsFrom (fun q k hq => by simp [(hneg q).mpr hq]) le_rfl s.start_le h 0

end CString

/-- The bytes of a Unicode scalar value give this value. The loops keep their promise exactly when
every first byte that they arrive at fits, for `send_unicode_string` up to the end of the string and
for `qp_iterate_code_points` up to bytes that do not begin a code point. -/
theorem decode_exact_and_sound_iff (str : Mem (BitVec 8)) (p : ℕ) (c : Char) (s : CString) :
    ((decodeUtf8 (str.write p (encode c)) p).codePoint = (c.toNat : ℤ) ∧
      (decodeUtf8 (str.write p (encode c)) p).next = p + (encode c).length) ∧
    (s.SendsSound ↔ s.Fits fun _ => False) ∧ (s.DrawsSound ↔ s.Fits (Refused s.mem)) :=
  ⟨decode_encode str p c, CString.sendsSound_iff, CString.drawsSound_iff⟩

/-- The first byte of two, and the zero. -/
def cutOff : CString where
  mem := fun a => if a = 0 then 0xC3 else 0
  start := 0
  nul := 1
  start_le := Nat.zero_le 1
  mem_nul := rfl
  mem_ne := by
    rintro q - hq
    obtain rfl : q = 0 := by omega
    decide

/-- The zero is taken as the second byte, and both loops go on behind it. -/
theorem cutOff_unsound : ¬ cutOff.SendsSound ∧ ¬ cutOff.DrawsSound := by
  have hfits : ∀ ends, ¬ ends 0 → ¬ cutOff.Fits ends := fun ends hends h =>
    (h 0 (by decide) (.here 0)).1.elim (by decide) fun hstop => hends hstop.1
  constructor
  · exact fun h => hfits _ not_false (CString.sendsSound_iff.mp h)
  · exact fun h => hfits _ (by decide) (CString.drawsSound_iff.mp h)

end Qmk.Utf8
