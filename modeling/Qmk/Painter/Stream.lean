import Mathlib.Algebra.Group.Nat.Defs
import Mathlib.Data.Int.Notation
import Mathlib.Data.List.Basic

/-! # Painter streams

The memory streams of `qp_stream.c`. The memory behind a stream is a list of bytes; its
length is signed, as a stream whose file states too large a size has a negative one. A
stream that holds a list of bytes gives them one after the other.
-/

namespace Qmk.Painter

structure MemoryStream where
  buffer : List UInt8
  length : ℤ
  position : ℕ := 0
  isEof : Bool := false

inductive Origin
  | set | cur | fromEnd

namespace MemoryStream

/-- `mem_get`, which gives no byte for `STREAM_EOF`. -/
def get (s : MemoryStream) : Option UInt8 × MemoryStream :=
  if s.length ≤ s.position then (none, { s with isEof := true })
  else (some (s.buffer.getD s.position 0), { s with position := s.position + 1 })

/-- `qp_stream_read`: the bytes that could be read. -/
def read : ℕ → MemoryStream → List UInt8 × MemoryStream
  | 0, s => ([], s)
  | n + 1, s =>
    match s.get with
    | (none, s) => ([], s)
    | (some c, s) => (c :: (read n s).1, (read n s).2)

/-- `mem_seek`; the result tells whether the position has changed. -/
def seek (s : MemoryStream) (offset : ℤ) (origin : Origin) : Bool × MemoryStream :=
  let position := match origin with
    | .set => offset
    | .cur => s.position + offset
    | .fromEnd => s.length + offset
  if position < 0 then (false, s)
  else if s.length < position then (false, s)
  else (true, { s with position := position.toNat, isEof := false })

/-- `qp_stream_setpos` with an offset of 32 bits. -/
def setpos (s : MemoryStream) (offset : ℕ) : Bool × MemoryStream :=
  s.seek (BitVec.ofNat 32 offset).toInt .set

def make (buffer : List UInt8) (length : ℤ) : MemoryStream := { buffer, length }

/-- The bytes that are still to come, and the memory that may be behind them. -/
structure Holds (s : MemoryStream) (rest : List UInt8) : Prop where
  length : s.length = (s.position + rest.length : ℕ)
  buffer : ∃ tail, s.buffer.drop s.position = rest ++ tail

section Holds

variable {s : MemoryStream} {c : UInt8} {bs rest : List UInt8}

/-- The stream after it has given `n` bytes. -/
def advance (s : MemoryStream) (n : ℕ) : MemoryStream := { s with position := s.position + n }

@[simp] theorem advance_zero (s : MemoryStream) : s.advance 0 = s := rfl

@[simp] theorem advance_advance (s : MemoryStream) (m n : ℕ) :
    (s.advance m).advance n = s.advance (m + n) := by
  simp [advance, Nat.add_assoc]

theorem Holds.advance (h : s.Holds (bs ++ rest)) : (s.advance bs.length).Holds rest := by
  obtain ⟨tail, htail⟩ := h.buffer
  refine ⟨?_, tail, ?_⟩
  · rw [show (s.advance bs.length).length = s.length from rfl, h.length, List.length_append,
      ← Nat.add_assoc]
    rfl
  · rw [MemoryStream.advance, ← List.drop_drop, htail, List.append_assoc, List.drop_left]

theorem Holds.get (h : s.Holds (c :: rest)) : s.get = (some c, s.advance 1) := by
  obtain ⟨tail, htail⟩ := h.buffer
  have hget : s.buffer[s.position]? = some c := by
    rw [← List.head?_drop, htail]
    rfl
  have hlt : ¬ s.length ≤ s.position := by
    rw [h.length, List.length_cons]
    omega
  rw [MemoryStream.get, if_neg hlt, List.getD_eq_getElem?_getD, hget]
  rfl

theorem Holds.get_nil (h : s.Holds []) : s.get.1 = none := by
  have hle : s.length ≤ s.position := by
    rw [h.length, List.length_nil]
    exact Int.le_refl _
  rw [MemoryStream.get, if_pos hle]

theorem Holds.read (h : s.Holds (bs ++ rest)) : s.read bs.length = (bs, s.advance bs.length) := by
  induction bs generalizing s with
  | nil => rfl
  | cons c bs ih =>
    have htail : (s.advance [c].length).Holds (bs ++ rest) := Holds.advance h
    rw [List.length_singleton] at htail
    rw [List.length_cons, MemoryStream.read, Holds.get h]
    dsimp only
    rw [ih htail, advance_advance, Nat.add_comm 1]

end Holds

section Files

variable {file : List UInt8} {p q : ℕ}

/-- The stream over a whole file. -/
def ofFile (file : List UInt8) (p : ℕ) : MemoryStream :=
  { buffer := file, length := file.length, position := p }

theorem ofFile_advance (file : List UInt8) (p n : ℕ) :
    (ofFile file p).advance n = ofFile file (p + n) := rfl

theorem holds_ofFile {a b : List UInt8} (hfile : file = a ++ b) (hp : a.length = p) :
    (ofFile file p).Holds b := by
  subst hfile hp
  exact ⟨by simp [ofFile], [], by simp [ofFile]⟩

theorem seek_ofFile (file : List UInt8) (p : ℕ) (offset : ℤ) (origin : Origin) :
    ∃ q, ((ofFile file p).seek offset origin).2 = ofFile file q := by
  unfold seek
  dsimp only
  split_ifs
  · exact ⟨p, rfl⟩
  · exact ⟨p, rfl⟩
  · exact ⟨_, rfl⟩

theorem toInt_of_lt {n : ℕ} (hn : n < 2 ^ 31) : (BitVec.ofNat 32 n).toInt = n := by
  have hmod : n % 2 ^ 32 = n := Nat.mod_eq_of_lt (by omega)
  rw [BitVec.toInt_eq_toNat_of_lt, BitVec.toNat_ofNat, hmod]
  rw [BitVec.toNat_ofNat, hmod]
  omega

theorem toInt_of_ge {n : ℕ} (hn : 2 ^ 31 ≤ n) (hlt : n < 2 ^ 32) :
    (BitVec.ofNat 32 n).toInt < 0 := by
  have hmod : n % 2 ^ 32 = n := Nat.mod_eq_of_lt hlt
  rw [BitVec.toInt_eq_toNat_cond, BitVec.toNat_ofNat, hmod, if_neg (by omega)]
  omega

/-- A stream that was opened on a file, wherever it is now. -/
structure ReadsFrom (file : List UInt8) (s : MemoryStream) : Prop where
  buffer : s.buffer = file
  length : s.length = file.length

theorem readsFrom_ofFile (file : List UInt8) (p : ℕ) : ReadsFrom file (ofFile file p) := ⟨rfl, rfl⟩

theorem ReadsFrom.get {s : MemoryStream} (h : ReadsFrom file s) : ReadsFrom file s.get.2 := by
  unfold MemoryStream.get
  split_ifs
  · exact ⟨h.buffer, h.length⟩
  · exact ⟨h.buffer, h.length⟩

theorem ReadsFrom.setpos {s : MemoryStream} (h : ReadsFrom file s) (hp : p ≤ file.length)
    (hfile : file.length < 2 ^ 31) : s.setpos p = (true, ofFile file p) := by
  have hneg : ¬ (p : ℤ) < 0 := by omega
  have hle : ¬ s.length < (p : ℤ) := by
    rw [h.length]
    omega
  obtain ⟨buffer, length, position, isEof⟩ := s
  obtain rfl : buffer = file := h.buffer
  obtain rfl : length = buffer.length := h.length
  simp only [MemoryStream.setpos, seek, toInt_of_lt (show p < 2 ^ 31 by omega)]
  rw [if_neg hneg, if_neg hle]
  rfl

theorem setpos_ofFile (hp : p ≤ file.length) (hfile : file.length < 2 ^ 31) :
    (ofFile file q).setpos p = (true, ofFile file p) :=
  (readsFrom_ofFile file q).setpos hp hfile

theorem seek_cur_ofFile {n : ℕ} (hn : p + n ≤ file.length) :
    (ofFile file p).seek n .cur = (true, ofFile file (p + n)) := by
  have hneg : ¬ ((p : ℤ) + n < 0) := by omega
  have hle : ¬ ((ofFile file p).length < (p : ℤ) + n) := by
    change ¬ ((file.length : ℤ) < p + n)
    omega
  unfold seek
  change (if (p : ℤ) + n < 0 then _ else if (ofFile file p).length < (p : ℤ) + n then _ else _) = _
  rw [if_neg hneg, if_neg hle]
  rfl

end Files

end MemoryStream

end Qmk.Painter
