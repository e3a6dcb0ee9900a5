import Mathlib.Algebra.BigOperators.Group.List.Basic
import Mathlib.Data.Nat.Bitwise
import Qmk.Painter.Stream

/-! # Blocks of painter files

Numbers in little-endian order, as PIL writes them and the packed structures of the
firmware read them, and the headers that start every block of a graphics or font file.
-/

namespace Qmk.Painter

section LittleEndian

/-- The lowest `n` bytes of a number. -/
def leBytes : ℕ → ℕ → List UInt8
  | 0, _ => []
  | n + 1, i => UInt8.ofNat i :: leBytes n (i / 256)

def leNat : List UInt8 → ℕ
  | [] => 0
  | c :: cs => c.toNat + 256 * leNat cs

def o8 (i : ℕ) : List UInt8 := leBytes 1 i

/-- PIL's `o16le`, which fails when the number does not fit. -/
def o16 (i : ℕ) : Option (List UInt8) := if i < 2 ^ 16 then some (leBytes 2 i) else none

def o24 (i : ℕ) : List UInt8 := leBytes 3 i

/-- PIL's `o32le`, which fails when the number does not fit. -/
def o32 (i : ℕ) : Option (List UInt8) := if i < 2 ^ 32 then some (leBytes 4 i) else none

/-- A member of a packed structure: `n` bytes at `offset`. -/
def field (offset n : ℕ) (bs : List UInt8) : ℕ := leNat ((bs.drop offset).take n)

@[simp] theorem length_leBytes (n i : ℕ) : (leBytes n i).length = n := by
  induction n generalizing i with
  | zero => rfl
  | succ n ih => simp [leBytes, ih]

theorem leNat_leBytes (n i : ℕ) : leNat (leBytes n i) = i % 256 ^ n := by
  induction n generalizing i with
  | zero => simp [leBytes, leNat, Nat.mod_one]
  | succ n ih =>
    rw [leBytes, leNat, ih, UInt8.toNat_ofNat', Nat.pow_succ' (n := n), Nat.mod_mul]

theorem field_append {a b : List UInt8} {offset n : ℕ} (h : a.length ≤ offset) :
    field offset n (a ++ b) = field (offset - a.length) n b := by
  rw [field, field, List.drop_append, List.drop_eq_nil_of_le h, List.nil_append]

theorem field_leBytes (n i : ℕ) (b : List UInt8) : field 0 n (leBytes n i ++ b) = i % 256 ^ n := by
  rw [field, List.drop_zero, List.take_left' (length_leBytes n i), leNat_leBytes]

theorem field_self (n i : ℕ) : field 0 n (leBytes n i) = i % 256 ^ n := by
  have := field_leBytes n i []
  rwa [List.append_nil] at this

end LittleEndian

section Pieces

variable {α β : Type*} {f : α → List β} {k : ℕ} {l : List α}

theorem drop_flatMap (hf : ∀ a ∈ l, (f a).length = k) (i : ℕ) :
    (l.flatMap f).drop (i * k) = (l.drop i).flatMap f := by
  induction l generalizing i with
  | nil => simp
  | cons a l ih =>
    cases i with
    | zero => simp
    | succ i =>
      have ha := hf a List.mem_cons_self
      rw [List.flatMap_cons, List.drop_append, List.drop_eq_nil_of_le (by rw [ha]; grind),
        List.nil_append, ha, Nat.succ_mul, Nat.add_sub_cancel, List.drop_succ_cons]
      exact ih (fun c hc => hf c (List.mem_cons_of_mem a hc)) i

theorem length_flatMap_const (hf : ∀ a ∈ l, (f a).length = k) :
    (l.flatMap f).length = l.length * k := by
  rw [List.length_flatMap, List.map_congr_left hf, List.map_const', List.sum_replicate_nat]

theorem holds_piece {f : α → List UInt8} (hf : ∀ a ∈ l, (f a).length = k) {file a c : List UInt8}
    (hfile : file = a ++ (l.flatMap f ++ c)) {i : ℕ} {x : α} (hx : l[i]? = some x) :
    ∃ rest, (MemoryStream.ofFile file (a.length + i * k)).Holds (f x ++ rest) := by
  obtain ⟨hlt, rfl⟩ := List.getElem?_eq_some_iff.mp hx
  have hsplit := List.take_append_drop (i * k) (l.flatMap f)
  rw [drop_flatMap hf, List.drop_eq_getElem_cons hlt, List.flatMap_cons] at hsplit
  have htake : ((l.flatMap f).take (i * k)).length = i * k := by
    rw [List.length_take, length_flatMap_const hf]
    exact Nat.min_eq_left (Nat.mul_le_mul_right k hlt.le)
  refine ⟨(l.drop (i + 1)).flatMap f ++ c,
    MemoryStream.holds_ofFile (a := a ++ (l.flatMap f).take (i * k)) ?_ ?_⟩
  · rw [hfile]
    conv_lhs => rw [← hsplit]
    simp only [List.append_assoc]
  · rw [List.length_append, htake]

end Pieces

section Headers

structure BlockHeader where
  typeId : ℕ
  negTypeId : ℕ
  length : ℕ

def writeHeader (typeId length : ℕ) : List UInt8 :=
  o8 typeId ++ o8 (255 - typeId) ++ o24 length

@[simp] theorem length_writeHeader (typeId length : ℕ) :
    (writeHeader typeId length).length = 5 := by
  simp [writeHeader, o8, o24]

def blockHeader (bs : List UInt8) : BlockHeader where
  typeId := field 0 1 bs
  negTypeId := field 1 1 bs
  length := field 2 3 bs

/-- `qgf_validate_block_header`; a negative length is not compared. -/
def validateBlockHeader (desc : BlockHeader) (expectedTypeid : ℕ) (expectedLength : ℤ) : Bool :=
  ¬ (desc.typeId ≠ expectedTypeid ∨ desc.negTypeId ≠ 255 - expectedTypeid) ∧
    ¬ (0 ≤ expectedLength ∧ (desc.length : ℤ) ≠ expectedLength)

theorem validateBlockHeader_writeHeader {typeId : ℕ} (htype : typeId < 256) (length : ℕ)
    (expected : ℤ) (rest : List UInt8) :
    validateBlockHeader (blockHeader (writeHeader typeId length ++ rest)) typeId expected = true ↔
      (expected < 0 ∨ ((length % 2 ^ 24 : ℕ) : ℤ) = expected) := by
  have hid : (blockHeader (writeHeader typeId length ++ rest)).typeId = typeId := by
    simp [blockHeader, writeHeader, o8, List.append_assoc, field_leBytes]
    omega
  have hneg : (blockHeader (writeHeader typeId length ++ rest)).negTypeId = 255 - typeId := by
    simp [blockHeader, writeHeader, o8, List.append_assoc, field_leBytes, field_append]
    omega
  have hlength : (blockHeader (writeHeader typeId length ++ rest)).length = length % 2 ^ 24 := by
    simp [blockHeader, writeHeader, o8, o24, List.append_assoc, field_leBytes, field_append]
  rw [validateBlockHeader, hid, hneg, hlength]
  simp

/-- Reading a structure of `n` bytes, which fails at the end of the stream. -/
def readStruct (n : ℕ) (s : MemoryStream) : Option (List UInt8) × MemoryStream :=
  let r := s.read n
  (if r.1.length = n then some r.1 else none, r.2)

theorem readStruct_holds {n : ℕ} {s : MemoryStream} {bs rest : List UInt8}
    (h : s.Holds (bs ++ rest)) (hn : bs.length = n) :
    readStruct n s = (some bs, s.advance n) := by
  subst hn
  rw [readStruct, MemoryStream.Holds.read h, if_pos rfl]

theorem readStruct_negative {n : ℕ} {s : MemoryStream} (hs : s.length < 0) (p : ℕ) :
    (readStruct (n + 1) (s.setpos p).2).1 = none := by
  have hget : ∀ t : MemoryStream, t.length < 0 → (readStruct (n + 1) t).1 = none := by
    intro t ht
    have hget : t.get = (none, { t with isEof := true }) := by
      rw [MemoryStream.get, if_pos (by omega)]
    simp [readStruct, MemoryStream.read, hget]
  apply hget
  unfold MemoryStream.setpos MemoryStream.seek
  dsimp only
  split_ifs <;> exact hs

end Headers

/-- The table of `qgf_parse_format`: bits for a pixel, whether there is a palette, and whether the
pixels are those of the panel. -/
def formats : List (ℕ × Bool × Bool) :=
  [(1, false, false), (2, false, false), (4, false, false), (8, false, false), (1, true, false),
    (2, true, false), (4, true, false), (8, true, false), (16, false, true), (24, false, true)]

def parseFormat (format : ℕ) : Option (ℕ × Bool × Bool) := formats[format]?

end Qmk.Painter
