import Mathlib.Data.List.GetD
import Mathlib.Data.List.Basic

/-! # Cell-addressed memories

A memory is a total function from addresses to cells. Block writes and block
reads move lists of cells; a write changes exactly the block it covers, and
adjacent writes compose to the write of the concatenated list.
-/

namespace Qmk

/-- A memory assigns a cell to every address. -/
abbrev Mem (α : Type*) := ℕ → α

namespace Mem

variable {α : Type*}

/-- Overwrite the block starting at `a` with the cells of `l`. -/
def write (m : Mem α) (a : ℕ) (l : List α) : Mem α :=
  fun x => if a ≤ x then l.getD (x - a) (m x) else m x

/-- The block of `n` cells starting at `a`. -/
def read (m : Mem α) (a n : ℕ) : List α := (List.range n).map fun i => m (a + i)

@[simp] theorem length_read (m : Mem α) (a n : ℕ) : (m.read a n).length = n := by
  simp [read]

@[simp] theorem read_zero (m : Mem α) (a : ℕ) : m.read a 0 = [] := rfl

@[simp] theorem getElem_read (m : Mem α) (a n i : ℕ) (h : i < (m.read a n).length) :
    (m.read a n)[i] = m (a + i) := by simp [read]

theorem getD_read (m : Mem α) {a n i : ℕ} (d : α) (h : i < n) :
    (m.read a n).getD i d = m (a + i) := by
  rw [List.getD_eq_getElem _ _ (by simpa using h), getElem_read]

theorem read_eq_iff {m m' : Mem α} {a b n : ℕ} :
    m.read a n = m'.read b n ↔ ∀ i < n, m (a + i) = m' (b + i) := by
  simp [read, List.map_inj_left]

theorem read_eq_list_iff {m : Mem α} {a : ℕ} {l : List α} :
    m.read a l.length = l ↔ ∀ i (h : i < l.length), m (a + i) = l[i] := by
  constructor
  · intro h i hi
    have hr := getElem_read m a l.length i (by simpa using hi)
    simpa only [h] using hr.symm
  · intro h
    refine List.ext_getElem (by simp) fun i hi _ => ?_
    rw [getElem_read, h]

theorem read_append (m : Mem α) (a n k : ℕ) :
    m.read a (n + k) = m.read a n ++ m.read (a + n) k := by
  simp [read, List.range_add, Nat.add_assoc]

theorem write_of_lt (m : Mem α) {a x : ℕ} (l : List α) (h : x < a) : m.write a l x = m x := by
  simp [write, Nat.not_le.mpr h]

theorem write_of_ge (m : Mem α) {a x : ℕ} (l : List α) (h : a + l.length ≤ x) :
    m.write a l x = m x := by
  rw [write, if_pos (by omega), List.getD_eq_default _ _ (by omega)]

theorem write_of_mem (m : Mem α) {a x : ℕ} {l : List α} (h : a ≤ x) (hl : x - a < l.length) :
    m.write a l x = l[x - a] := by
  rw [write, if_pos h, List.getD_eq_getElem _ _ hl]

theorem write_add (m : Mem α) {a i : ℕ} {l : List α} (h : i < l.length) :
    m.write a l (a + i) = l[i] := by
  rw [write_of_mem m (Nat.le_add_right a i) (by omega)]
  simp

@[simp] theorem write_nil (m : Mem α) (a : ℕ) : m.write a [] = m := by
  funext x
  simp [write]

theorem write_append (m : Mem α) (a : ℕ) (l l' : List α) :
    m.write a (l ++ l') = (m.write a l).write (a + l.length) l' := by
  funext x
  rcases Nat.lt_or_ge x a with hx | hx
  · rw [write_of_lt _ _ hx, write_of_lt _ _ (by omega), write_of_lt _ _ hx]
  rcases Nat.lt_or_ge x (a + l.length) with hl | hl
  · rw [write_of_mem _ hx (by simp; omega), write_of_lt _ _ hl, write_of_mem _ hx (by omega)]
    exact List.getElem_append_left _
  rcases Nat.lt_or_ge x (a + l.length + l'.length) with hl' | hl'
  · rw [write_of_mem _ hx (by simp; omega), write_of_mem _ hl (by omega),
      List.getElem_append_right (by omega)]
    congr 1
    omega
  · rw [write_of_ge _ _ (by simp; omega), write_of_ge _ _ hl', write_of_ge _ _ hl]

@[simp] theorem read_write (m : Mem α) (a : ℕ) (l : List α) :
    (m.write a l).read a l.length = l :=
  read_eq_list_iff.mpr fun _ hi => write_add m hi

theorem write_of_read {m : Mem α} {a : ℕ} {l : List α} (h : m.read a l.length = l) :
    m.write a l = m := by
  funext x
  rcases Nat.lt_or_ge x a with hx | hx
  · exact write_of_lt m l hx
  rcases Nat.lt_or_ge x (a + l.length) with hl | hl
  · have hat := read_eq_list_iff.mp h (x - a) (by omega)
    rw [write_of_mem m hx (by omega), ← hat, Nat.add_sub_cancel' hx]
  · exact write_of_ge m l hl

/-- Blocks that do not meet the written block keep their contents. -/
theorem read_write_disjoint (m : Mem α) {a b n : ℕ} {l : List α}
    (h : b + n ≤ a ∨ a + l.length ≤ b) : (m.write a l).read b n = m.read b n := by
  refine read_eq_iff.mpr fun i hi => ?_
  rcases h with h | h
  · exact write_of_lt m l (by omega)
  · exact write_of_ge m l (by omega)

/-- Writing over two memories that agree at `x` leaves them in agreement at `x`. -/
theorem write_congr {m m' : Mem α} {x : ℕ} (a : ℕ) (l : List α) (h : m x = m' x) :
    m.write a l x = m'.write a l x := by
  simp only [write, h]

end Mem

end Qmk
