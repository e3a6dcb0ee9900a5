import Mathlib.Logic.Equiv.Fin.Basic
import Qmk.Memory

/-! # Tables of words in a byte memory

A table of words is laid out in a region of a byte memory, the high byte of each word first. The
words and the bytes of the region determine each other, and a write to one word or to a block of
bytes changes what it covers and nothing else.
-/

namespace Qmk

namespace Mem

/-- The word at `a`, the high byte first. -/
def word (m : Mem (BitVec 8)) (a : ℕ) : BitVec 16 := m a ++ m (a + 1)

def setWord (m : Mem (BitVec 8)) (a : ℕ) (w : BitVec 16) : Mem (BitVec 8) :=
  Function.update (Function.update m a (w.extractLsb' 8 8)) (a + 1) (w.setWidth 8)

/-- The `n` cells from `base` on. -/
def region {α : Type*} (m : Mem α) (base n : ℕ) : Fin n → α := fun p => m (base + p)

theorem setWord_of_outside (m : Mem (BitVec 8)) {a x : ℕ} (w : BitVec 16)
    (h : x < a ∨ a + 1 < x) : m.setWord a w x = m x := by
  rw [setWord, Function.update_of_ne (by omega), Function.update_of_ne (by omega)]

@[simp] theorem setWord_high (m : Mem (BitVec 8)) (a : ℕ) (w : BitVec 16) :
    m.setWord a w a = w.extractLsb' 8 8 := by
  rw [setWord, Function.update_of_ne (by omega), Function.update_self]

@[simp] theorem setWord_low (m : Mem (BitVec 8)) (a : ℕ) (w : BitVec 16) :
    m.setWord a w (a + 1) = w.setWidth 8 := Function.update_self ..

@[simp] theorem word_setWord (m : Mem (BitVec 8)) (a : ℕ) (w : BitVec 16) :
    (m.setWord a w).word a = w := by
  rw [word, setWord_high, setWord_low]
  exact BitVec.extractLsb'_append_extractLsb' (w := 8)

end Mem

section Blocks

variable {α : Type*} {n : ℕ}

/-- A block of `size` cells is written at `offset`, as far as it fits. -/
def patch (b : Fin n → α) (offset size : ℕ) (data : ℕ → α) : Fin n → α :=
  fun p => if offset ≤ p ∧ p < offset + size then data (p - offset) else b p

/-- The block of `size` cells at `offset`, with `d` for those that do not exist. -/
def slice (b : Fin n → α) (d : α) (offset size : ℕ) : List α :=
  (List.range size).map fun i => if h : offset + i < n then b ⟨offset + i, h⟩ else d

theorem region_congr {m m' : Mem α} {base : ℕ}
    (h : ∀ x, base ≤ x → x < base + n → m' x = m x) : m'.region base n = m.region base n := by
  funext p
  have hp := p.isLt
  exact h _ (Nat.le_add_right base p) (by omega)

end Blocks

section Tables

variable {ι : Type*} {n : ℕ} (e : ι ≃ Fin n)

/-- The words of a region that holds them in the order of `e`. -/
def words (b : Fin (n * 2) → BitVec 8) : ι → BitVec 16 :=
  fun i => b (finProdFinEquiv (e i, 0)) ++ b (finProdFinEquiv (e i, 1))

def half (w : BitVec 16) : Fin 2 → BitVec 8
  | 0 => w.extractLsb' 8 8
  | 1 => w.setWidth 8

def bytes (t : ι → BitVec 16) : Fin (n * 2) → BitVec 8 := fun p =>
  let cell := finProdFinEquiv.symm p
  half (t (e.symm cell.1)) cell.2

def table (m : Mem (BitVec 8)) (base : ℕ) : ι → BitVec 16 := words e (m.region base (n * 2))

theorem bytes_words (b : Fin (n * 2) → BitVec 8) : bytes e (words e b) = b := by
  funext p
  obtain ⟨⟨i, half⟩, rfl⟩ := finProdFinEquiv.surjective p
  simp only [bytes, words, Equiv.symm_apply_apply, Equiv.apply_symm_apply]
  rcases Fin.exists_fin_two.mp ⟨half, rfl⟩ with rfl | rfl
  · exact BitVec.extractLsb'_append_eq_left
  · exact BitVec.setWidth_append_eq_right (a := b (finProdFinEquiv (i, 0)))

theorem table_apply (m : Mem (BitVec 8)) (base : ℕ) (i : ι) :
    table e m base i = m.word (base + 2 * e i) := by
  simp only [table, words, Mem.region, Mem.word, finProdFinEquiv_apply_val, Fin.val_zero,
    Fin.val_one]
  congr 2 <;> omega

theorem table_congr {m m' : Mem (BitVec 8)} {base : ℕ}
    (h : ∀ x, base ≤ x → x < base + n * 2 → m' x = m x) : table e m' base = table e m base := by
  rw [table, region_congr h]
  rfl

theorem bytes_table (m : Mem (BitVec 8)) (base : ℕ) :
    bytes e (table e m base) = m.region base (n * 2) := bytes_words e _

theorem table_setWord [DecidableEq ι] (m : Mem (BitVec 8)) (base : ℕ) (i : ι) (w : BitVec 16) :
    table e (m.setWord (base + 2 * e i) w) base = Function.update (table e m base) i w := by
  funext j
  rw [table_apply]
  by_cases hj : j = i
  · subst hj
    rw [Function.update_self, Mem.word_setWord]
  · have hne : (e j : ℕ) ≠ e i := fun h => hj (e.injective (Fin.ext h))
    rw [Function.update_of_ne hj, table_apply, Mem.word, Mem.word,
      Mem.setWord_of_outside _ _ (by omega), Mem.setWord_of_outside _ _ (by omega)]

end Tables

end Qmk
