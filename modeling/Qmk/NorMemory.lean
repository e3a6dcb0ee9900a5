import Mathlib.Tactic.Common
import Qmk.Memory

/-! # Memories that clear bits only

A byte of flash memory is programmed by clearing some of its bits, and gets them back when the
block that it is in is erased. The complement of such a memory stands for a memory that is zero
after an erase, as long as a byte is programmed at most once in between.
-/

namespace Qmk

/-- The bytes that are programmed keep the bits that they have in common with what is there. -/
def Mem.program (m : Mem UInt8) (a : ℕ) (l : List UInt8) : Mem UInt8 :=
  fun x => if a ≤ x then m x &&& l.getD (x - a) 0xFF else m x

def Mem.erase (m : Mem UInt8) (a n : ℕ) : Mem UInt8 := m.write a (List.replicate n 0xFF)

namespace NorMemory

open Mem

theorem erase_add (m : Mem UInt8) (a n k : ℕ) :
    (m.erase a n).erase (a + n) k = m.erase a (n + k) := by
  have happend := write_append m a (List.replicate n (0xFF : UInt8)) (List.replicate k 0xFF)
  rw [List.replicate_append_replicate, List.length_replicate] at happend
  exact happend.symm

section Program

variable {m : Mem UInt8} {a x : ℕ} {l k : List UInt8}

theorem and_full (b : UInt8) : b &&& 0xFF = b := UInt8.and_neg_one

theorem program_of_lt (h : x < a) : m.program a l x = m x := if_neg (Nat.not_le.2 h)

theorem program_of_ge (h : a + l.length ≤ x) : m.program a l x = m x := by
  rw [program, List.getD_eq_default _ _ (by omega), and_full, ite_self]

theorem program_of_mem (h : a ≤ x) (hl : x - a < l.length) :
    m.program a l x = m x &&& l[x - a] := by
  rw [program, if_pos h, List.getD_eq_getElem _ _ hl]

@[simp] theorem program_nil : m.program a [] = m := by
  funext x
  rcases Nat.lt_or_ge x a with hx | hx
  · exact program_of_lt hx
  · exact program_of_ge hx

theorem program_append :
    m.program a (l ++ k) = (m.program a l).program (a + l.length) k := by
  funext x
  rcases Nat.lt_or_ge x (a + l.length) with hx | hx
  · rw [program_of_lt hx, program, program]
    split_ifs with ha
    · rw [List.getD_append _ _ _ _ (by omega)]
    · rfl
  · have hshift : x - a - l.length = x - (a + l.length) := by omega
    rw [program, if_pos (by omega), List.getD_append_right _ _ _ _ (by omega), hshift, program,
      if_pos hx, program_of_ge hx]

theorem program_and (m : Mem UInt8) (a : ℕ) (l : List UInt8) (x : ℕ) :
    m.program a l x &&& m x = m.program a l x := by
  rw [program]
  split_ifs
  · rw [UInt8.and_assoc, UInt8.and_comm (l.getD _ _), ← UInt8.and_assoc, UInt8.and_self]
  · exact UInt8.and_self

end Program

section Complement

variable {m : Mem UInt8} {store : Mem UInt8} {base size a : ℕ} {l : List UInt8}

/-- The complement of the bytes from `base` on stands for the store. -/
def Represents (base size : ℕ) (m store : Mem UInt8) : Prop :=
  ∀ x < size, ~~~ m (base + x) = store x

theorem Represents.erase {n : ℕ} (hn : size ≤ n) : Represents base size (m.erase base n)
    (store.write 0 (List.replicate size 0)) := by
  intro x hx
  rw [Mem.erase, write_add _ (by simp; omega), write_of_mem _ (Nat.zero_le x) (by simpa using hx),
    List.getElem_replicate, List.getElem_replicate]
  rfl

theorem not_and_eq_or (b c : UInt8) : ~~~ (b &&& c) = ~~~ b ||| ~~~ c :=
  UInt8.toBitVec_inj.1 (by simp [BitVec.not_and])

theorem Represents.program (h : Represents base size m store)
    (hzero : ∀ x, a ≤ x → x < a + l.length → store x = 0) :
    Represents base size (m.program (base + a) (l.map (~~~ ·))) (store.write a l) := by
  intro x hx
  rcases Nat.lt_or_ge x a with hlt | hge
  · rw [program_of_lt (by omega), write_of_lt _ _ hlt]
    exact h x hx
  rcases Nat.lt_or_ge x (a + l.length) with hlt | hge'
  · have hindex : base + x - (base + a) = x - a := by omega
    have hfull : ~~~ m (base + x) = 0 := (h x hx).trans (hzero x hge hlt)
    rw [program_of_mem (by omega) (by simp; omega), write_of_mem _ hge (by omega)]
    simp only [hindex, List.getElem_map]
    rw [not_and_eq_or, hfull, UInt8.zero_or, UInt8.not_not]
  · rw [program_of_ge (by simp; omega), write_of_ge _ _ hge']
    exact h x hx

theorem Represents.read (h : Represents base size m store) {n : ℕ} (ha : a + n ≤ size) :
    (m.read (base + a) n).map (~~~ ·) = store.read a n := by
  rw [Mem.read, List.map_map, Mem.read]
  refine List.map_congr_left fun i hi => ?_
  rw [List.mem_range] at hi
  rw [Function.comp_apply, Nat.add_assoc]
  exact h _ (by omega)

end Complement

end NorMemory

end Qmk
