import Mathlib.Data.List.DropRight
import Mathlib.Data.Set.Basic
import Mathlib.Tactic.Linarith
import Mathlib.Tactic.Ring

/-! # Lists that lie in a store

A list lies in a store from a place on, upwards or downwards. Two lists that start at the two ends
of an array and grow towards each other do not meet as long as they fit together.
-/

namespace Qmk.BothEnds

variable {α : Type*} {mem : ℤ → α} {dir place : ℤ}

/-- The `n` values from a place on, in a direction. -/
def readFrom (mem : ℤ → α) (dir place : ℤ) (n : ℕ) : List α :=
  (List.range n).map fun k : ℕ => mem (place + dir * k)

def span (dir place : ℤ) (n : ℕ) : Set ℤ := {p | ∃ k : ℕ, k < n ∧ p = place + dir * k}

@[simp] theorem readFrom_zero : readFrom mem dir place 0 = [] := rfl

@[simp] theorem length_readFrom (n : ℕ) : (readFrom mem dir place n).length = n := by
  simp [readFrom]

theorem readFrom_succ (n : ℕ) :
    readFrom mem dir place (n + 1) = readFrom mem dir place n ++ [mem (place + dir * n)] := by
  simp [readFrom, List.range_succ]

theorem readFrom_succ' (n : ℕ) :
    readFrom mem dir place (n + 1) = mem place :: readFrom mem dir (place + dir) n := by
  simp only [readFrom, List.range_succ_eq_map, List.map_cons, List.map_map, Nat.cast_zero,
    mul_zero, add_zero, List.cons.injEq, true_and]
  refine List.map_congr_left fun k _ => ?_
  simp only [Function.comp_apply, Nat.succ_eq_add_one, Nat.cast_add, Nat.cast_one]
  ring_nf

theorem take_readFrom {k n : ℕ} (h : k ≤ n) :
    (readFrom mem dir place n).take k = readFrom mem dir place k := by
  rw [readFrom, ← List.map_take, List.take_range, Nat.min_eq_left h, readFrom]

theorem readFrom_of_isPrefix {l : List α} {n : ℕ} (h : l <+: readFrom mem dir place n) :
    readFrom mem dir place l.length = l := by
  have hle := h.length_le
  rw [length_readFrom] at hle
  rw [← take_readFrom hle, ← List.prefix_iff_eq_take.mp h]

theorem readFrom_congr {mem' : ℤ → α} {n : ℕ} (h : ∀ p ∈ span dir place n, mem' p = mem p) :
    readFrom mem' dir place n = readFrom mem dir place n :=
  List.map_congr_left fun k hk => h _ ⟨k, List.mem_range.mp hk, rfl⟩

theorem readFrom_update {n : ℕ} {p : ℤ} {a : α} (h : p ∉ span dir place n) :
    readFrom (Function.update mem p a) dir place n = readFrom mem dir place n := by
  refine readFrom_congr fun q hq => Function.update_of_ne ?_ _ _
  rintro rfl
  exact h hq

theorem next_notMem_span (h : dir ≠ 0) (n : ℕ) : place + dir * n ∉ span dir place n := by
  rintro ⟨k, hk, he⟩
  have : (n : ℤ) = k := mul_left_cancel₀ h (add_left_cancel he)
  omega

theorem start_notMem_span (h : dir ≠ 0) (n : ℕ) : place ∉ span dir (place + dir) n := by
  rintro ⟨k, hk, he⟩
  have : dir * (k + 1 : ℤ) = 0 := by linarith [mul_add dir k 1]
  rcases mul_eq_zero.mp this with h0 | h0
  · exact h h0
  · omega

section Ends

variable {size m n : ℕ}

theorem mem_span_up {p : ℤ} : p ∈ span 1 0 n ↔ 0 ≤ p ∧ p < n := by
  constructor
  · rintro ⟨k, hk, rfl⟩
    omega
  · rintro ⟨h0, hn⟩
    exact ⟨p.toNat, by omega, by omega⟩

theorem mem_span_down {p : ℤ} : p ∈ span (-1) (size - 1) n ↔ size - n ≤ p ∧ p < size := by
  constructor
  · rintro ⟨k, hk, rfl⟩
    omega
  · rintro ⟨h0, hn⟩
    exact ⟨(size - 1 - p).toNat, by omega, by omega⟩

theorem span_inter_span (h : m + n ≤ size) : span 1 0 m ∩ span (-1) (size - 1) n = ∅ := by
  refine Set.eq_empty_iff_forall_notMem.mpr ?_
  rintro p ⟨hp, hq⟩
  rw [mem_span_up] at hp
  rw [mem_span_down] at hq
  omega

end Ends

end Qmk.BothEnds
