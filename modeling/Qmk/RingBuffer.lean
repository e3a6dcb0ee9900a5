import Mathlib.Algebra.Group.Fin.Basic
import Mathlib.Data.Fintype.Pi

/-! # Ring buffers

A queue in an array. One slot stays free, so that the queue is empty exactly if the position of
the next element to write is that of the next one to read.
-/

namespace Qmk

/-- A queue of at most `n` elements in `n + 1` slots. -/
structure Ring (α : Type*) (n : ℕ) where
  head : Fin (n + 1)
  tail : Fin (n + 1)
  slots : Fin (n + 1) → α
  deriving DecidableEq

namespace Ring

variable {α : Type*} {n : ℕ} {a : α} {r : Ring α n}

/-- Writing an element, unless the queue is full. -/
def push (r : Ring α n) (a : α) : Option (Ring α n) :=
  if r.tail = r.head + 1 then none
  else some { r with head := r.head + 1, slots := Function.update r.slots r.head a }

/-- Reading an element, unless the queue is empty. -/
def pop (r : Ring α n) : Option (α × Ring α n) :=
  if r.head = r.tail then none else some (r.slots r.tail, { r with tail := r.tail + 1 })

def clear (r : Ring α n) : Ring α n := { r with tail := r.head }

/-- `k` elements from a position on. -/
def listFrom (slots : Fin (n + 1) → α) : ℕ → Fin (n + 1) → List α
  | 0, _ => []
  | k + 1, i => slots i :: listFrom slots k (i + 1)

def count (r : Ring α n) : ℕ := Fin.val (r.head - r.tail)

def toList (r : Ring α n) : List α := listFrom r.slots r.count r.tail

@[simp] theorem length_listFrom (slots : Fin (n + 1) → α) (k : ℕ) (i : Fin (n + 1)) :
    (listFrom slots k i).length = k := by
  induction k generalizing i with
  | zero => rfl
  | succ k ih => rw [listFrom, List.length_cons, ih]

@[simp] theorem length_toList (r : Ring α n) : r.toList.length = r.count := length_listFrom _ _ _

theorem count_le (r : Ring α n) : r.count ≤ n := Nat.le_of_lt_succ (r.head - r.tail).isLt

theorem count_eq_zero : r.count = 0 ↔ r.head = r.tail := by
  rw [count, Fin.val_eq_zero_iff, sub_eq_zero]

theorem toList_eq_nil : r.toList = [] ↔ r.head = r.tail := by
  rw [← List.length_eq_zero_iff, length_toList, count_eq_zero]

@[simp] theorem toList_clear (r : Ring α n) : r.clear.toList = [] := toList_eq_nil.mpr rfl

theorem count_eq_iff : r.count = n ↔ r.tail = r.head + 1 := by
  have hlast : r.count = n ↔ r.head - r.tail = Fin.last n := by
    rw [Fin.ext_iff]
    rfl
  rw [hlast, ← add_left_inj (1 : Fin (n + 1)), Fin.last_add_one, sub_add_eq_add_sub, sub_eq_zero]
  exact eq_comm

theorem val_sub_add_one {i j : Fin (n + 1)} (h : Fin.val (i - j) ≠ n) :
    Fin.val (i + 1 - j) = Fin.val (i - j) + 1 := by
  have hlast : i - j ≠ Fin.last n := fun hlast => h (congrArg Fin.val hlast)
  rw [← sub_add_eq_add_sub, Fin.val_add_one_of_lt (Fin.lt_last_iff_ne_last.mpr hlast)]

theorem val_sub_succ {i j : Fin (n + 1)} (h : i ≠ j) :
    Fin.val (i - (j + 1)) + 1 = Fin.val (i - j) := by
  have hpos : i - j ≠ 0 := sub_ne_zero.mpr h
  rw [← sub_sub, Fin.coe_sub_one, if_neg hpos]
  exact Nat.succ_pred_eq_of_pos (Nat.pos_of_ne_zero (Fin.val_ne_zero_iff.mpr hpos))

theorem listFrom_update {slots : Fin (n + 1) → α} {i : Fin (n + 1)} {k : ℕ} {j : Fin (n + 1)}
    (hk : Fin.val (i - j) = k) :
    listFrom (Function.update slots i a) (k + 1) j = listFrom slots k j ++ [a] := by
  induction k generalizing j with
  | zero =>
    obtain rfl : i = j := sub_eq_zero.mp (Fin.val_eq_zero_iff.mp hk)
    simp [listFrom]
  | succ k ih =>
    have hne : i ≠ j := by
      rintro rfl
      simp at hk
    have hnext : Fin.val (i - (j + 1)) = k := Nat.succ.inj ((val_sub_succ hne).trans hk)
    rw [listFrom, ih hnext, Function.update_of_ne hne.symm]
    rfl

theorem push_eq_none : r.push a = none ↔ r.count = n := by
  rw [push, count_eq_iff, ite_eq_left_iff]
  simp

theorem toList_push {r' : Ring α n} (h : r.push a = some r') : r'.toList = r.toList ++ [a] := by
  obtain ⟨hroom, h⟩ := Option.ite_none_left_eq_some.mp h
  obtain rfl := Option.some.inj h
  have hcount : Fin.val (r.head + 1 - r.tail) = r.count + 1 :=
    val_sub_add_one fun hfull => hroom (count_eq_iff.mp hfull)
  rw [toList, count, hcount]
  exact listFrom_update rfl

theorem pop_eq_none : r.pop = none ↔ r.toList = [] := by
  rw [toList_eq_nil, pop, ite_eq_left_iff]
  simp

theorem toList_pop {r' : Ring α n} (h : r.pop = some (a, r')) : r.toList = a :: r'.toList := by
  obtain ⟨hne, h⟩ := Option.ite_none_left_eq_some.mp h
  obtain ⟨rfl, rfl⟩ := Prod.mk.inj (Option.some.inj h)
  rw [toList, count, ← val_sub_succ hne]
  rfl

section Places

variable {slots : Fin (n + 1) → α} {i : Fin (n + 1)} {k : ℕ}

/-- The place that is `k` places further on. -/
def move : ℕ → Fin (n + 1) → Fin (n + 1)
  | 0, i => i
  | k + 1, i => move k (i + 1)

/-- `k` places from a place on. -/
def walk : ℕ → Fin (n + 1) → List (Fin (n + 1))
  | 0, _ => []
  | k + 1, i => i :: walk k (i + 1)

theorem listFrom_eq_map (slots : Fin (n + 1) → α) (k : ℕ) (i : Fin (n + 1)) :
    listFrom slots k i = (walk k i).map slots := by
  induction k generalizing i with
  | zero => rfl
  | succ k ih => rw [listFrom, walk, List.map_cons, ih]

theorem move_add (j k : ℕ) (i : Fin (n + 1)) : move (j + k) i = move k (move j i) := by
  induction j generalizing i with
  | zero => rw [Nat.zero_add, move]
  | succ j ih => rw [Nat.succ_add, move, move, ih]

theorem move_succ (k : ℕ) (i : Fin (n + 1)) : move (k + 1) i = move k i + 1 := move_add k 1 i

theorem walk_add (j k : ℕ) (i : Fin (n + 1)) : walk (j + k) i = walk j i ++ walk k (move j i) := by
  induction j generalizing i with
  | zero => rw [Nat.zero_add, walk, move, List.nil_append]
  | succ j ih => rw [Nat.succ_add, walk, walk, move, ih, List.cons_append]

theorem listFrom_add (slots : Fin (n + 1) → α) (j k : ℕ) (i : Fin (n + 1)) :
    listFrom slots (j + k) i = listFrom slots j i ++ listFrom slots k (move j i) := by
  simp only [listFrom_eq_map, walk_add, List.map_append]

theorem val_move_sub (hk : k ≤ n) (i : Fin (n + 1)) : Fin.val (move k i - i) = k := by
  induction k with
  | zero => simp [move]
  | succ k ih =>
    have hprev := ih (Nat.le_of_succ_le hk)
    rw [move_succ, val_sub_add_one (by omega), hprev]

theorem move_all (i : Fin (n + 1)) : move (n + 1) i = i := by
  have hlast : move n i - i = Fin.last n := Fin.ext (val_move_sub le_rfl i)
  rw [move_succ, ← sub_eq_zero, ← sub_add_eq_add_sub, hlast, Fin.last_add_one]

theorem move_inj {j k : ℕ} (hj : j ≤ n) (hk : k ≤ n) (h : move j i = move k i) : j = k := by
  rw [← val_move_sub hj i, h, val_move_sub hk i]

theorem move_ne_self (hpos : k ≠ 0) (hk : k ≤ n) (i : Fin (n + 1)) : move k i ≠ i := by
  intro heq
  have hzero : move k i = move 0 i := heq
  exact hpos (move_inj hk (Nat.zero_le n) hzero)

theorem listFrom_update_move {m : ℕ} (hk : k < m) (hm : m ≤ n + 1) :
    listFrom (Function.update slots (move k i) a) m i = (listFrom slots m i).set k a := by
  apply List.ext_getElem?
  intro j
  have hget (f : Fin (n + 1) → α) (j m : ℕ) (i : Fin (n + 1)) :
      (listFrom f m i)[j]? = if j < m then some (f (move j i)) else none := by
    induction m generalizing i j with
    | zero => simp [listFrom]
    | succ m ih =>
      cases j with
      | zero => simp [listFrom, move]
      | succ j => simp [listFrom, move, ih]
  rw [List.getElem?_set, hget, hget, length_listFrom]
  by_cases hjk : k = j
  · subst hjk
    simp [hk]
  · have hne (hj : j < m) : move j i ≠ move k i := by
      intro heq
      exact hjk (move_inj (by omega) (by omega) heq).symm
    by_cases hj : j < m
    · simp [hj, hjk, Function.update_of_ne (hne hj)]
    · simp [hj, hjk]

theorem listFrom_update_last (slots : Fin (n + 1) → α) (i : Fin (n + 1)) (a : α) :
    listFrom (Function.update slots i a) (n + 1) (i + 1) = listFrom slots n (i + 1) ++ [a] := by
  refine listFrom_update ?_
  have hmove := val_move_sub (k := n) le_rfl (i + 1)
  rwa [show move n (i + 1) = i from move_all i] at hmove

end Places

end Ring

end Qmk
