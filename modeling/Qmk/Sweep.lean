import Mathlib.Data.List.Nodup
import Mathlib.Data.List.FinRange

/-! # Sweeps over independent cells

A loop visits each cell of a state once. When every pass reads and writes only
the cell it visits, the loop acts on each cell by itself, and a flag that the
passes may raise is raised exactly when some pass raises it. Rows of machine
words are arrays of one-bit cells, addressed by single-bit masks.
-/

namespace Qmk

section Sweep

variable {σ ι γ : Type*} {f : σ → ι → σ} {cell : σ → ι → γ} {g : ι → γ → γ}

/-- One pass at `i` acts as `g i` on cell `i` and leaves the other cells alone. -/
structure Sweeps (f : σ → ι → σ) (cell : σ → ι → γ) (g : ι → γ → γ) : Prop where
  here : ∀ s i, cell (f s i) i = g i (cell s i)
  elsewhere : ∀ s i j, j ≠ i → cell (f s i) j = cell s j

namespace Sweeps

theorem foldl_of_notMem (h : Sweeps f cell g) {l : List ι} {j : ι} (hj : j ∉ l) (s : σ) :
    cell (l.foldl f s) j = cell s j := by
  induction l generalizing s with
  | nil => rfl
  | cons i l ih =>
    rw [List.mem_cons, not_or] at hj
    obtain ⟨hne, hl⟩ := hj
    exact (ih hl (f s i)).trans (h.elsewhere s i j hne)

/-- A visited cell goes through its own pass, once. -/
theorem foldl_of_mem (h : Sweeps f cell g) {l : List ι} (hl : l.Nodup) {j : ι} (hj : j ∈ l)
    (s : σ) : cell (l.foldl f s) j = g j (cell s j) := by
  induction l generalizing s with
  | nil => cases hj
  | cons i l ih =>
    obtain ⟨hi, hl⟩ := List.nodup_cons.mp hl
    rcases List.mem_cons.mp hj with rfl | hj
    · exact (h.foldl_of_notMem hi _).trans (h.here s j)
    · have hne : j ≠ i := fun hji => hi (hji ▸ hj)
      exact (ih hl hj (f s i)).trans (congrArg (g j) (h.elsewhere s i j hne))

/-- A flag that a pass may only raise, judged on the cells as the loop finds them. -/
theorem flag_foldl (h : Sweeps f cell g) {p : σ → Prop} {q : ι → γ → Prop}
    (hf : ∀ s i, p (f s i) ↔ p s ∨ q i (cell s i)) {l : List ι} (hl : l.Nodup)
    (s : σ) : p (l.foldl f s) ↔ p s ∨ ∃ i ∈ l, q i (cell s i) := by
  induction l generalizing s with
  | nil => simp
  | cons i l ih =>
    obtain ⟨hi, hl⟩ := List.nodup_cons.mp hl
    have hsame : ∀ j ∈ l, cell (f s i) j = cell s j := fun j hj =>
      h.elsewhere s i j fun hji => hi (hji ▸ hj)
    have hrest : (∃ j ∈ l, q j (cell (f s i) j)) ↔ ∃ j ∈ l, q j (cell s j) := by
      constructor
      · rintro ⟨j, hj, hr⟩
        exact ⟨j, hj, hsame j hj ▸ hr⟩
      · rintro ⟨j, hj, hr⟩
        exact ⟨j, hj, (hsame j hj).symm ▸ hr⟩
    calc p (l.foldl f (f s i))
        ↔ (p s ∨ q i (cell s i)) ∨ ∃ j ∈ l, q j (cell s j) := by
          rw [ih hl, hf, hrest]
      _ ↔ p s ∨ ∃ j ∈ i :: l, q j (cell s j) := by simp [or_assoc]

end Sweeps

theorem foldl_keeps {β : Type*} {p : σ → β} (h : ∀ s i, p (f s i) = p s) (l : List ι) (s : σ) :
    p (l.foldl f s) = p s := by
  induction l generalizing s with
  | nil => rfl
  | cons i l ih => exact (ih (f s i)).trans (h s i)

end Sweep

section Masks

variable {w : ℕ}

def bitMask (w c : ℕ) : BitVec w := 1#w <<< c

theorem getLsbD_bitMask {c : ℕ} (hc : c < w) (j : ℕ) :
    (bitMask w c).getLsbD j = decide (j = c) := by
  rw [bitMask, ← BitVec.twoPow_eq, BitVec.getLsbD_twoPow]
  simp [hc, eq_comm]

theorem and_bitMask_ne_zero {c : ℕ} (hc : c < w) (x : BitVec w) :
    x &&& bitMask w c ≠ 0 ↔ x.getLsbD c = true := by
  constructor
  · intro h
    by_contra hx
    refine h (BitVec.eq_of_getLsbD_eq fun j _ => ?_)
    rw [BitVec.getLsbD_and, getLsbD_bitMask hc]
    by_cases hj : j = c <;> simp_all
  · intro hx h
    have := congrArg (BitVec.getLsbD · c) h
    simp [getLsbD_bitMask hc, hx] at this

/-- Replace the masked bit of `x` by that of `y`. -/
def spliceBit (x y : BitVec w) (c : ℕ) : BitVec w := (x &&& ~~~bitMask w c) ||| (y &&& bitMask w c)

theorem getLsbD_spliceBit {c : ℕ} (hc : c < w) (x y : BitVec w) (j : ℕ) :
    (spliceBit x y c).getLsbD j = if j = c then y.getLsbD j else x.getLsbD j := by
  rw [spliceBit, BitVec.getLsbD_or, BitVec.getLsbD_and, BitVec.getLsbD_and, BitVec.getLsbD_not,
    getLsbD_bitMask hc]
  by_cases hj : j = c
  · simp [hj]
  · by_cases hw : j < w
    · simp [hj, hw]
    · simp [hj, hw, BitVec.getLsbD_of_ge x j (Nat.le_of_not_lt hw)]

theorem getLsbD_xor_bitMask {c : ℕ} (hc : c < w) (x : BitVec w) (j : ℕ) :
    (x ^^^ bitMask w c).getLsbD j = if j = c then !x.getLsbD j else x.getLsbD j := by
  rw [BitVec.getLsbD_xor, getLsbD_bitMask hc]
  by_cases hj : j = c <;> simp [hj]

theorem xor_spliceBit_ne_zero {c : ℕ} (hc : c < w) (x y : BitVec w) :
    x ^^^ spliceBit x y c ≠ 0 ↔ x.getLsbD c ≠ y.getLsbD c := by
  refine not_congr (Iff.trans BitVec.xor_eq_zero_iff ?_)
  constructor
  · intro h
    have := congrArg (BitVec.getLsbD · c) h
    simpa [getLsbD_spliceBit hc] using this
  · intro h
    refine BitVec.eq_of_getLsbD_eq fun j _ => ?_
    rw [getLsbD_spliceBit hc]
    by_cases hj : j = c <;> simp [hj, h]

end Masks

end Qmk
