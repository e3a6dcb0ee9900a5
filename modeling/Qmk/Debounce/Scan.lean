import Mathlib.Data.Fintype.Pi
import Mathlib.Data.Fin.Tuple.Basic
import Qmk.Sweep

/-! # Debounced matrix scans

The debounce algorithms share one `debounce` function around two loops of their
own: one that lets the running counters elapse, and one that compares the raw
matrix with the cooked one. A matrix scan reads a new raw matrix, notes whether
it differs from the previous one, and debounces it.
-/

namespace Qmk.Debounce

/-- The words of a matrix, one for each row. -/
abbrev Rows (rows w : ℕ) := Fin rows → BitVec w

/-- The static variables of a debounce algorithm with counters of type `κ`, together with the
cooked matrix that its caller passes in each time. Timer readings have `t` bits. -/
structure Debouncer (κ : Type) (rows w t : ℕ) where
  counters : κ
  cooked : Rows rows w
  lastTime : BitVec t := 0
  countersNeedUpdate : Bool := false
  matrixNeedUpdate : Bool := false
  cookedChanged : Bool := false

/-- The two loops that an algorithm supplies. -/
structure Loops (κ : Type) (rows w t : ℕ) where
  update : Rows rows w → BitVec 8 → Debouncer κ rows w t → Debouncer κ rows w t
  transfer : Rows rows w → Debouncer κ rows w t → Debouncer κ rows w t

variable {κ : Type} {rows w t : ℕ}

/-- `elapsed_time`, cut off at `UINT8_MAX`. -/
def clampElapsed (elapsed : BitVec t) : BitVec 8 :=
  if 255 < elapsed.toNat then 255 else BitVec.ofNat 8 elapsed.toNat

theorem toNat_clampElapsed (elapsed : BitVec t) :
    (clampElapsed elapsed).toNat = min elapsed.toNat 255 := by
  simp only [clampElapsed]
  split_ifs with he
  · simp; omega
  · simp; omega

theorem ofNat_ne_zero {n D : ℕ} (h1 : 1 ≤ D) (h2 : D < 2 ^ n) : BitVec.ofNat n D ≠ 0#n := by
  intro h
  have h := congrArg BitVec.toNat h
  rw [BitVec.toNat_ofNat, Nat.mod_eq_of_lt h2, BitVec.toNat_zero] at h
  omega

namespace Loops

variable (l : Loops κ rows w t)

/-- The first half of `debounce`: let the counters elapse if some may be running. -/
def elapse (raw : Rows rows w) (now : BitVec t) (s : Debouncer κ rows w t) :
    Debouncer κ rows w t :=
  if s.countersNeedUpdate then
    let elapsed := now - s.lastTime
    let s := { s with lastTime := now }
    if 0 < elapsed.toNat then l.update raw (clampElapsed elapsed) s else s
  else s

/-- `debounce`, with `now` the answer of `timer_read_fast`. The result is `cookedChanged`. -/
def debounce (raw : Rows rows w) (now : BitVec t) (changed : Bool) (s : Debouncer κ rows w t) :
    Debouncer κ rows w t :=
  let updatedLast := s.countersNeedUpdate
  let s := l.elapse raw now { s with cookedChanged := false }
  if changed || s.matrixNeedUpdate then
    l.transfer raw (if updatedLast then s else { s with lastTime := now })
  else s

end Loops

/-- What one matrix scan reads: the new raw matrix and the time since the previous scan. -/
structure Scan (rows w t : ℕ) where
  raw : Rows rows w
  elapsed : BitVec t

/-- The scanner of a matrix: the raw matrix of the previous scan, the timer, the debouncer. -/
structure Scanner (κ : Type) (rows w t : ℕ) where
  raw : Rows rows w
  clock : BitVec t := 0
  debouncer : Debouncer κ rows w t

namespace Loops

variable (l : Loops κ rows w t)

/-- `matrix_scan`: the raw matrix counts as changed when it differs from the previous one. -/
def scan (s : Scanner κ rows w t) (c : Scan rows w t) : Scanner κ rows w t :=
  let now := s.clock + c.elapsed
  { raw := c.raw
    clock := now
    debouncer := l.debounce c.raw now (c.raw ≠ s.raw) s.debouncer }

/-- The scanner after a sequence of scans. -/
def run (s : Scanner κ rows w t) (cs : List (Scan rows w t)) : Scanner κ rows w t :=
  cs.foldl l.scan s

@[simp] theorem run_nil (s : Scanner κ rows w t) : l.run s [] = s := rfl

@[simp] theorem run_append (s : Scanner κ rows w t) (cs ds : List (Scan rows w t)) :
    l.run s (cs ++ ds) = l.run (l.run s cs) ds :=
  List.foldl_append

@[simp] theorem run_singleton (s : Scanner κ rows w t) (c : Scan rows w t) :
    l.run s [c] = l.scan s c := rfl

end Loops

/-- The scanner before the first scan: both matrices agree and nothing is running. -/
def Scanner.start (k : κ) (m : Rows rows w) : Scanner κ rows w t where
  raw := m
  debouncer := { counters := k, cooked := m }

/-- The readings of one key, with the time since the previous scan in milliseconds. -/
def keyInputs (cs : List (Scan rows w t)) (row : Fin rows) (col : ℕ) : List (Bool × ℕ) :=
  cs.map fun c => ((c.raw row).getLsbD col, c.elapsed.toNat)

end Qmk.Debounce
