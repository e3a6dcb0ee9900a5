import Qmk.Painter.Rect
import Mathlib.Data.List.Chain
import Mathlib.Data.Rat.Defs
import Mathlib.Algebra.Order.Field.Basic
import Mathlib.Algebra.Order.Field.Rat
import Mathlib.Tactic.FieldSimp
import Mathlib.Tactic.Linarith
import Mathlib.Tactic.Ring

/-! # Lines

The loop of `qp_line` with its 16 bit variables. Behind every step the error term is the
sum of its start value and the signed distance to the ideal line, counted in multiples of
the two extents, and this distance is at most half of the longer extent.
-/

namespace Qmk.Painter

section Int16

def int16 (n : ℤ) : ℤ := n.bmod (2 ^ 16)

def FitsInt16 (n : ℤ) : Prop := -2 ^ 15 ≤ n ∧ n < 2 ^ 15

instance (n : ℤ) : Decidable (FitsInt16 n) := inferInstanceAs (Decidable (_ ∧ _))

theorem int16_of_fits {n : ℤ} (h : FitsInt16 n) : int16 n = n := by
  unfold FitsInt16 at h
  exact Int.bmod_eq_of_le (by omega) (by omega)

end Int16

/-- The variables of `qp_line` that its loop only reads. -/
structure Slope where
  x1 : ℤ
  y1 : ℤ
  slopex : ℤ
  slopey : ℤ
  dx : ℤ
  dy : ℤ

/-- The variables that the loop of `qp_line` changes. -/
structure Position where
  x : ℤ
  y : ℤ
  e : ℤ

/-- The pixels that are plotted, and the values that are stored in the error term before
they are converted to an `int16_t`. -/
structure Plot where
  pixels : List (ℕ × ℕ)
  terms : List ℤ

/-- The arguments of `qp_internal_setpixel_impl`. -/
def Position.pixel (s : Position) : ℕ × ℕ := ((s.x % 2 ^ 16).toNat, (s.y % 2 ^ 16).toNat)

/-- The part of `qp_line` before its loop. -/
def Slope.ofLine (x0 y0 x1 y1 : ℕ) : Slope where
  x1 := x1
  y1 := y1
  slopex := if int16 x0 < int16 x1 then 1 else -1
  slopey := if int16 y0 < int16 y1 then 1 else -1
  dx := int16 |int16 x1 - int16 x0|
  dy := int16 (-|int16 y1 - int16 y0|)

namespace Slope

variable (l : Slope)

def start (x0 y0 : ℕ) : Position := ⟨int16 x0, int16 y0, int16 (l.dx + l.dy)⟩

def step (s : Position) : Position × List ℤ :=
  let e2 := int16 (2 * s.e)
  let r : Position × List ℤ := if l.dy ≤ e2 then
      ({ s with x := int16 (s.x + l.slopex), e := int16 (s.e + l.dy) }, [s.e + l.dy])
    else (s, [])
  let s' := r.1
  let r' : Position × List ℤ := if e2 ≤ l.dx then
      ({ s' with y := int16 (s'.y + l.slopey), e := int16 (s'.e + l.dx) }, [s'.e + l.dx])
    else (s', [])
  (r'.1, 2 * s.e :: (r.2 ++ r'.2))

/-- The loop of `qp_line` and the last pixel, if the loop ends after at most `fuel` steps. -/
def loop : ℕ → Position → Option Plot
  | 0, s =>
    if s.x ≠ l.x1 ∨ s.y ≠ l.y1 then none
    else some { pixels := [s.pixel], terms := [] }
  | fuel + 1, s =>
    if s.x ≠ l.x1 ∨ s.y ≠ l.y1 then
      (loop fuel (l.step s).1).map fun p =>
        { pixels := s.pixel :: p.pixels, terms := (l.step s).2 ++ p.terms }
    else some { pixels := [s.pixel], terms := [] }

end Slope

/-- The pixels of a line that is not horizontal or vertical. -/
def linePlot (fuel x0 y0 x1 y1 : ℕ) : Option Plot :=
  let l := Slope.ofLine x0 y0 x1 y1
  (l.loop fuel (l.start x0 y0)).map fun p =>
    { p with terms := (l.dx + l.dy) :: 2 * int16 (l.dx + l.dy) :: p.terms }

def setpixelImpl (p : ℕ × ℕ) : List Command := [.viewport p.1 p.2 p.1 p.2, .pixdata 1]

def line (panel : Panel) (fuel x0 y0 x1 y1 : ℕ) : Option (List Command) :=
  if x0 = x1 ∨ y0 = y1 then some (rect panel x0 y0 x1 y1 true)
  else (linePlot fuel x0 y0 x1 y1).map fun p => .fill 1 :: p.pixels.flatMap setpixelImpl

section Specification

/-- Pixels that differ by at most 1 in each coordinate. -/
def Adjacent (p q : ℕ × ℕ) : Prop := |(p.1 : ℤ) - q.1| ≤ 1 ∧ |(p.2 : ℤ) - q.2| ≤ 1

/-- A pixel within half a pixel of the ideal line, along the minor axis. -/
def NearLine (x0 y0 x1 y1 : ℕ) (p : ℕ × ℕ) : Prop :=
  if |(y1 : ℤ) - y0| ≤ |(x1 : ℤ) - x0| then
    |(p.2 : ℚ) - (y0 + (y1 - y0) * ((p.1 - x0) / (x1 - x0)))| ≤ 1 / 2
  else |(p.1 : ℚ) - (x0 + (x1 - x0) * ((p.2 - y0) / (y1 - y0)))| ≤ 1 / 2

/-- The number of steps of a line. -/
def lineLength (x0 y0 x1 y1 : ℕ) : ℕ := max ((x1 : ℤ) - x0).natAbs ((y1 : ℤ) - y0).natAbs

/-- A line from one end to the other, close to the ideal one, without an overflow. -/
structure LineDrawn (x0 y0 x1 y1 : ℕ) (p : Plot) : Prop where
  length : p.pixels.length = lineLength x0 y0 x1 y1 + 1
  first : p.pixels.head? = some (x0, y0)
  last : p.pixels.getLast? = some (x1, y1)
  connected : p.pixels.IsChain Adjacent
  box : ∀ q ∈ p.pixels, min x0 x1 ≤ q.1 ∧ q.1 ≤ max x0 x1 ∧ min y0 y1 ≤ q.2 ∧ q.2 ≤ max y0 y1
  near : ∀ q ∈ p.pixels, NearLine x0 y0 x1 y1 q
  fits : ∀ e ∈ p.terms, FitsInt16 e

end Specification

section Invariant

def Small (n : ℤ) : Prop := 0 ≤ n ∧ n ≤ 8191

theorem Small.int16 {n : ℤ} (h : Small n) : int16 n = n :=
  int16_of_fits (by unfold Small at h; unfold FitsInt16; omega)

/-- The variables of a line from `x0`, `y0` to `x1`, `y1`. -/
structure Slope.Spans (l : Slope) (x0 y0 : ℤ) : Prop where
  slopex : l.slopex = 1 ∨ l.slopex = -1
  slopey : l.slopey = 1 ∨ l.slopey = -1
  dx : 0 < l.dx
  dy : l.dy < 0
  fromx : Small x0
  fromy : Small y0
  tox : Small l.x1
  toy : Small l.y1
  endx : l.x1 = x0 + l.slopex * l.dx
  endy : l.y1 = y0 - l.slopey * l.dy

namespace Slope

/-- The signed distance to the ideal line, times the extents. -/
def distance (l : Slope) (i j : ℤ) : ℤ := l.dx * j + l.dy * i

def extent (l : Slope) : ℤ := max l.dx (-l.dy)

/-- After `k` steps the position is `i` columns and `j` rows away from the start. -/
structure At (l : Slope) (x0 y0 k i j : ℤ) (s : Position) : Prop where
  x : s.x = x0 + l.slopex * i
  y : s.y = y0 + l.slopey * j
  e : s.e = l.dx + l.dy + l.distance i j
  columns : 0 ≤ i ∧ i ≤ l.dx
  rows : 0 ≤ j ∧ j ≤ -l.dy
  steps : if -l.dy ≤ l.dx then i = k else j = k
  error : -l.extent ≤ 2 * l.distance i j ∧ 2 * l.distance i j ≤ l.extent

theorem distance_column (l : Slope) (i j : ℤ) : l.distance (i + 1) j = l.distance i j + l.dy := by
  unfold distance
  ring

theorem distance_row (l : Slope) (i j : ℤ) : l.distance i (j + 1) = l.distance i j + l.dx := by
  unfold distance
  ring

/-- Half of an extent from the ideal line, the other coordinate does not leave the box. -/
theorem le_of_distance {a b i j : ℤ} (ha : 0 < a) (hb : 0 ≤ b) (hi : i ≤ a)
    (h : 2 * (a * j - b * i) ≤ a) : j ≤ b := by
  by_contra hj
  have hrow : a * (b + 1) ≤ a * j := Int.mul_le_mul_of_nonneg_left (by omega) ha.le
  have hcolumn : b * i ≤ b * a := Int.mul_le_mul_of_nonneg_left hi hb
  linarith [mul_comm a b]

/-- At the end of the longer extent the line has reached the end of the shorter one. -/
theorem eq_of_distance {a b j : ℤ} (ha : 0 < a) (hj : j ≤ b) (h : -a ≤ 2 * (a * j - b * a)) :
    j = b := by
  by_contra hne
  have hrow : a * (j + 1) ≤ a * b := Int.mul_le_mul_of_nonneg_left (by omega) ha.le
  linarith [mul_comm a b]

variable {l : Slope} {x0 y0 k i j : ℤ} {s : Position}

theorem Spans.dx_le (h : l.Spans x0 y0) : l.dx ≤ 8191 := by
  have hx0 := h.fromx
  have hx1 := h.tox
  have hend := h.endx
  unfold Small at hx0 hx1
  rcases h.slopex with hs | hs <;> rw [hs] at hend <;> omega

theorem Spans.dy_le (h : l.Spans x0 y0) : -l.dy ≤ 8191 := by
  have hy0 := h.fromy
  have hy1 := h.toy
  have hend := h.endy
  unfold Small at hy0 hy1
  rcases h.slopey with hs | hs <;> rw [hs] at hend <;> omega

theorem Spans.column (h : l.Spans x0 y0) (hi : 0 ≤ i ∧ i ≤ l.dx) :
    min x0 l.x1 ≤ x0 + l.slopex * i ∧ x0 + l.slopex * i ≤ max x0 l.x1 := by
  have hend := h.endx
  rcases h.slopex with hs | hs <;> rw [hs] at hend ⊢ <;> omega

theorem Spans.row (h : l.Spans x0 y0) (hj : 0 ≤ j ∧ j ≤ -l.dy) :
    min y0 l.y1 ≤ y0 + l.slopey * j ∧ y0 + l.slopey * j ≤ max y0 l.y1 := by
  have hend := h.endy
  rcases h.slopey with hs | hs <;> rw [hs] at hend ⊢ <;> omega

theorem At.small (h : l.Spans x0 y0) (hs : l.At x0 y0 k i j s) : Small s.x ∧ Small s.y := by
  have hcolumn := h.column hs.columns
  have hrow := h.row hs.rows
  obtain ⟨hx0, hx0'⟩ := h.fromx
  obtain ⟨hx1, hx1'⟩ := h.tox
  obtain ⟨hy0, hy0'⟩ := h.fromy
  obtain ⟨hy1, hy1'⟩ := h.toy
  rw [← hs.x] at hcolumn
  rw [← hs.y] at hrow
  unfold Small
  omega

theorem At.at_end_iff (h : l.Spans x0 y0) (hs : l.At x0 y0 k i j s) (hk : k ≤ l.extent) :
    s.x = l.x1 ∧ s.y = l.y1 ↔ k = l.extent := by
  have hdx := h.dx
  have hdy := h.dy
  have hsteps := hs.steps
  have herror := hs.error
  have hcolumns := hs.columns
  have hrows := hs.rows
  have hx : s.x = l.x1 ↔ i = l.dx := by
    rw [hs.x, h.endx]
    rcases h.slopex with hslope | hslope <;> rw [hslope] <;> omega
  have hy : s.y = l.y1 ↔ j = -l.dy := by
    rw [hs.y, h.endy]
    rcases h.slopey with hslope | hslope <;> rw [hslope] <;> omega
  unfold extent distance at *
  rw [hx, hy]
  split_ifs at hsteps with hlong
  · subst hsteps
    constructor
    · rintro ⟨rfl, -⟩
      omega
    · intro hend
      obtain rfl : i = l.dx := by omega
      refine ⟨rfl, eq_of_distance hdx hrows.2 ?_⟩
      rw [max_eq_left hlong] at herror
      linarith [neg_mul l.dy l.dx]
  · subst hsteps
    constructor
    · rintro ⟨-, rfl⟩
      omega
    · intro hend
      obtain rfl : j = -l.dy := by omega
      refine ⟨eq_of_distance (a := -l.dy) (by omega) hcolumns.2 ?_, rfl⟩
      rw [max_eq_right (by omega)] at herror
      linarith [neg_mul l.dy i, mul_neg l.dx l.dy]

theorem At.fits (h : l.Spans x0 y0) (hs : l.At x0 y0 k i j s) :
    FitsInt16 (2 * s.e) ∧ FitsInt16 (s.e + l.dy) ∧ FitsInt16 (s.e + l.dx) ∧
      FitsInt16 (s.e + l.dy + l.dx) := by
  have hdx := h.dx
  have hdy := h.dy
  have hdx_le := h.dx_le
  have hdy_le := h.dy_le
  have herror := hs.error
  have he := hs.e
  unfold extent at herror
  unfold FitsInt16
  omega

theorem At.of_error (h : l.Spans x0 y0) (hx : s.x = x0 + l.slopex * i)
    (hy : s.y = y0 + l.slopey * j) (he : s.e = l.dx + l.dy + l.distance i j) (hi : 0 ≤ i)
    (hj : 0 ≤ j) (hk : k ≤ l.extent) (hsteps : if -l.dy ≤ l.dx then i = k else j = k)
    (herror : -l.extent ≤ 2 * l.distance i j ∧ 2 * l.distance i j ≤ l.extent) :
    l.At x0 y0 k i j s := by
  have hdx := h.dx
  have hdy := h.dy
  have hbox : i ≤ l.dx ∧ j ≤ -l.dy := by
    unfold extent distance at *
    split_ifs at hsteps with hlong
    · refine ⟨by omega, le_of_distance (i := i) hdx (by omega) (by omega) ?_⟩
      rw [max_eq_left hlong] at herror
      linarith [neg_mul l.dy i]
    · refine ⟨le_of_distance (a := -l.dy) (i := j) (by omega) hdx.le (by omega) ?_, by omega⟩
      rw [max_eq_right (by omega)] at herror
      linarith [neg_mul l.dy i]
  exact ⟨hx, hy, he, ⟨hi, hbox.1⟩, ⟨hj, hbox.2⟩, hsteps, herror⟩

theorem At.step (h : l.Spans x0 y0) (hs : l.At x0 y0 k i j s) (hk : k < l.extent) :
    (∀ e ∈ (l.step s).2, FitsInt16 e) ∧ ∃ i' j', (i' = i ∨ i' = i + 1) ∧ (j' = j ∨ j' = j + 1) ∧
      l.At x0 y0 (k + 1) i' j' (l.step s).1 := by
  have hdx := h.dx
  have hdy := h.dy
  obtain ⟨hdouble, hcolumn, hrow, hboth⟩ := hs.fits h
  obtain ⟨⟨hx, hx'⟩, hy, hy'⟩ := hs.small h
  have hslopex : int16 (s.x + l.slopex) = s.x + l.slopex :=
    int16_of_fits (by have := h.slopex; unfold FitsInt16; omega)
  have hslopey : int16 (s.y + l.slopey) = s.y + l.slopey :=
    int16_of_fits (by have := h.slopey; unfold FitsInt16; omega)
  have hcolumn' : s.x + l.slopex = x0 + l.slopex * (i + 1) := by rw [hs.x]; ring
  have hrow' : s.y + l.slopey = y0 + l.slopey * (j + 1) := by rw [hs.y]; ring
  have he := hs.e
  have herror := hs.error
  have hsteps := hs.steps
  have hextent : l.extent = max l.dx (-l.dy) := rfl
  have hi := hs.columns.1
  have hj := hs.rows.1
  unfold Slope.step
  rw [int16_of_fits hdouble]
  by_cases hx : l.dy ≤ 2 * s.e <;> by_cases hy : 2 * s.e ≤ l.dx
  · simp only [if_pos hx, if_pos hy, int16_of_fits hcolumn, int16_of_fits hboth, hslopex, hslopey]
    refine ⟨by simp [hdouble, hcolumn, hboth], i + 1, j + 1, .inr rfl, .inr rfl, ?_⟩
    refine At.of_error h hcolumn' hrow' ?_ (by omega) (by omega) (by omega) ?_ ?_
    · rw [distance_row, distance_column]
      dsimp only
      omega
    · split_ifs at hsteps ⊢ <;> omega
    · rw [distance_row, distance_column]
      omega
  · simp only [if_pos hx, if_neg hy, int16_of_fits hcolumn, hslopex]
    refine ⟨by simp [hdouble, hcolumn], i + 1, j, .inr rfl, .inl rfl, ?_⟩
    refine At.of_error h hcolumn' hs.y ?_ (by omega) hj (by omega) ?_ ?_
    · rw [distance_column]
      dsimp only
      omega
    · split_ifs at hsteps ⊢ <;> omega
    · rw [distance_column]
      omega
  · simp only [if_neg hx, if_pos hy, int16_of_fits hrow, hslopey]
    refine ⟨by simp [hdouble, hrow], i, j + 1, .inl rfl, .inr rfl, ?_⟩
    refine At.of_error h hs.x hrow' ?_ hi (by omega) (by omega) ?_ ?_
    · rw [distance_row]
      dsimp only
      omega
    · split_ifs at hsteps ⊢ <;> omega
    · rw [distance_row]
      omega
  · omega

theorem At.pixel (h : l.Spans x0 y0) (hs : l.At x0 y0 k i j s) :
    ((s.pixel.1 : ℤ) = x0 + l.slopex * i) ∧ (s.pixel.2 : ℤ) = y0 + l.slopey * j := by
  obtain ⟨⟨hx, hx'⟩, hy, hy'⟩ := hs.small h
  rw [← hs.x, ← hs.y]
  unfold Position.pixel
  dsimp only
  omega

theorem At.adjacent {k' i' j' : ℤ} {s' : Position} (h : l.Spans x0 y0) (hs : l.At x0 y0 k i j s)
    (hs' : l.At x0 y0 k' i' j' s') (hi : i' = i ∨ i' = i + 1) (hj : j' = j ∨ j' = j + 1) :
    Adjacent s.pixel s'.pixel := by
  have hpixel := hs.pixel h
  have hpixel' := hs'.pixel h
  unfold Adjacent
  rw [hpixel.1, hpixel.2, hpixel'.1, hpixel'.2, abs_le, abs_le]
  constructor
  · rcases h.slopex with hslope | hslope <;> rw [hslope] <;> omega
  · rcases h.slopey with hslope | hslope <;> rw [hslope] <;> omega

end Slope

end Invariant

section Run

namespace Slope

variable {l : Slope} {x0 y0 k i j : ℤ} {s : Position}

structure Rest (l : Slope) (x0 y0 : ℤ) (s : Position) (n : ℕ) (p : Plot) : Prop where
  length : p.pixels.length = n + 1
  first : p.pixels.head? = some s.pixel
  last : ∃ q, p.pixels.getLast? = some q ∧ (q.1 : ℤ) = l.x1 ∧ (q.2 : ℤ) = l.y1
  connected : p.pixels.IsChain Adjacent
  on_line : ∀ q ∈ p.pixels, ∃ k i j s', l.At x0 y0 k i j s' ∧ q = s'.pixel
  fits : ∀ e ∈ p.terms, FitsInt16 e

theorem At.run (h : l.Spans x0 y0) (hs : l.At x0 y0 k i j s) {n : ℕ} (hn : k + n = l.extent) :
    ∃ p, l.Rest x0 y0 s n p ∧ ∀ fuel, l.loop fuel s = if n ≤ fuel then some p else none := by
  induction n generalizing k i j s with
  | zero =>
    obtain ⟨hx, hy⟩ := (hs.at_end_iff h (by omega)).mpr (by omega)
    refine ⟨⟨[s.pixel], []⟩, ⟨rfl, rfl, ⟨s.pixel, rfl, ?_⟩, ?_, ?_, ?_⟩, fun fuel => ?_⟩
    · rw [(hs.pixel h).1, (hs.pixel h).2, ← hs.x, ← hs.y]
      exact ⟨hx, hy⟩
    · exact List.isChain_singleton _
    · intro q hq
      exact ⟨k, i, j, s, hs, List.mem_singleton.mp hq⟩
    · intro e he
      cases he
    · have hend : ¬ (s.x ≠ l.x1 ∨ s.y ≠ l.y1) := by simp [hx, hy]
      cases fuel <;> rw [loop, if_neg hend, if_pos (Nat.zero_le _)]
  | succ n ih =>
    have hmore : s.x ≠ l.x1 ∨ s.y ≠ l.y1 := by
      have := hs.at_end_iff h (by omega)
      omega
    obtain ⟨hterms, i', j', hi', hj', hs'⟩ := hs.step h (by omega)
    obtain ⟨p, hp, hloop⟩ := ih hs' (by omega)
    refine ⟨⟨s.pixel :: p.pixels, (l.step s).2 ++ p.terms⟩, ⟨?_, rfl, ?_, ?_, ?_, ?_⟩,
      fun fuel => ?_⟩
    · rw [List.length_cons, hp.length]
    · obtain ⟨q, hlast, hq⟩ := hp.last
      refine ⟨q, ?_, hq⟩
      rw [List.getLast?_cons_of_ne_nil, hlast]
      rintro hnil
      rw [hnil] at hlast
      cases hlast
    · refine hp.connected.cons fun q hq => ?_
      obtain rfl : (l.step s).1.pixel = q := Option.some.inj (hp.first.symm.trans hq)
      exact At.adjacent h hs hs' hi' hj'
    · intro q hq
      rcases List.mem_cons.mp hq with rfl | hq
      · exact ⟨k, i, j, s, hs, rfl⟩
      · exact hp.on_line q hq
    · intro e he
      rcases List.mem_append.mp he with he | he
      · exact hterms e he
      · exact hp.fits e he
    · cases fuel with
      | zero => rw [loop, if_pos hmore, if_neg (Nat.not_succ_le_zero n)]
      | succ fuel =>
        rw [loop, if_pos hmore, hloop, apply_ite (Option.map _)]
        simp only [Nat.add_le_add_iff_right]
        rfl

theorem half_pixel {a b i j sx sy d : ℚ} (ha : 0 < a) (hsx : sx ≠ 0) (hsy : |sy| = 1)
    (hd : d = a * j - b * i) (herror : -a ≤ 2 * d ∧ 2 * d ≤ a) :
    |sy * j - sy * b * (sx * i / (sx * a))| ≤ 1 / 2 := by
  have hoffset : sy * j - sy * b * (sx * i / (sx * a)) = sy * (d / a) := by
    rw [hd]
    field_simp
  rw [hoffset, abs_mul, hsy, one_mul, abs_div, abs_of_pos ha, div_le_iff₀ ha, abs_le]
  constructor <;> linarith [herror.1, herror.2]

end Slope

section Setup

variable {x0 y0 x1 y1 : ℕ}

theorem slope_ofLine (hx0 : x0 < 8192) (hy0 : y0 < 8192) (hx1 : x1 < 8192) (hy1 : y1 < 8192) :
    Slope.ofLine x0 y0 x1 y1 = ⟨x1, y1, if x0 < x1 then 1 else -1, if y0 < y1 then 1 else -1,
      |(x1 : ℤ) - x0|, -|(y1 : ℤ) - y0|⟩ := by
  have hsmall : ∀ n < 8192, int16 (n : ℕ) = n := fun n hn =>
    Small.int16 (by unfold Small; omega)
  unfold Slope.ofLine
  rw [hsmall x0 hx0, hsmall y0 hy0, hsmall x1 hx1, hsmall y1 hy1, abs_eq_max_neg, abs_eq_max_neg,
    int16_of_fits (by unfold FitsInt16; omega), int16_of_fits (by unfold FitsInt16; omega)]
  simp only [Nat.cast_lt]

theorem spans_ofLine (hx0 : x0 < 8192) (hy0 : y0 < 8192) (hx1 : x1 < 8192) (hy1 : y1 < 8192)
    (hx : x0 ≠ x1) (hy : y0 ≠ y1) : (Slope.ofLine x0 y0 x1 y1).Spans x0 y0 := by
  rw [slope_ofLine hx0 hy0 hx1 hy1, abs_eq_max_neg, abs_eq_max_neg]
  constructor <;> simp only [Small] <;> (try split_ifs) <;> omega

theorem extent_ofLine (hx0 : x0 < 8192) (hy0 : y0 < 8192) (hx1 : x1 < 8192) (hy1 : y1 < 8192) :
    (Slope.ofLine x0 y0 x1 y1).extent = lineLength x0 y0 x1 y1 := by
  rw [slope_ofLine hx0 hy0 hx1 hy1, Slope.extent, lineLength, neg_neg, Int.abs_eq_natAbs,
    Int.abs_eq_natAbs, Nat.cast_max]

theorem nearLine_of_at {k i j : ℤ} {s : Position} (hx0 : x0 < 8192) (hy0 : y0 < 8192)
    (hx1 : x1 < 8192) (hy1 : y1 < 8192) (hx : x0 ≠ x1) (hy : y0 ≠ y1)
    (hs : (Slope.ofLine x0 y0 x1 y1).At x0 y0 k i j s) : NearLine x0 y0 x1 y1 s.pixel := by
  have h := spans_ofLine hx0 hy0 hx1 hy1 hx hy
  have hpixel := hs.pixel h
  have hendx := h.endx
  have hendy := h.endy
  have hslopex := h.slopex
  have hslopey := h.slopey
  have hdx := h.dx
  have hdy := h.dy
  have hx1' : (Slope.ofLine x0 y0 x1 y1).x1 = x1 := rfl
  have hy1' : (Slope.ofLine x0 y0 x1 y1).y1 = y1 := rfl
  have herror := hs.error
  unfold Slope.extent Slope.distance at herror
  generalize Slope.ofLine x0 y0 x1 y1 = l at *
  rw [hx1'] at hendx
  rw [hy1'] at hendy
  have hpx : (s.pixel.1 : ℚ) - x0 = l.slopex * i := by
    rw [sub_eq_iff_eq_add']
    exact_mod_cast hpixel.1
  have hpy : (s.pixel.2 : ℚ) - y0 = l.slopey * j := by
    rw [sub_eq_iff_eq_add']
    exact_mod_cast hpixel.2
  have hX : (x1 : ℚ) - x0 = l.slopex * l.dx := by
    rw [sub_eq_iff_eq_add']
    exact_mod_cast hendx
  have hY : (y1 : ℚ) - y0 = l.slopey * (-l.dy : ℤ) := by
    rw [sub_eq_iff_eq_add']
    exact_mod_cast hendy.trans (by ring)
  have hX0 : (l.slopex : ℚ) ≠ 0 ∧ |(l.slopex : ℚ)| = 1 := by
    rcases hslopex with hs | hs <;> rw [hs] <;> norm_num
  have hY0 : (l.slopey : ℚ) ≠ 0 ∧ |(l.slopey : ℚ)| = 1 := by
    rcases hslopey with hs | hs <;> rw [hs] <;> norm_num
  have hlong : |(y1 : ℤ) - y0| ≤ |(x1 : ℤ) - x0| ↔ -l.dy ≤ l.dx := by
    rw [abs_eq_max_neg, abs_eq_max_neg]
    rcases hslopex with hs | hs <;> rcases hslopey with hs' | hs' <;> rw [hs] at hendx <;>
      rw [hs'] at hendy <;> omega
  unfold NearLine
  rw [sub_add_eq_sub_sub, sub_add_eq_sub_sub, hpx, hpy, hX, hY]
  split_ifs with hcase
  · rw [max_eq_left (hlong.mp hcase)] at herror
    refine Slope.half_pixel (d := ((l.dx * j + l.dy * i : ℤ) : ℚ)) (by exact_mod_cast hdx) hX0.1
      hY0.2 ?_ (by exact_mod_cast herror)
    push_cast
    ring
  · rw [max_eq_right (by omega)] at herror
    refine Slope.half_pixel (d := ((-(l.dx * j + l.dy * i) : ℤ) : ℚ)) ?_ hY0.1 hX0.2 ?_ ?_
    · exact_mod_cast Int.neg_pos_of_neg hdy
    · push_cast
      ring
    · exact_mod_cast (show -(-l.dy) ≤ 2 * -(l.dx * j + l.dy * i) ∧
        2 * -(l.dx * j + l.dy * i) ≤ -l.dy by omega)

/-- A line with coordinates below 8192 is drawn from one end to the other in as many steps as
the longer extent. -/
theorem linePlot_drawn (hx0 : x0 < 8192) (hy0 : y0 < 8192) (hx1 : x1 < 8192) (hy1 : y1 < 8192)
    (hx : x0 ≠ x1) (hy : y0 ≠ y1) : ∃ p, LineDrawn x0 y0 x1 y1 p ∧ ∀ fuel,
      linePlot fuel x0 y0 x1 y1 = if lineLength x0 y0 x1 y1 ≤ fuel then some p else none := by
  have h := spans_ofLine hx0 hy0 hx1 hy1 hx hy
  have hextent := extent_ofLine hx0 hy0 hx1 hy1
  have hto : (Slope.ofLine x0 y0 x1 y1).x1 = x1 ∧ (Slope.ofLine x0 y0 x1 y1).y1 = y1 := ⟨rfl, rfl⟩
  have hline := @nearLine_of_at x0 y0 x1 y1
  unfold linePlot
  generalize Slope.ofLine x0 y0 x1 y1 = l at *
  have hdx := h.dx
  have hdy := h.dy
  have hdx_le := h.dx_le
  have hdy_le := h.dy_le
  have hfits : FitsInt16 (l.dx + l.dy) := by unfold FitsInt16; omega
  have hstart : l.At x0 y0 0 0 0 (l.start x0 y0) := by
    have hzero : l.distance 0 0 = 0 := by simp [Slope.distance]
    rw [Slope.start, h.fromx.int16, h.fromy.int16, int16_of_fits hfits]
    refine Slope.At.of_error h ?_ ?_ ?_ le_rfl le_rfl ?_ (by simp) ?_
    · rw [mul_zero, add_zero]
    · rw [mul_zero, add_zero]
    · rw [hzero, add_zero]
    · unfold Slope.extent
      omega
    · rw [hzero]
      unfold Slope.extent
      omega
  obtain ⟨p, hp, hloop⟩ := hstart.run h (n := lineLength x0 y0 x1 y1) (by rw [hextent]; omega)
  refine ⟨{ p with terms := (l.dx + l.dy) :: 2 * int16 (l.dx + l.dy) :: p.terms },
    ⟨hp.length, ?_, ?_, hp.connected, ?_, ?_, ?_⟩, fun fuel => ?_⟩
  · have hpixel := hstart.pixel h
    rw [mul_zero, add_zero, mul_zero, add_zero, Nat.cast_inj, Nat.cast_inj] at hpixel
    exact hp.first.trans (congrArg some (Prod.ext hpixel.1 hpixel.2))
  · obtain ⟨q, hlast, hq⟩ := hp.last
    rw [hto.1, hto.2, Nat.cast_inj, Nat.cast_inj] at hq
    exact hlast.trans (congrArg some (Prod.ext hq.1 hq.2))
  · intro q hq
    obtain ⟨k, i, j, s, hs, rfl⟩ := hp.on_line q hq
    have hpixel := hs.pixel h
    have hcolumn := h.column hs.columns
    have hrow := h.row hs.rows
    rw [hto.1] at hcolumn
    rw [hto.2] at hrow
    omega
  · intro q hq
    obtain ⟨k, i, j, s, hs, rfl⟩ := hp.on_line q hq
    exact hline hx0 hy0 hx1 hy1 hx hy hs
  · intro e he
    rcases List.mem_cons.mp he with rfl | he
    · exact hfits
    rcases List.mem_cons.mp he with rfl | he
    · rw [int16_of_fits hfits]
      unfold FitsInt16
      omega
    · exact hp.fits e he
  · dsimp only
    rw [hloop, apply_ite (Option.map _)]
    rfl

/-- A line of four pixels. -/
theorem linePlot_four : ∃ p, LineDrawn 5 1 2 2 p ∧
    ∀ fuel, linePlot fuel 5 1 2 2 = if lineLength 5 1 2 2 ≤ fuel then some p else none :=
  linePlot_drawn (by decide) (by decide) (by decide) (by decide) (by decide) (by decide)

end Setup

end Run

section Screen

variable {γ : Type*} {panel : Panel} {c : γ}

theorem paints_setpixel {x y : ℕ} {s : Canvas γ} (hx : x < panel.width) (hy : y < panel.height)
    (hbuffer : s.buffer 0 = c) :
    s.Paints c (fun a b => (a, b) = (x, y)) (s.run panel c (setpixelImpl (x, y))) := by
  have hscreen : ∀ a b, (s.run panel c (setpixelImpl (x, y))).device.screen a b =
      if a = x ∧ b = y then c else s.device.screen a b := by
    intro a b
    rw [← hbuffer]
    exact screen_appendPixel rfl rfl ⟨hx, hy⟩ _ a b
  constructor
  · rintro a b ⟨rfl, rfl⟩
    rw [hscreen, if_pos ⟨rfl, rfl⟩]
  · intro a b hab
    rw [hscreen, if_neg]
    rintro ⟨rfl, rfl⟩
    exact hab rfl

theorem paints_pixels {ps : List (ℕ × ℕ)} {s : Canvas γ}
    (hps : ∀ p ∈ ps, p.1 < panel.width ∧ p.2 < panel.height) (hbuffer : s.buffer 0 = c) :
    s.Paints c (fun a b => (a, b) ∈ ps) (s.run panel c (ps.flatMap setpixelImpl)) := by
  induction ps generalizing s with
  | nil => exact ⟨fun _ _ h => (List.not_mem_nil h).elim, fun _ _ _ => rfl⟩
  | cons p ps ih =>
    obtain ⟨hp, hps⟩ := List.forall_mem_cons.mp hps
    rw [List.flatMap_cons, Canvas.run_append]
    refine ((paints_setpixel hp.1 hp.2 hbuffer).trans (ih hps ?_)).congr fun a b => ?_
    · exact hbuffer
    · exact List.mem_cons.symm

/-- A line between two pixels of a panel paints the plotted pixels and nothing else. -/
theorem line_paints {x0 y0 x1 y1 : ℕ} (hwidth : panel.width ≤ 8192) (hheight : panel.height ≤ 8192)
    (hx0 : x0 < panel.width) (hy0 : y0 < panel.height) (hx1 : x1 < panel.width)
    (hy1 : y1 < panel.height) (hx : x0 ≠ x1) (hy : y0 ≠ y1) (s : Canvas γ) :
    ∃ p cs, LineDrawn x0 y0 x1 y1 p ∧ line panel (lineLength x0 y0 x1 y1) x0 y0 x1 y1 = some cs ∧
      s.Paints c (fun a b => (a, b) ∈ p.pixels) (s.run panel c cs) := by
  obtain ⟨p, hp, hplot⟩ := linePlot_drawn (hx0.trans_le hwidth) (hy0.trans_le hheight)
    (hx1.trans_le hwidth) (hy1.trans_le hheight) hx hy
  refine ⟨p, .fill 1 :: p.pixels.flatMap setpixelImpl, hp, ?_, ?_⟩
  · rw [line, if_neg (by omega), hplot, if_pos le_rfl]
    rfl
  · have hpixels : ∀ q ∈ p.pixels, q.1 < panel.width ∧ q.2 < panel.height := by
      intro q hq
      have := hp.box q hq
      omega
    have hpaints := @paints_pixels γ panel c p.pixels (s.perform panel c (.fill 1)) hpixels
      (buffer_fill (lt_min one_pos panel.maxPixels_pos))
    exact ⟨hpaints.inside, hpaints.outside⟩

end Screen

end Qmk.Painter
