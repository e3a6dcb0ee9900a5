import Qmk.Painter.Line
import Mathlib.Tactic.IntervalCases

/-! # Circles

The loop of `qp_circle` goes from the topmost point of a circle to the diagonal. Its error
term follows the midpoint algorithm but starts at about `5 / 4 - r / 16` in place of
`5 / 4 - r`, so for every radius above 2 the first row change comes too early.
-/

namespace Qmk.Painter

/-- The variables that the loop of `qp_circle` changes. -/
structure Arc where
  xcalc : ℤ
  ycalc : ℤ
  err : ℤ

/-- The offsets that are handed to `qp_circle_helper_impl`, and the values that are stored in
the error term before they are converted to an `int16_t`. -/
structure Offsets where
  offsets : List (ℕ × ℕ)
  terms : List ℤ
  deriving DecidableEq

namespace Arc

/-- The arguments of `qp_circle_helper_impl`. -/
def offset (s : Arc) : ℕ × ℕ := ((s.xcalc % 2 ^ 16).toNat, (s.ycalc % 2 ^ 16).toNat)

/-- The part of `qp_circle` before its loop. -/
def start (radius : ℕ) : Arc := ⟨0, int16 radius, int16 ((5 - radius / 4) / 4)⟩

def step (s : Arc) : Arc × ℤ :=
  let x := int16 (s.xcalc + 1)
  if s.err < 0 then
    let err := s.err + (2 * x + 1)
    ({ s with xcalc := x, err := int16 err }, err)
  else
    let y := int16 (s.ycalc - 1)
    let err := s.err + (2 * (x - y) + 1)
    ({ xcalc := x, ycalc := y, err := int16 err }, err)

/-- The loop of `qp_circle`, if it ends after at most `fuel` steps. -/
def loop : ℕ → Arc → Option Offsets
  | 0, s => if s.xcalc < s.ycalc then none else some { offsets := [s.offset], terms := [] }
  | fuel + 1, s =>
    if s.xcalc < s.ycalc then
      (loop fuel s.step.1).map fun p =>
        { offsets := s.offset :: p.offsets, terms := s.step.2 :: p.terms }
    else some { offsets := [s.offset], terms := [] }

end Arc

def circleOffsets (fuel radius : ℕ) : Option Offsets :=
  ((Arc.start radius).loop fuel).map fun p =>
    { p with terms := (5 - (radius : ℤ) / 4) / 4 :: p.terms }

section Commands

variable (panel : Panel)

def around (n : ℤ) : ℕ := (int16 n % 2 ^ 16).toNat

def circleHelper (centerx centery offsetx offsety : ℕ) (filled : Bool) : List Command :=
  let xpx := around (int16 centerx + int16 offsetx)
  let xmx := around (int16 centerx - int16 offsetx)
  let xpy := around (int16 centerx + int16 offsety)
  let xmy := around (int16 centerx - int16 offsety)
  let ypx := around (int16 centery + int16 offsetx)
  let ymx := around (int16 centery - int16 offsetx)
  let ypy := around (int16 centery + int16 offsety)
  let ymy := around (int16 centery - int16 offsety)
  if offsetx = 0 then
    [(centerx, ypy), (centerx, ymy)].flatMap setpixelImpl ++
      if filled then fillrectHelper panel xpy centery xmy centery
      else [(xpy, centery), (xmy, centery)].flatMap setpixelImpl
  else if offsetx = offsety then
    if filled then fillrectHelper panel xpy ypy xmy ypy ++ fillrectHelper panel xpy ymy xmy ymy
    else [(xpy, ypy), (xmy, ypy), (xpy, ymy), (xmy, ymy)].flatMap setpixelImpl
  else if filled then
    fillrectHelper panel xpx ypy xmx ypy ++ fillrectHelper panel xpx ymy xmx ymy ++
      fillrectHelper panel xpy ypx xmy ypx ++ fillrectHelper panel xpy ymx xmy ymx
  else
    [(xpx, ypy), (xmx, ypy), (xpx, ymy), (xmx, ymy), (xpy, ypx), (xmy, ypx), (xpy, ymx),
      (xmy, ymx)].flatMap setpixelImpl

def circle (fuel x y radius : ℕ) (filled : Bool) : Option (List Command) :=
  (circleOffsets fuel radius).map fun p =>
    .fill (radius * 2 + 1) :: p.offsets.flatMap fun q => circleHelper panel x y q.1 q.2 filled

end Commands

section Specification

/-- The midpoint-circle bound. -/
def NearCircle (radius : ℕ) (p : ℕ × ℕ) : Prop :=
  |(p.1 : ℤ) ^ 2 + (p.2 : ℤ) ^ 2 - (radius : ℤ) ^ 2| ≤ radius

instance (radius : ℕ) (p : ℕ × ℕ) : Decidable (NearCircle radius p) :=
  inferInstanceAs (Decidable (_ ≤ _))

/-- The loop ends, without an overflow, and its offsets are near the circle. -/
def CircleDrawn (radius : ℕ) : Prop :=
  ∃ fuel p, circleOffsets fuel radius = some p ∧ (∀ q ∈ p.offsets, NearCircle radius q) ∧
    ∀ e ∈ p.terms, FitsInt16 e

end Specification

section Loop

namespace Arc

/-- Behind every step: the error term is small, and the arc is not beyond the diagonal. -/
structure Small (radius : ℤ) (s : Arc) : Prop where
  xcalc : 0 ≤ s.xcalc
  ycalc : 0 ≤ s.ycalc ∧ s.ycalc ≤ radius
  diagonal : s.xcalc ≤ s.ycalc + 1
  right : s.xcalc ≤ radius
  upper : s.err ≤ 3 * s.xcalc + 1
  lower : -2 * radius ≤ s.err

variable {radius : ℕ} {s : Arc}

theorem step_eq (hradius : radius ≤ 8191) (hs : s.Small radius) (hmore : s.xcalc < s.ycalc) :
    FitsInt16 s.step.2 ∧ s.step.1.Small radius ∧
      (s.err < 0 ∧ s.step.1 = ⟨s.xcalc + 1, s.ycalc, s.err + (2 * (s.xcalc + 1) + 1)⟩ ∨
        0 ≤ s.err ∧ s.step.1 = ⟨s.xcalc + 1, s.ycalc - 1,
          s.err + (2 * (s.xcalc + 1 - (s.ycalc - 1)) + 1)⟩) := by
  obtain ⟨hx, ⟨hy, hy'⟩, hdiagonal, hxr, hupper, hlower⟩ := hs
  have hxcalc : int16 (s.xcalc + 1) = s.xcalc + 1 := int16_of_fits (by unfold FitsInt16; omega)
  have hycalc : int16 (s.ycalc - 1) = s.ycalc - 1 := int16_of_fits (by unfold FitsInt16; omega)
  unfold step
  rw [hxcalc, hycalc]
  dsimp only
  by_cases herr : s.err < 0
  · have hfits : FitsInt16 (s.err + (2 * (s.xcalc + 1) + 1)) := by unfold FitsInt16; omega
    rw [if_pos herr, int16_of_fits hfits]
    refine ⟨hfits, ?_, .inl ⟨herr, rfl⟩⟩
    constructor <;> dsimp only <;> omega
  · have hfits : FitsInt16 (s.err + (2 * (s.xcalc + 1 - (s.ycalc - 1)) + 1)) := by
      unfold FitsInt16
      omega
    rw [if_neg herr, int16_of_fits hfits]
    refine ⟨hfits, ?_, .inr ⟨by omega, rfl⟩⟩
    constructor <;> dsimp only <;> omega

theorem Small.offset (hs : s.Small radius) (hradius : radius ≤ 8191) :
    s.offset.1 ≤ radius ∧ s.offset.2 ≤ radius := by
  obtain ⟨hx, ⟨hy, hy'⟩, -, hxr, -, -⟩ := hs
  unfold Arc.offset
  dsimp only
  omega

theorem loop_ends (hradius : radius ≤ 8191) {n : ℕ} (hs : s.Small radius)
    (hn : s.ycalc - s.xcalc ≤ n) : ∃ p, s.loop n = some p ∧
      (∀ q ∈ p.offsets, q.1 ≤ radius ∧ q.2 ≤ radius) ∧ ∀ e ∈ p.terms, FitsInt16 e := by
  have hoffset := hs.offset hradius
  have hlast : (∀ q ∈ [s.offset], q.1 ≤ radius ∧ q.2 ≤ radius) ∧
      ∀ e ∈ ([] : List ℤ), FitsInt16 e :=
    ⟨List.forall_mem_singleton.mpr hoffset, fun e he => by cases he⟩
  induction n generalizing s with
  | zero =>
    have hend : ¬ s.xcalc < s.ycalc := by omega
    exact ⟨⟨[s.offset], []⟩, by rw [loop, if_neg hend], hlast⟩
  | succ n ih =>
    by_cases hmore : s.xcalc < s.ycalc
    · obtain ⟨hfits, hsmall, hstep⟩ := step_eq hradius hs hmore
      have hnext := hsmall.offset hradius
      obtain ⟨p, hp, hoffsets, hterms⟩ := ih hsmall (by
        rcases hstep with ⟨-, hstep⟩ | ⟨-, hstep⟩ <;> rw [hstep] <;> dsimp only <;> omega) hnext
        ⟨List.forall_mem_singleton.mpr hnext, hlast.2⟩
      refine ⟨⟨s.offset :: p.offsets, s.step.2 :: p.terms⟩, ?_,
        List.forall_mem_cons.mpr ⟨hoffset, hoffsets⟩, List.forall_mem_cons.mpr ⟨hfits, hterms⟩⟩
      rw [loop, if_pos hmore, hp]
      rfl
    · exact ⟨⟨[s.offset], []⟩, by rw [loop, if_neg hmore], hlast⟩

theorem start_eq (hradius : radius ≤ 8191) :
    start radius = ⟨0, radius, (5 - (radius : ℤ) / 4) / 4⟩ := by
  have hy : int16 radius = radius := int16_of_fits (by unfold FitsInt16; omega)
  have herr : int16 ((5 - (radius : ℤ) / 4) / 4) = (5 - (radius : ℤ) / 4) / 4 :=
    int16_of_fits (by unfold FitsInt16; omega)
  rw [start, hy, herr]

theorem small_start (hradius : radius ≤ 8191) : (start radius).Small radius := by
  rw [start_eq hradius]
  constructor <;> dsimp only <;> omega

theorem offset_mem {fuel : ℕ} {p : Offsets} (hp : s.loop fuel = some p) :
    s.offset ∈ p.offsets := by
  cases fuel with
  | zero =>
    rw [loop] at hp
    split_ifs at hp
    obtain rfl := Option.some.inj hp
    exact List.mem_singleton_self _
  | succ fuel =>
    rw [loop] at hp
    split_ifs at hp
    · obtain ⟨p', -, rfl⟩ := Option.map_eq_some_iff.mp hp
      exact List.mem_cons_self
    · obtain rfl := Option.some.inj hp
      exact List.mem_singleton_self _

/-- An offset of the first row below the top is too near to the center. -/
theorem not_nearCircle {k : ℤ} (hk : 0 ≤ k) (hinside : (k + 1) ^ 2 + 1 < radius)
    (hradius : radius ≤ 8191) (hx : s.xcalc = k + 1) (hy : s.ycalc = radius - 1) :
    ¬ NearCircle radius s.offset := by
  have hsquare : k + 1 ≤ (k + 1) ^ 2 := by nlinarith
  have hoffset : ((s.offset.1 : ℤ) = k + 1) ∧ (s.offset.2 : ℤ) = radius - 1 := by
    unfold offset
    rw [hx, hy]
    dsimp only
    omega
  unfold NearCircle
  rw [hoffset.1, hoffset.2, abs_le]
  intro hnear
  nlinarith [hnear.1]

/-- The first offset behind a row change is too near to the center: before it the error term
is negative only for a few steps. -/
theorem loop_misses (hs : s.Small radius) (hlarge : 3 ≤ radius) (hradius : radius ≤ 8191) {k : ℤ}
    (hk : 0 ≤ k) (hx : s.xcalc = k) (hy : s.ycalc = radius)
    (herr : s.err = (5 - (radius : ℤ) / 4) / 4 + k ^ 2 + 2 * k)
    (hearly : k ^ 2 ≤ max 0 (-((5 - (radius : ℤ) / 4) / 4))) {fuel : ℕ} {p : Offsets}
    (hp : s.loop fuel = some p) : ∃ q ∈ p.offsets, ¬ NearCircle radius q := by
  induction fuel generalizing s k p with
  | zero =>
    have hsquare : k ≤ k ^ 2 := by nlinarith
    rw [loop, if_pos (by omega)] at hp
    cases hp
  | succ fuel ih =>
    have hsquare : k ≤ k ^ 2 := by nlinarith
    have hmore : s.xcalc < s.ycalc := by omega
    rw [loop, if_pos hmore] at hp
    obtain ⟨p', hp', rfl⟩ := Option.map_eq_some_iff.mp hp
    obtain ⟨-, hsmall, hstep⟩ := step_eq hradius hs hmore
    rcases hstep with ⟨hneg, hstep⟩ | ⟨hpos, hstep⟩
    · obtain ⟨q, hq, hmiss⟩ := @ih s.step.1 hsmall (k + 1) (by omega) (by rw [hstep, hx])
        (by rw [hstep, hy]) (by rw [hstep, hx, herr]; ring)
        (by rw [show (k + 1) ^ 2 = k ^ 2 + 2 * k + 1 by ring]; omega) p' hp'
      exact ⟨q, List.mem_cons_of_mem _ hq, hmiss⟩
    · refine ⟨s.step.1.offset, List.mem_cons_of_mem _ (offset_mem hp'), ?_⟩
      refine not_nearCircle hk ?_ hradius (by rw [hstep, hx]) (by rw [hstep, hy])
      rw [show (k + 1) ^ 2 = k ^ 2 + 2 * k + 1 by ring]
      omega

end Arc

/-- The loop ends for every radius, and the error term never overflows. -/
theorem circleOffsets_ends {radius : ℕ} (hradius : radius ≤ 8191) :
    ∃ p, circleOffsets radius radius = some p ∧
      (∀ q ∈ p.offsets, q.1 ≤ radius ∧ q.2 ≤ radius) ∧ ∀ e ∈ p.terms, FitsInt16 e := by
  have hsmall := Arc.small_start hradius
  obtain ⟨p, hp, hoffsets, hterms⟩ := Arc.loop_ends hradius hsmall (n := radius) (by
    have := hsmall.xcalc
    have := hsmall.ycalc
    omega)
  refine ⟨{ p with terms := (5 - (radius : ℤ) / 4) / 4 :: p.terms },
    by rw [circleOffsets, hp]; rfl, hoffsets, List.forall_mem_cons.mpr ⟨?_, hterms⟩⟩
  unfold FitsInt16
  omega

theorem not_circleDrawn {radius : ℕ} (hlarge : 3 ≤ radius) (hradius : radius ≤ 8191) :
    ¬ CircleDrawn radius := by
  rintro ⟨fuel, p, hp, hnear, -⟩
  obtain ⟨p', hp', rfl⟩ := Option.map_eq_some_iff.mp hp
  have hsmall := Arc.small_start hradius
  have hstart := Arc.start_eq hradius
  obtain ⟨q, hq, hmiss⟩ := @Arc.loop_misses radius _ hsmall hlarge hradius 0 le_rfl
    (by rw [hstart]) (by rw [hstart]) (by rw [hstart]; simp) (by simp) fuel p' hp'
  exact hmiss (hnear q hq)

/-- The midpoint bound holds for the radii 0, 1 and 2 only. -/
theorem circleDrawn_iff {radius : ℕ} (hradius : radius ≤ 8191) :
    CircleDrawn radius ↔ radius ≤ 2 := by
  constructor
  · intro hdrawn
    by_contra hlarge
    exact not_circleDrawn (by omega) hradius hdrawn
  · intro hsmall
    interval_cases radius
    · exact ⟨0, ⟨[(0, 0)], [1]⟩, by decide, by decide, by decide⟩
    · exact ⟨1, ⟨[(0, 1), (1, 0)], [1, 4]⟩, by decide, by decide, by decide⟩
    · exact ⟨1, ⟨[(0, 2), (1, 1)], [1, 2]⟩, by decide, by decide, by decide⟩

/-- A circle of radius 2 is exact. -/
theorem circleDrawn_two : CircleDrawn 2 := (circleDrawn_iff (by decide)).mpr le_rfl

/-- With radius 3 the second offset is too near to the center. -/
theorem circleOffsets_three :
    circleOffsets 3 3 = some ⟨[(0, 3), (1, 2), (2, 1)], [1, 0, 3]⟩ ∧ ¬ NearCircle 3 (1, 2) ∧
      ¬ CircleDrawn 3 :=
  ⟨by decide, by decide, not_circleDrawn le_rfl (by decide)⟩

end Loop

section Screen

variable {γ : Type*} {panel : Panel} {c : γ} {centerx centery offsetx offsety : ℕ} {s : Canvas γ}

/-- The eight images of an offset around the center. -/
def Symmetric (centerx centery offsetx offsety a b : ℕ) : Prop :=
  ((a : ℤ) - centerx).natAbs = offsetx ∧ ((b : ℤ) - centery).natAbs = offsety ∨
    ((a : ℤ) - centerx).natAbs = offsety ∧ ((b : ℤ) - centery).natAbs = offsetx

structure Contains (panel : Panel) (centerx centery offset : ℕ) : Prop where
  left : offset ≤ centerx
  right : centerx + offset < panel.width
  top : offset ≤ centery
  bottom : centery + offset < panel.height

theorem around_eq {n : ℤ} (hn : 0 ≤ n) (hn' : n < 2 ^ 15) : around n = n.toNat := by
  rw [around, int16_of_fits (by unfold FitsInt16; omega), Int.emod_eq_of_lt hn (by omega)]

theorem natAbs_sub {m n : ℕ} (h : n ≤ m) {a : ℕ} :
    ((a : ℤ) - m).natAbs = n ↔ a = m + n ∨ a = m - n := by
  omega

theorem circleHelper_eq (hwidth : panel.width ≤ 2 ^ 15) (hheight : panel.height ≤ 2 ^ 15)
    (hx : Contains panel centerx centery offsetx) (hy : Contains panel centerx centery offsety) :
    ∃ ps : List (ℕ × ℕ),
      circleHelper panel centerx centery offsetx offsety false = ps.flatMap setpixelImpl ∧
        ∀ a b, (a, b) ∈ ps ↔ Symmetric centerx centery offsetx offsety a b := by
  obtain ⟨hxl, hxr, hxt, hxb⟩ := hx
  obtain ⟨hyl, hyr, hyt, hyb⟩ := hy
  have hint : ∀ n : ℕ, n < 2 ^ 15 → int16 n = n := fun n hn =>
    int16_of_fits (by unfold FitsInt16; omega)
  have hadd : ∀ m n : ℕ, m + n < 2 ^ 15 → around ((m : ℤ) + n) = m + n := fun m n h => by
    rw [around_eq (by omega) (by omega)]
    omega
  have hsub : ∀ m n : ℕ, n ≤ m → m < 2 ^ 15 → around ((m : ℤ) - n) = m - n := fun m n h h' => by
    rw [around_eq (by omega) (by omega)]
    omega
  unfold circleHelper
  rw [hint centerx (by omega), hint centery (by omega), hint offsetx (by omega),
    hint offsety (by omega)]
  simp only [Bool.false_eq_true, if_false]
  rw [hadd _ _ (by omega), hadd _ _ (by omega), hadd _ _ (by omega), hadd _ _ (by omega),
    hsub _ _ hxl (by omega), hsub _ _ hyl (by omega), hsub _ _ hxt (by omega),
    hsub _ _ hyt (by omega)]
  unfold Symmetric
  simp only [natAbs_sub hxl, natAbs_sub hyl, natAbs_sub hxt, natAbs_sub hyt]
  clear * -
  split_ifs with hzero hdiagonal
  · rw [← List.flatMap_append]
    refine ⟨_, rfl, fun a b => ?_⟩
    simp only [List.cons_append, List.nil_append, List.mem_cons, Prod.mk.injEq, List.not_mem_nil,
      hzero, Nat.add_zero, Nat.sub_zero, or_false, or_self]
    grind
  · refine ⟨_, rfl, fun a b => ?_⟩
    simp only [List.mem_cons, Prod.mk.injEq, List.not_mem_nil, hdiagonal, or_false, or_self]
    grind
  · refine ⟨_, rfl, fun a b => ?_⟩
    simp only [List.mem_cons, Prod.mk.injEq, List.not_mem_nil, or_false]
    grind

theorem circleHelper_paints (hwidth : panel.width ≤ 2 ^ 15) (hheight : panel.height ≤ 2 ^ 15)
    (hx : Contains panel centerx centery offsetx) (hy : Contains panel centerx centery offsety)
    (hbuffer : s.buffer 0 = c) :
    s.Paints c (Symmetric centerx centery offsetx offsety)
      (s.run panel c (circleHelper panel centerx centery offsetx offsety false)) := by
  obtain ⟨ps, heq, hps⟩ := circleHelper_eq hwidth hheight hx hy
  rw [heq]
  refine (paints_pixels ?_ hbuffer).congr hps
  rintro ⟨a, b⟩ hab
  obtain ⟨hxl, hxr, hxt, hxb⟩ := hx
  obtain ⟨hyl, hyr, hyt, hyb⟩ := hy
  have := (hps a b).mp hab
  unfold Symmetric at this
  dsimp only
  omega

theorem buffer_pixels (ps : List (ℕ × ℕ)) (s : Canvas γ) :
    (s.run panel c (ps.flatMap setpixelImpl)).buffer = s.buffer := by
  induction ps generalizing s with
  | nil => rfl
  | cons p ps ih =>
    rw [List.flatMap_cons, Canvas.run_append, ih]
    rfl

theorem Contains.mono {radius offset : ℕ} (h : Contains panel centerx centery radius)
    (hoffset : offset ≤ radius) : Contains panel centerx centery offset := by
  obtain ⟨hl, hr, ht, hb⟩ := h
  constructor <;> omega

theorem circleHelpers_paint {radius : ℕ} (hwidth : panel.width ≤ 2 ^ 15)
    (hheight : panel.height ≤ 2 ^ 15) (hcontains : Contains panel centerx centery radius)
    {qs : List (ℕ × ℕ)} (hqs : ∀ q ∈ qs, q.1 ≤ radius ∧ q.2 ≤ radius) (hbuffer : s.buffer 0 = c) :
    s.Paints c (fun a b => ∃ q ∈ qs, Symmetric centerx centery q.1 q.2 a b)
      (s.run panel c (qs.flatMap fun q => circleHelper panel centerx centery q.1 q.2 false)) := by
  induction qs generalizing s with
  | nil => exact ⟨fun _ _ ⟨_, hq, _⟩ => (List.not_mem_nil hq).elim, fun _ _ _ => rfl⟩
  | cons q qs ih =>
    obtain ⟨hq, hqs⟩ := List.forall_mem_cons.mp hqs
    have hx := hcontains.mono hq.1
    have hy := hcontains.mono hq.2
    have hbuffer' : (s.run panel c (circleHelper panel centerx centery q.1 q.2 false)).buffer 0 =
        c := by
      obtain ⟨ps, heq, -⟩ := circleHelper_eq hwidth hheight hx hy
      rw [heq, buffer_pixels, hbuffer]
    rw [List.flatMap_cons, Canvas.run_append]
    refine ((circleHelper_paints hwidth hheight hx hy hbuffer).trans (ih hqs hbuffer')).congr
      fun a b => ?_
    rw [List.exists_mem_cons_iff]

theorem circle_paints {radius : ℕ} (hwidth : panel.width ≤ 2 ^ 15)
    (hheight : panel.height ≤ 2 ^ 15) (hradius : radius ≤ 8191)
    (hcontains : Contains panel centerx centery radius) (s : Canvas γ) :
    ∃ p cs, circleOffsets radius radius = some p ∧
      circle panel radius centerx centery radius false = some cs ∧
        s.Paints c (fun a b => ∃ q ∈ p.offsets, Symmetric centerx centery q.1 q.2 a b)
          (s.run panel c cs) := by
  obtain ⟨p, hp, hoffsets, -⟩ := circleOffsets_ends hradius
  refine ⟨p, _, hp, by rw [circle, hp]; rfl, ?_⟩
  have hpaints := @circleHelpers_paint γ panel c centerx centery
    (s.perform panel c (.fill (radius * 2 + 1))) radius hwidth hheight hcontains p.offsets hoffsets
    (buffer_fill (lt_min (Nat.succ_pos _) panel.maxPixels_pos))
  exact ⟨hpaints.inside, hpaints.outside⟩

end Screen

end Qmk.Painter
