import Mathlib.Algebra.GroupWithZero.Nat
import Qmk.Debounce.Keys

/-! # Symmetric eager debounce

`sym_eager_pk.c` and `sym_eager_pr.c`: a change is taken over at once, and then
the key, or the whole row, is locked for a while. A change during the lock is
taken over when the lock ends.
-/

namespace Qmk.Debounce

variable {rows cols w t : ℕ}

namespace SymEagerPk

/-- One turn of the loop of `update_debounce_counters`. -/
def updateKey (elapsedTime : BitVec 8) (row : Fin rows)
    (s : Debouncer (Counters (BitVec 8) rows cols) rows w t) (col : Fin cols) :
    Debouncer (Counters (BitVec 8) rows cols) rows w t :=
  let counter := s.counters row col
  if counter ≠ 0#8 then
    if counter ≤ elapsedTime then
      { s.setCounter row col 0#8 with matrixNeedUpdate := true }
    else { s.setCounter row col (counter - elapsedTime) with countersNeedUpdate := true }
  else s

/-- One turn of the inner loop of `transfer_matrix_values`, with `existing_row` beside the state. -/
def transferKey (D : ℕ) (delta : BitVec w) (row : Fin rows)
    (p : Debouncer (Counters (BitVec 8) rows cols) rows w t × BitVec w) (col : Fin cols) :
    Debouncer (Counters (BitVec 8) rows cols) rows w t × BitVec w :=
  if delta &&& bitMask w col ≠ 0 then
    if p.1.counters row col = 0#8 then
      ({ p.1.setCounter row col (BitVec.ofNat 8 D) with
          countersNeedUpdate := true
          cookedChanged := true }, p.2 ^^^ bitMask w col)
    else p
  else p

/-- One turn of the outer loop of `transfer_matrix_values`. -/
def transferRow (D : ℕ) (raw : Rows rows w)
    (s : Debouncer (Counters (BitVec 8) rows cols) rows w t) (row : Fin rows) :
    Debouncer (Counters (BitVec 8) rows cols) rows w t :=
  let delta := raw row ^^^ s.cooked row
  let p := (List.finRange cols).foldl (transferKey D delta row) (s, s.cooked row)
  p.1.setRow row p.2

/-- The loops of `sym_eager_pk.c`, for `DEBOUNCE` equal to `D`. -/
def loops (D : ℕ) : Loops (Counters (BitVec 8) rows cols) rows w t where
  update _ elapsedTime s :=
    forKeys (fun _ _ => ()) (fun _ => updateKey elapsedTime)
      { s with countersNeedUpdate := false, matrixNeedUpdate := false }
  transfer raw s :=
    (List.finRange rows).foldl (transferRow D raw) { s with matrixNeedUpdate := false }

end SymEagerPk

namespace SymEagerPr

/-- One turn of the loop of `update_debounce_counters`. -/
def updateRow (elapsedTime : BitVec 8) (s : Debouncer (Fin rows → BitVec 8) rows w t)
    (row : Fin rows) : Debouncer (Fin rows → BitVec 8) rows w t :=
  let counter := s.counters row
  if counter ≠ 0#8 then
    if counter ≤ elapsedTime then
      { s with counters := Function.update s.counters row 0#8, matrixNeedUpdate := true }
    else
      { s with
        counters := Function.update s.counters row (counter - elapsedTime)
        countersNeedUpdate := true }
  else s

/-- One turn of the loop of `transfer_matrix_values`. -/
def transferRow (D : ℕ) (raw : Rows rows w) (s : Debouncer (Fin rows → BitVec 8) rows w t)
    (row : Fin rows) : Debouncer (Fin rows → BitVec 8) rows w t :=
  let existingRow := s.cooked row
  let rawRow := raw row
  if existingRow ≠ rawRow then
    if s.counters row = 0#8 then
      { s with
        counters := Function.update s.counters row (BitVec.ofNat 8 D)
        cookedChanged := s.cookedChanged || decide (s.cooked row ^^^ rawRow ≠ 0)
        cooked := Function.update s.cooked row rawRow
        countersNeedUpdate := true }
    else s
  else s

/-- The loops of `sym_eager_pr.c`, for `DEBOUNCE` equal to `D`. -/
def loops (D : ℕ) : Loops (Fin rows → BitVec 8) rows w t where
  update _ elapsedTime s :=
    (List.finRange rows).foldl (updateRow elapsedTime)
      { s with countersNeedUpdate := false, matrixNeedUpdate := false }
  transfer raw s :=
    (List.finRange rows).foldl (transferRow D raw) { s with matrixNeedUpdate := false }

end SymEagerPr

/-! ### An eager cell by itself -/

/-- A key, or a row, that takes a change over as soon as its counter has elapsed. -/
def eagerCell (D : ℕ) (R : Type) [DecidableEq R] : CellLoops R (BitVec 8 × R) where
  update e _ g := (if g.1 ≤ e then 0#8 else g.1 - e, g.2)
  transfer r g := if r ≠ g.2 ∧ g.1 = 0#8 then (BitVec.ofNat 8 D, r) else g
  value g := g.2
  Running g := g.1 ≠ 0#8
  Recheck e _ g := g.1 ≠ 0#8 ∧ g.1 ≤ e

section EagerCell

variable {R : Type} [DecidableEq R] {D : ℕ}

theorem eagerCell_lawful (h1 : 1 ≤ D) (h2 : D ≤ 255) : (eagerCell D R).Lawful := by
  have hD : BitVec.ofNat 8 D ≠ 0#8 := ofNat_ne_zero h1 (by omega)
  constructor
  · rintro e r ⟨k, v⟩ hk
    have hk : k = 0#8 := by simpa [eagerCell] using hk
    simp [eagerCell, hk]
  · rintro e r ⟨k, v⟩ h
    exact h.1
  · rintro r ⟨k, v⟩
    simp only [eagerCell]
    split_ifs with hk
    · rw [show k = 0#8 by simpa using hk]
    · simp
  · rintro r ⟨k, v⟩
    simp [eagerCell]
  · rintro r ⟨k, v⟩
    simp only [eagerCell]
    split_ifs <;> simp_all
  · rintro e r ⟨k, v⟩
    have hsub : ¬ k ≤ e → k - e ≠ 0#8 := by bv_omega
    simp only [eagerCell]
    split_ifs <;> simp_all
  · rintro e r ⟨k, v⟩ h
    exact absurd rfl h

/-- A cell whose value differs from the reading it has been compared with is locked. -/
theorem eagerCell_settled {r : R} {g : BitVec 8 × R} (h1 : 1 ≤ D) (h2 : D ≤ 255)
    (h : (eagerCell D R).transfer r g = g) (hv : g.2 ≠ r) : g.1 ≠ 0#8 := by
  intro h0
  simp only [eagerCell] at h
  rw [if_pos ⟨hv.symm, h0⟩] at h
  exact ofNat_ne_zero h1 (by omega) ((Prod.ext_iff.mp h).1.trans h0)

theorem eagerCell_step (g : BitVec 8 × R) (r : R) (e : BitVec t) :
    (eagerCell D R).step g (r, e) =
      if g.1.toNat ≤ e.toNat then
        if r ≠ g.2 then (BitVec.ofNat 8 D, r) else (0#8, g.2)
      else (g.1 - clampElapsed e, g.2) := by
  have hclamp := toNat_clampElapsed e
  have hk := g.1.isLt
  simp only [CellLoops.step, eagerCell, BitVec.le_def]
  by_cases he : g.1.toNat ≤ e.toNat
  · have hle : g.1.toNat ≤ (clampElapsed e).toNat := by omega
    simp [he, hle]
  · have hle : ¬ g.1.toNat ≤ (clampElapsed e).toNat := by omega
    have hsub : g.1 - clampElapsed e ≠ 0#8 := by bv_omega
    simp [he, hle, hsub]

theorem toNat_sub_clampElapsed {k : BitVec 8} {e : BitVec t} (h : ¬ k.toNat ≤ e.toNat) :
    (k - clampElapsed e).toNat = k.toNat - e.toNat := by
  have hclamp := toNat_clampElapsed e
  have hk := k.isLt
  bv_omega

theorem eagerCell_counter_le (h2 : D ≤ 255) {g : BitVec 8 × R} (hg : g.1.toNat ≤ D)
    (xs : List (R × BitVec t)) : ((eagerCell D R).run g xs).1.toNat ≤ D := by
  induction xs generalizing g with
  | nil => exact hg
  | cons x xs ih =>
    refine ih ?_
    obtain ⟨r, e⟩ := x
    rw [eagerCell_step]
    split_ifs with he hr
    · simp; omega
    · simp
    · rw [toNat_sub_clampElapsed he]
      omega

theorem eagerCell_stays {r : R} (xs : List (BitVec t)) {g : BitVec 8 × R} (h : g.2 = r) :
    ((eagerCell D R).run g (xs.map fun e => (r, e))).2 = r := by
  induction xs generalizing g with
  | nil => exact h
  | cons e xs ih =>
    refine ih (g := (eagerCell D R).step g (r, e)) ?_
    rw [eagerCell_step]
    split_ifs with he hr
    · rfl
    · exact h
    · exact h

/-- A waiting change is taken over once the counter has elapsed. -/
theorem eagerCell_transfers {r : R} (xs : List (BitVec t)) {g : BitVec 8 × R} (h0 : g.1 ≠ 0#8)
    (hsum : g.1.toNat ≤ (xs.map BitVec.toNat).sum) :
    ((eagerCell D R).run g (xs.map fun e => (r, e))).2 = r := by
  induction xs generalizing g with
  | nil => exact absurd (BitVec.eq_of_toNat_eq (Nat.le_zero.mp hsum)) h0
  | cons e xs ih =>
    change ((eagerCell D R).run ((eagerCell D R).step g (r, e)) _).2 = r
    simp only [List.map_cons, List.sum_cons] at hsum
    by_cases he : g.1.toNat ≤ e.toNat
    · refine eagerCell_stays xs ?_
      rw [eagerCell_step, if_pos he]
      split_ifs with hr
      · rfl
      · exact (not_not.mp hr).symm
    · have hk := toNat_sub_clampElapsed he
      rw [eagerCell_step, if_neg he]
      refine ih ?_ (by dsimp only; omega)
      intro h
      have := congrArg BitVec.toNat h
      simp only [BitVec.toNat_zero] at this
      omega

theorem eagerCell_waits (xs : List (R × BitVec t)) (x : R × BitVec t) {g : BitVec 8 × R}
    (h : ((eagerCell D R).run g (xs ++ [x])).2 ≠ ((eagerCell D R).run g xs).2) :
    g.1.toNat ≤ ((xs ++ [x]).map fun y => y.2.toNat).sum := by
  induction xs generalizing g with
  | nil =>
    obtain ⟨r, e⟩ := x
    by_contra hlt
    simp only [List.nil_append, List.map_cons, List.map_nil, List.sum_cons, List.sum_nil,
      Nat.add_zero] at hlt
    refine h ?_
    change ((eagerCell D R).step g (r, e)).2 = g.2
    rw [eagerCell_step, if_neg hlt]
  | cons y xs ih =>
    obtain ⟨r, e⟩ := y
    have hrest := ih (g := (eagerCell D R).step g (r, e)) h
    simp only [List.cons_append, List.map_cons, List.sum_cons]
    by_cases he : g.1.toNat ≤ e.toNat
    · omega
    · rw [eagerCell_step, if_neg he] at hrest
      have hk := toNat_sub_clampElapsed he
      dsimp only at hrest
      omega

theorem eagerCell_starts (g : BitVec 8 × R) (x : R × BitVec t)
    (h : ((eagerCell D R).step g x).2 ≠ g.2) :
    ((eagerCell D R).step g x).1 = BitVec.ofNat 8 D := by
  obtain ⟨r, e⟩ := x
  rw [eagerCell_step] at h ⊢
  split_ifs at h ⊢ with he hr
  · rfl
  · exact absurd rfl h
  · exact absurd rfl h

end EagerCell

/-! ### The keys of `sym_eager_pk.c` -/

namespace SymEagerPk

def passes (D : ℕ) : KeyPasses (BitVec 8) where
  update e _ g :=
    if g.1 ≠ 0#8 then
      if g.1 ≤ e then { counter := 0#8, bit := g.2, matrix := true }
      else { counter := g.1 - e, bit := g.2, counters := true }
    else { counter := g.1, bit := g.2 }
  transfer r g :=
    if r ≠ g.2 then
      if g.1 = 0#8 then
        { counter := BitVec.ofNat 8 D, bit := !g.2, counters := true, changed := true }
      else { counter := g.1, bit := g.2 }
    else { counter := g.1, bit := g.2 }
  Running k := k ≠ 0#8

theorem cellLoops_passes (D : ℕ) : (passes D).cellLoops = eagerCell D Bool := by
  refine CellLoops.ext ?_ ?_ rfl rfl ?_
  · funext e r ⟨k, b⟩
    simp only [KeyPasses.cellLoops, passes, eagerCell]
    split_ifs with h0 he he <;> simp_all
  · funext r ⟨k, b⟩
    simp only [KeyPasses.cellLoops, passes, eagerCell]
    cases r <;> cases b <;> split_ifs <;> simp_all
  · funext e r ⟨k, b⟩
    simp only [KeyPasses.cellLoops, passes, eagerCell]
    split_ifs with h0 he <;> simp_all

/-- A turn of the inner loop, writing to the row of the cooked matrix itself. -/
def transferKeyInPlace (D : ℕ) (delta : BitVec w) (row : Fin rows)
    (s : Debouncer (Counters (BitVec 8) rows cols) rows w t) (col : Fin cols) :
    Debouncer (Counters (BitVec 8) rows cols) rows w t :=
  if delta &&& bitMask w col ≠ 0 then
    if s.counters row col = 0#8 then
      { (s.setCounter row col (BitVec.ofNat 8 D)).setRow row (s.cooked row ^^^ bitMask w col) with
        countersNeedUpdate := true
        cookedChanged := true }
    else s
  else s

theorem transferRow_eq (D : ℕ) (raw : Rows rows w)
    (s : Debouncer (Counters (BitVec 8) rows cols) rows w t) (row : Fin rows) :
    transferRow D raw s row =
      (List.finRange cols).foldl (transferKeyInPlace D (raw row ^^^ s.cooked row) row) s := by
  have hstep : ∀ (p : Debouncer (Counters (BitVec 8) rows cols) rows w t × BitVec w) col,
      (transferKey D (raw row ^^^ s.cooked row) row p col).1.setRow row
          (transferKey D (raw row ^^^ s.cooked row) row p col).2 =
        transferKeyInPlace D (raw row ^^^ s.cooked row) row (p.1.setRow row p.2) col := by
    rintro ⟨s', x⟩ col
    simp only [transferKey, transferKeyInPlace]
    split_ifs with hd h0 <;> simp_all [Debouncer.setRow, Debouncer.setCounter]
  have hstart : s.setRow row (s.cooked row) = s := by simp [Debouncer.setRow]
  have hloop : ∀ (l : List (Fin cols))
      (p : Debouncer (Counters (BitVec 8) rows cols) rows w t × BitVec w),
      (l.foldl (transferKey D (raw row ^^^ s.cooked row) row) p).1.setRow row
          (l.foldl (transferKey D (raw row ^^^ s.cooked row) row) p).2 =
        l.foldl (transferKeyInPlace D (raw row ^^^ s.cooked row) row) (p.1.setRow row p.2) := by
    intro l
    induction l with
    | nil => exact fun _ => rfl
    | cons col l ih =>
      intro p
      simp only [List.foldl_cons, ih, hstep]
  have := hloop (List.finRange cols) (s, s.cooked row)
  rwa [hstart] at this

theorem updateKey_visited (D : ℕ) (e : BitVec 8) (r : Bool) (row : Fin rows)
    (s : Debouncer (Counters (BitVec 8) rows cols) rows w t) (col : Fin cols) :
    Visited s (updateKey e row s col) row col
      ((passes D).update e r (s.at keyCell (row, col))) := by
  simp only [passes, Debouncer.at, keyCell, updateKey]
  split_ifs with h0 he
  · constructor <;> simp [Debouncer.setCounter]
  · constructor <;> simp [Debouncer.setCounter]
  · constructor <;> simp

theorem transferKeyInPlace_visited (hw : cols ≤ w) (D : ℕ) (delta : BitVec w) (row : Fin rows)
    (s : Debouncer (Counters (BitVec 8) rows cols) rows w t) (col : Fin cols) :
    Visited s (transferKeyInPlace D delta row s col) row col
      ((passes D).transfer (delta.getLsbD col ^^ (s.at keyCell (row, col)).2)
        (s.at keyCell (row, col))) := by
  have hc : (col : ℕ) < w := by omega
  have hd : (delta &&& bitMask w col ≠ 0) =
      ((delta.getLsbD col ^^ (s.cooked row).getLsbD col) ≠ (s.cooked row).getLsbD col) := by
    rw [eq_iff_iff, and_bitMask_ne_zero hc]
    cases delta.getLsbD col <;> simp
  simp only [passes, Debouncer.at, keyCell, transferKeyInPlace, hd]
  split_ifs with hd h0
  · exact visited_flip s row hc (BitVec.ofNat 8 D)
  · constructor <;> simp
  · constructor <;> simp

theorem passes_sound (D : ℕ) : (passes D).Sound := by
  constructor
  · intro e r g
    simp only [passes]
    split_ifs <;> simp
  · intro e r g
    simp only [passes]
    split_ifs with h0
    · simp
    · simp
    · exact fun hr => absurd hr h0
  · intro r g
    simp only [passes]
    split_ifs <;> simp
  · intro r g
    simp only [passes]
    split_ifs <;> simp_all
  · intro r g
    simp only [passes]
    split_ifs <;> rfl

theorem loops_implement (hw : cols ≤ w) (D : ℕ) :
    (loops D : Loops (Counters (BitVec 8) rows cols) rows w t).Implements
      (eagerCell D Bool) keyCell keyReading := by
  rw [← cellLoops_passes]
  refine (passes_sound D).implements (fun raw e s => ?_) (fun raw s => ?_)
  · exact swept_forKeys (fun _ _ => ())
      (fun _ row col => (passes D).update e (keyReading raw (row, col)))
      (fun _ row s col => updateKey_visited D e _ row s col) (fun _ _ _ => rfl) _
  · have hrows : (loops D).transfer raw s = forKeys (fun s row => raw row ^^^ s.cooked row)
        (transferKeyInPlace D) { s with matrixNeedUpdate := false } := by
      simp only [loops, forKeys]
      congr 1
      funext s row
      exact transferRow_eq D raw s row
    rw [hrows]
    refine swept_forKeys _ (fun delta _ col g => (passes D).transfer (delta.getLsbD col ^^ g.2) g)
      (fun delta row s col => transferKeyInPlace_visited hw D delta row s col)
      (fun s row col => ?_) _
    simp [keyReading, Debouncer.at, keyCell]

end SymEagerPk

/-! ### The rows of `sym_eager_pr.c` -/

namespace SymEagerPr

def rowCell (k : Fin rows → BitVec 8) (m : Rows rows w) (row : Fin rows) : BitVec 8 × BitVec w :=
  (k row, m row)

theorem sweeps_updateRow (D : ℕ) (e : BitVec 8) (raw : Rows rows w) :
    Sweeps (updateRow e) (fun (s : Debouncer (Fin rows → BitVec 8) rows w t) => s.at rowCell)
      (fun row => (eagerCell D (BitVec w)).update e (raw row)) := by
  constructor
  · intro s row
    simp only [updateRow, Debouncer.at, rowCell, eagerCell]
    split_ifs with h0 he he <;> simp_all
  · intro s row j hj
    simp only [updateRow, Debouncer.at, rowCell]
    split_ifs with h0 he <;> simp [Function.update_of_ne hj]

theorem sweeps_transferRow (D : ℕ) (raw : Rows rows w) :
    Sweeps (transferRow D raw)
      (fun (s : Debouncer (Fin rows → BitVec 8) rows w t) => s.at rowCell)
      (fun row => (eagerCell D (BitVec w)).transfer (raw row)) := by
  constructor
  · intro s row
    simp only [transferRow, Debouncer.at, rowCell, eagerCell]
    split_ifs with h0 he he <;> simp_all
  · intro s row j hj
    simp only [transferRow, Debouncer.at, rowCell]
    split_ifs with h0 he <;> simp [Function.update_of_ne hj]

theorem update_counters (D : ℕ) (raw : Rows rows w) (e : BitVec 8)
    (s : Debouncer (Fin rows → BitVec 8) rows w t) :
    ((loops D).update raw e s).countersNeedUpdate = true ↔ ∃ row, ¬ s.counters row ≤ e := by
  have h := (sweeps_updateRow D e raw).flag_foldl
    (p := fun s : Debouncer (Fin rows → BitVec 8) rows w t => s.countersNeedUpdate = true)
    (q := fun _ g => ¬ g.1 ≤ e) (fun s row => ?_) (List.nodup_finRange rows)
    { s with countersNeedUpdate := false, matrixNeedUpdate := false }
  · simpa [loops, Debouncer.at, rowCell] using h
  · simp only [updateRow, Debouncer.at, rowCell]
    split_ifs <;> simp_all

theorem update_matrix (D : ℕ) (raw : Rows rows w) (e : BitVec 8)
    (s : Debouncer (Fin rows → BitVec 8) rows w t) :
    ((loops D).update raw e s).matrixNeedUpdate = true ↔
      ∃ row, s.counters row ≠ 0#8 ∧ s.counters row ≤ e := by
  have h := (sweeps_updateRow D e raw).flag_foldl
    (p := fun s : Debouncer (Fin rows → BitVec 8) rows w t => s.matrixNeedUpdate = true)
    (q := fun _ g => g.1 ≠ 0#8 ∧ g.1 ≤ e) (fun s row => ?_) (List.nodup_finRange rows)
    { s with countersNeedUpdate := false, matrixNeedUpdate := false }
  · simpa [loops, Debouncer.at, rowCell] using h
  · simp only [updateRow, Debouncer.at, rowCell]
    split_ifs <;> simp_all

theorem transfer_counters (D : ℕ) (raw : Rows rows w)
    (s : Debouncer (Fin rows → BitVec 8) rows w t) :
    ((loops D).transfer raw s).countersNeedUpdate = true ↔
      s.countersNeedUpdate = true ∨ ∃ row, s.cooked row ≠ raw row ∧ s.counters row = 0#8 := by
  have h := (sweeps_transferRow D raw).flag_foldl
    (p := fun s : Debouncer (Fin rows → BitVec 8) rows w t => s.countersNeedUpdate = true)
    (q := fun row g => g.2 ≠ raw row ∧ g.1 = 0#8) (fun s row => ?_) (List.nodup_finRange rows)
    { s with matrixNeedUpdate := false }
  · simpa [loops, Debouncer.at, rowCell] using h
  · simp only [transferRow, Debouncer.at, rowCell]
    split_ifs <;> simp_all

theorem transfer_changed (D : ℕ) (raw : Rows rows w)
    (s : Debouncer (Fin rows → BitVec 8) rows w t) :
    ((loops D).transfer raw s).cookedChanged = true ↔
      s.cookedChanged = true ∨ ∃ row, s.cooked row ≠ raw row ∧ s.counters row = 0#8 := by
  have h := (sweeps_transferRow D raw).flag_foldl
    (p := fun s : Debouncer (Fin rows → BitVec 8) rows w t => s.cookedChanged = true)
    (q := fun row g => g.2 ≠ raw row ∧ g.1 = 0#8) (fun s row => ?_) (List.nodup_finRange rows)
    { s with matrixNeedUpdate := false }
  · simpa [loops, Debouncer.at, rowCell] using h
  · simp only [transferRow, Debouncer.at, rowCell]
    split_ifs <;> simp_all

theorem update_cell (D : ℕ) (raw : Rows rows w) (e : BitVec 8)
    (s : Debouncer (Fin rows → BitVec 8) rows w t) (row : Fin rows) :
    ((loops D).update raw e s).at rowCell row =
      (eagerCell D (BitVec w)).update e (raw row) (s.at rowCell row) :=
  (sweeps_updateRow D e raw).foldl_of_mem (List.nodup_finRange rows) (List.mem_finRange row) _

theorem transfer_cell (D : ℕ) (raw : Rows rows w) (s : Debouncer (Fin rows → BitVec 8) rows w t)
    (row : Fin rows) :
    ((loops D).transfer raw s).at rowCell row =
      (eagerCell D (BitVec w)).transfer (raw row) (s.at rowCell row) :=
  (sweeps_transferRow D raw).foldl_of_mem (List.nodup_finRange rows) (List.mem_finRange row) _

theorem transfer_cooked_ne (D : ℕ) (raw : Rows rows w)
    (s : Debouncer (Fin rows → BitVec 8) rows w t) :
    ((loops D).transfer raw s).cooked ≠ s.cooked ↔
      ∃ row, s.cooked row ≠ raw row ∧ s.counters row = 0#8 := by
  rw [Function.ne_iff]
  refine exists_congr fun row => ?_
  have hrow := congrArg Prod.snd (transfer_cell D raw s row)
  simp only [Debouncer.at, rowCell, eagerCell] at hrow
  rw [hrow]
  split_ifs with h
  · simp [h.1, h.1.symm, h.2]
  · simp only [ne_eq, not_true_eq_false, false_iff]
    exact fun h' => h ⟨Ne.symm h'.1, h'.2⟩

theorem loops_implement (D : ℕ) :
    (loops D : Loops (Fin rows → BitVec 8) rows w t).Implements
      (eagerCell D (BitVec w)) rowCell (fun m row => m row) where
  value_cell _ _ _ := rfl
  update_cell raw e s row := update_cell D raw e s row
  update_running raw e s row hr := by
    rw [update_cell] at hr
    rw [update_counters]
    refine ⟨row, fun he => hr ?_⟩
    exact if_pos he
  update_recheck raw e s := update_matrix D raw e s
  update_changed raw e s := by
    have hcooked : ((loops D).update raw e s).cooked = s.cooked :=
      funext fun row => congrArg Prod.snd (update_cell D raw e s row)
    have hchanged : ((loops D).update raw e s).cookedChanged = s.cookedChanged := by
      refine foldl_keeps (p := Debouncer.cookedChanged) (fun s row => ?_) _ _
      simp only [updateRow]
      split_ifs <;> rfl
    simp [hcooked, hchanged]
  update_cooked raw e s h := funext h
  update_lastTime raw e s := by
    refine foldl_keeps (p := Debouncer.lastTime) (fun s row => ?_) _ _
    simp only [updateRow]
    split_ifs <;> rfl
  transfer_cell raw s row := transfer_cell D raw s row
  transfer_running raw s hs row hr := by
    rw [transfer_counters]
    rw [transfer_cell] at hr
    simp only [eagerCell] at hr
    split_ifs at hr with h
    · exact .inr ⟨row, Ne.symm h.1, h.2⟩
    · exact .inl (hs row hr)
  transfer_matrix raw s := by
    refine foldl_keeps (p := Debouncer.matrixNeedUpdate) (fun s row => ?_) _ _
    simp only [transferRow]
    split_ifs <;> rfl
  transfer_changed raw s := by rw [transfer_changed, transfer_cooked_ne]
  transfer_cooked raw s h := funext h
  transfer_lastTime raw s := by
    refine foldl_keeps (p := Debouncer.lastTime) (fun s row => ?_) _ _
    simp only [transferRow]
    split_ifs <;> rfl

end SymEagerPr

/-! ### No cell is stranded -/

section NeverStrands

variable {κ ι R : Type} {D : ℕ}

/-- Along every run, a cell that does not show its reading is counting, and the counter is going
to be looked at; it shows the reading once that counter has elapsed, whatever the other cells do;
and `D` milliseconds pass between two changes of one cell. -/
structure NeverStrands (l : Loops κ rows w t) (D : ℕ) (s : Scanner κ rows w t)
    (counter : κ → ι → BitVec 8) (reading : Rows rows w → ι → R) : Prop where
  counting : ∀ cs i,
    reading (l.run s cs).debouncer.cooked i ≠ reading (l.run s cs).raw i →
      counter (l.run s cs).debouncer.counters i ≠ 0#8 ∧
        (counter (l.run s cs).debouncer.counters i).toNat ≤ D ∧
        (l.run s cs).debouncer.countersNeedUpdate = true
  transfers : ∀ cs ds i,
    (∀ d ∈ ds, reading d.raw i = reading (l.run s cs).raw i) →
      (counter (l.run s cs).debouncer.counters i).toNat ≤
        (ds.map fun d => d.elapsed.toNat).sum →
      reading (l.run s (cs ++ ds)).debouncer.cooked i = reading (l.run s cs).raw i
  separated : ∀ cs c ds d i,
    reading (l.run s (cs ++ [c])).debouncer.cooked i ≠ reading (l.run s cs).debouncer.cooked i →
      reading (l.run s (cs ++ [c] ++ ds ++ [d])).debouncer.cooked i ≠
        reading (l.run s (cs ++ [c] ++ ds)).debouncer.cooked i →
      D ≤ ((ds ++ [d]).map fun d => d.elapsed.toNat).sum

theorem Loops.Implements.neverStrands [DecidableEq R] (h1 : 1 ≤ D) (h2 : D ≤ 255)
    {l : Loops κ rows w t} {counter : κ → ι → BitVec 8} {reading : Rows rows w → ι → R}
    (h : l.Implements (eagerCell D R) (fun k m i => (counter k i, reading m i)) reading)
    {k : κ} {m : Rows rows w} (hk : ∀ i, counter k i = 0#8) :
    NeverStrands l D (.start k m) counter reading := by
  have hlaw := eagerCell_lawful (R := R) h1 h2
  have hstart : Invariant (eagerCell D R) (fun k m i => (counter k i, reading m i)) reading
      (.start k m : Scanner κ rows w t) := by
    refine .start k m (fun i => ?_) (fun i => ?_)
    · simp [eagerCell, hk]
    · simp [eagerCell]
  have hinv := fun cs => Invariant.run h hlaw hstart cs
  have hrun : ∀ cs ds i, ((l.run (.start k m) (cs ++ ds)).debouncer.at
      (fun k m i => (counter k i, reading m i)) i) =
        (eagerCell D R).run ((l.run (.start k m) cs).debouncer.at
          (fun k m i => (counter k i, reading m i)) i)
          (ds.map fun d => (reading d.raw i, d.elapsed)) := by
    intro cs ds i
    rw [Loops.run_append]
    exact Implements.run h hlaw (hinv cs) ds i
  constructor
  · intro cs i hne
    have hc := eagerCell_settled h1 h2 ((hinv cs).settled i) hne
    refine ⟨hc, ?_, (hinv cs).running i hc⟩
    have hzero : (counter k i).toNat ≤ D := by simp [hk]
    calc (counter (l.run (.start k m) cs).debouncer.counters i).toNat
        = ((eagerCell D R).run (counter k i, reading m i) _).1.toNat :=
          congrArg (fun g => g.1.toNat) (hrun [] cs i)
      _ ≤ D := eagerCell_counter_le h2 hzero _
  · intro cs ds i hds hsum
    have hsame : (ds.map fun d => (reading d.raw i, d.elapsed)) =
        (ds.map Scan.elapsed).map fun e => (reading (l.run (.start k m) cs).raw i, e) := by
      rw [List.map_map]
      exact List.map_congr_left fun d hd => by simp [hds d hd]
    have hcell := congrArg Prod.snd (hrun cs ds i)
    rw [hsame] at hcell
    by_cases hv : reading (l.run (.start k m) cs).debouncer.cooked i =
        reading (l.run (.start k m) cs).raw i
    · exact hcell.trans (eagerCell_stays _ hv)
    · have h0 := eagerCell_settled h1 h2 ((hinv cs).settled i) hv
      refine hcell.trans (eagerCell_transfers _ h0 ?_)
      rw [List.map_map]
      exact hsum
  · intro cs c ds d i hc hd
    have hstep := hrun cs [c] i
    have hD : (counter (l.run (.start k m) (cs ++ [c])).debouncer.counters i) =
        BitVec.ofNat 8 D := by
      have := eagerCell_starts (D := D) ((l.run (.start k m) cs).debouncer.at
        (fun k m i => (counter k i, reading m i)) i) (reading c.raw i, c.elapsed)
        (fun heq => hc ((congrArg Prod.snd hstep).trans heq))
      exact (congrArg Prod.fst hstep).trans this
    have hwait := eagerCell_waits (D := D) (ds.map fun d => (reading d.raw i, d.elapsed))
      (reading d.raw i, d.elapsed) (g := (l.run (.start k m) (cs ++ [c])).debouncer.at
        (fun k m i => (counter k i, reading m i)) i) (fun heq => hd ?_)
    · change (counter (l.run (.start k m) (cs ++ [c])).debouncer.counters i).toNat ≤ _ at hwait
      rw [hD, BitVec.toNat_ofNat, Nat.mod_eq_of_lt (by omega)] at hwait
      simpa [Function.comp_def] using hwait
    · have h₁ := congrArg Prod.snd (hrun (cs ++ [c]) (ds ++ [d]) i)
      have h₂ := congrArg Prod.snd (hrun (cs ++ [c]) ds i)
      rw [List.map_append, List.map_singleton, heq] at h₁
      rw [← List.append_assoc] at h₁
      exact h₁.trans h₂.symm

end NeverStrands

/-- Neither eager algorithm strands a key, or a row. -/
theorem eager_never_strands {D : ℕ} (h1 : 1 ≤ D) (h2 : D ≤ 255) (hw : cols ≤ w)
    (m : Rows rows w) :
    NeverStrands (SymEagerPk.loops D : Loops (Counters (BitVec 8) rows cols) rows w t) D
        (.start (fun _ _ => 0#8) m) (fun k i => k i.1 i.2) keyReading ∧
      NeverStrands (SymEagerPr.loops D : Loops (Fin rows → BitVec 8) rows w t) D
        (.start (fun _ => 0#8) m) (fun k row => k row) (fun m row => m row) := by
  constructor
  · exact (SymEagerPk.loops_implement hw D).neverStrands h1 h2 fun _ => rfl
  · exact (SymEagerPr.loops_implement D).neverStrands h1 h2 fun _ => rfl

/-- A key pressed and released within the lock is released when the lock ends. -/
theorem eager_never_strands_release :
    keyReading ((SymEagerPk.loops 5 : Loops (Counters (BitVec 8) 1 1) 1 8 16).run
      (.start (fun _ _ => 0#8) fun _ => 0#8)
      ([⟨fun _ => 1#8, 3#16⟩, ⟨fun _ => 0#8, 2#16⟩] ++ [⟨fun _ => 0#8, 4#16⟩])).debouncer.cooked
      ((0, 0) : Fin 1 × Fin 1) = false :=
  ((eager_never_strands (by decide) (by decide) (by decide) _).1.transfers _ _ _
    (by decide) (by decide)).trans (by decide)

end Qmk.Debounce
