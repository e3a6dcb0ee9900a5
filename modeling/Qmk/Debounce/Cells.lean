import Qmk.Debounce.Scan

/-! # Debouncing one cell at a time

The cells of a matrix share the timer reading and the flags that let `debounce`
skip its loops. When the loops act on each cell by itself and obey a few laws,
the sharing cannot be seen: every cell evolves as it would alone, and `debounce`
reports a change exactly when the cooked matrix has changed.
-/

namespace Qmk.Debounce

variable {κ : Type} {rows w t : ℕ}

/-- What an algorithm does to one cell: a key with its counter, or a row with its counter. The
cell shows a raw reading of type `R` as a cooked value of the same type. -/
@[ext] structure CellLoops (R γ : Type) where
  update : BitVec 8 → R → γ → γ
  transfer : R → γ → γ
  value : γ → R
  /-- The counter of the cell has not elapsed. -/
  Running : γ → Prop
  /-- The update of the cell raises `matrix_need_update`. -/
  Recheck : BitVec 8 → R → γ → Prop

namespace CellLoops

variable {R γ : Type} (c : CellLoops R γ)

/-- One scan of the cell, both loops in turn. -/
def step (g : γ) (x : R × BitVec t) : γ := c.transfer x.1 (c.update (clampElapsed x.2) x.1 g)

/-- The cell after a sequence of readings. -/
def run (g : γ) (xs : List (R × BitVec t)) : γ := xs.foldl c.step g

@[simp] theorem run_nil (g : γ) : c.run g ([] : List (R × BitVec t)) = g := rfl

@[simp] theorem run_append (g : γ) (xs ys : List (R × BitVec t)) :
    c.run g (xs ++ ys) = c.run (c.run g xs) ys :=
  List.foldl_append

@[simp] theorem run_singleton (g : γ) (x : R × BitVec t) : c.run g [x] = c.step g x := rfl

/-- What lets `debounce` skip a loop: a cell without a running counter and a cell that no time
has passed for are not updated, and a cell that has been compared with its reading stays as it is
until the reading changes or its update asks for another comparison. -/
structure Lawful : Prop where
  update_idle : ∀ {e r g}, ¬ c.Running g → c.update e r g = g
  recheck_running : ∀ {e r g}, c.Recheck e r g → c.Running g
  update_zero : ∀ r g, c.update 0 r g = g
  recheck_zero : ∀ r g, ¬ c.Recheck 0 r g
  transfer_transfer : ∀ r g, c.transfer r (c.transfer r g) = c.transfer r g
  transfer_update : ∀ {e r g}, c.transfer r g = g → ¬ c.Recheck e r g →
    c.transfer r (c.update e r g) = c.update e r g
  /-- The two loops never undo each other's change. -/
  value_once : ∀ e r g, c.value (c.update e r g) ≠ c.value g →
    c.value (c.transfer r (c.update e r g)) = c.value (c.update e r g)

end CellLoops

/-! ### From the loops to the cells -/

section Refinement

variable {R γ ι : Type}

/-- The part of a debouncer that belongs to cell `i`. -/
def Debouncer.at (s : Debouncer κ rows w t) (cell : κ → Rows rows w → ι → γ) (i : ι) : γ :=
  cell s.counters s.cooked i

/-- The loops of an algorithm act on each cell by itself, and raise the shared flags when some
cell does. -/
structure Loops.Implements (l : Loops κ rows w t) (c : CellLoops R γ)
    (cell : κ → Rows rows w → ι → γ) (reading : Rows rows w → ι → R) : Prop where
  value_cell : ∀ k m i, c.value (cell k m i) = reading m i
  update_cell : ∀ raw e s i,
    (l.update raw e s).at cell i = c.update e (reading raw i) (s.at cell i)
  update_running : ∀ raw e s i, c.Running ((l.update raw e s).at cell i) →
    (l.update raw e s).countersNeedUpdate = true
  update_recheck : ∀ raw e s, (l.update raw e s).matrixNeedUpdate = true ↔
    ∃ i, c.Recheck e (reading raw i) (s.at cell i)
  update_changed : ∀ raw e s, (l.update raw e s).cookedChanged = true ↔
    s.cookedChanged = true ∨ (l.update raw e s).cooked ≠ s.cooked
  update_cooked : ∀ raw e s,
    (∀ i, reading (l.update raw e s).cooked i = reading s.cooked i) →
      (l.update raw e s).cooked = s.cooked
  update_lastTime : ∀ raw e s, (l.update raw e s).lastTime = s.lastTime
  transfer_cell : ∀ raw s i,
    (l.transfer raw s).at cell i = c.transfer (reading raw i) (s.at cell i)
  transfer_running : ∀ raw s, (∀ i, c.Running (s.at cell i) → s.countersNeedUpdate = true) →
    ∀ i, c.Running ((l.transfer raw s).at cell i) →
      (l.transfer raw s).countersNeedUpdate = true
  transfer_matrix : ∀ raw s, (l.transfer raw s).matrixNeedUpdate = false
  transfer_changed : ∀ raw s, (l.transfer raw s).cookedChanged = true ↔
    s.cookedChanged = true ∨ (l.transfer raw s).cooked ≠ s.cooked
  transfer_cooked : ∀ raw s,
    (∀ i, reading (l.transfer raw s).cooked i = reading s.cooked i) →
      (l.transfer raw s).cooked = s.cooked
  transfer_lastTime : ∀ raw s, (l.transfer raw s).lastTime = s.lastTime

namespace Loops.Implements

variable {l : Loops κ rows w t} {c : CellLoops R γ} {cell : κ → Rows rows w → ι → γ}
  {reading : Rows rows w → ι → R}

/-- What holds between two scans: a running counter is known to the flag and counts from the
last scan, no comparison is pending, and every cell has been compared with its reading. -/
structure Invariant (c : CellLoops R γ) (cell : κ → Rows rows w → ι → γ)
    (reading : Rows rows w → ι → R) (s : Scanner κ rows w t) : Prop where
  running : ∀ i, c.Running (s.debouncer.at cell i) → s.debouncer.countersNeedUpdate = true
  lastTime : s.debouncer.countersNeedUpdate = true → s.debouncer.lastTime = s.clock
  matrix : s.debouncer.matrixNeedUpdate = false
  settled : ∀ i, c.transfer (reading s.raw i) (s.debouncer.at cell i) = s.debouncer.at cell i

theorem Invariant.start (k : κ) (m : Rows rows w)
    (hidle : ∀ i, ¬ c.Running (cell k m i))
    (hsettled : ∀ i, c.transfer (reading m i) (cell k m i) = cell k m i) :
    Invariant c cell reading (.start k m : Scanner κ rows w t) where
  running i hr := absurd hr (hidle i)
  lastTime h := by simp [Scanner.start] at h
  matrix := rfl
  settled := hsettled

/-- What the first half of `debounce` leaves behind, seen from the cells. -/
structure Elapsed (c : CellLoops R γ) (cell : κ → Rows rows w → ι → γ)
    (reading : Rows rows w → ι → R) (raw : Rows rows w) (e : BitVec 8) (now : BitVec t)
    (s s' : Debouncer κ rows w t) : Prop where
  cells : ∀ i, s'.at cell i = c.update e (reading raw i) (s.at cell i)
  running : ∀ i, c.Running (s'.at cell i) → s'.countersNeedUpdate = true
  recheck : s'.matrixNeedUpdate = true ↔ ∃ i, c.Recheck e (reading raw i) (s.at cell i)
  changed : s'.cookedChanged = true ↔ s'.cooked ≠ s.cooked
  cooked : (∀ i, reading s'.cooked i = reading s.cooked i) → s'.cooked = s.cooked
  lastTime : s.countersNeedUpdate = true → s'.lastTime = now
  stopped : s.countersNeedUpdate = false → s'.countersNeedUpdate = false

theorem elapse (h : l.Implements c cell reading) (hc : c.Lawful) {s : Debouncer κ rows w t}
    {clock e : BitVec t} (hrun : ∀ i, c.Running (s.at cell i) → s.countersNeedUpdate = true)
    (hlast : s.countersNeedUpdate = true → s.lastTime = clock)
    (hmatrix : s.matrixNeedUpdate = false) (hchanged : s.cookedChanged = false)
    (raw : Rows rows w) :
    Elapsed c cell reading raw (clampElapsed e) (clock + e) s (l.elapse raw (clock + e) s) := by
  by_cases hn : s.countersNeedUpdate = true
  · have he : clock + e - s.lastTime = e := by
      rw [hlast hn, BitVec.add_comm, BitVec.add_sub_cancel]
    rw [Loops.elapse, if_pos hn]
    simp only [he]
    by_cases h0 : 0 < e.toNat
    · rw [if_pos h0]
      constructor
      · intro i
        exact h.update_cell ..
      · intro i
        exact h.update_running _ _ _ i
      · exact h.update_recheck ..
      · have := h.update_changed raw (clampElapsed e) { s with lastTime := clock + e }
        simpa [hchanged] using this
      · exact h.update_cooked _ _ _
      · intro _
        exact h.update_lastTime ..
      · intro hs
        simp [hs] at hn
    -- no time has passed, and an update by nothing would have changed nothing
    · rw [if_neg h0]
      have hz : clampElapsed e = 0 := by simp [clampElapsed, Nat.eq_zero_of_not_pos h0]
      rw [hz]
      constructor
      · intro i
        exact (hc.update_zero _ _).symm
      · intro i _
        exact hn
      · simpa [hmatrix] using fun i => hc.recheck_zero (reading raw i) _
      · simp [hchanged]
      · intro _
        rfl
      · intro _
        rfl
      · intro hs
        simp [hs] at hn
  · have hidle : ∀ i, ¬ c.Running (s.at cell i) := fun i hr => hn (hrun i hr)
    rw [Loops.elapse, if_neg hn]
    constructor
    · intro i
      exact (hc.update_idle (hidle i)).symm
    · intro i hr
      exact absurd hr (hidle i)
    · simpa [hmatrix] using fun i hr => hidle i (hc.recheck_running hr)
    · simp [hchanged]
    · intro _
      rfl
    · intro hs
      exact absurd hs hn
    · exact id

/-- What a whole call of `debounce` leaves behind, seen from the cells. -/
structure Debounced (c : CellLoops R γ) (cell : κ → Rows rows w → ι → γ)
    (reading : Rows rows w → ι → R) (raw : Rows rows w) (e now : BitVec t)
    (s s' : Debouncer κ rows w t) : Prop where
  cells : ∀ i, s'.at cell i = c.step (s.at cell i) (reading raw i, e)
  running : ∀ i, c.Running (s'.at cell i) → s'.countersNeedUpdate = true
  lastTime : s'.countersNeedUpdate = true → s'.lastTime = now
  matrix : s'.matrixNeedUpdate = false
  changed : s'.cookedChanged = true ↔ s'.cooked ≠ s.cooked

theorem compare (h : l.Implements c cell reading) (hc : c.Lawful) {s s₁ : Debouncer κ rows w t}
    {raw : Rows rows w} {e now : BitVec t}
    (he : Elapsed c cell reading raw (clampElapsed e) now s s₁) (hlast : s₁.lastTime = now) :
    Debounced c cell reading raw e now s (l.transfer raw s₁) := by
  have hcells : ∀ i, (l.transfer raw s₁).at cell i = c.step (s.at cell i) (reading raw i, e) := by
    intro i
    rw [h.transfer_cell, he.cells, CellLoops.step]
  refine ⟨hcells, h.transfer_running _ _ he.running, fun _ => (h.transfer_lastTime ..).trans hlast,
    h.transfer_matrix .., ?_⟩
  -- a cell that the first loop has changed keeps its new value in the second
  have hkept : (l.transfer raw s₁).cooked = s.cooked → s₁.cooked = s.cooked := by
    intro heq
    refine he.cooked fun i => ?_
    by_contra hi
    have hv := hc.value_once (clampElapsed e) (reading raw i) (s.at cell i)
    rw [← he.cells, ← h.transfer_cell, Debouncer.at, Debouncer.at, Debouncer.at, h.value_cell,
      h.value_cell, h.value_cell, heq] at hv
    exact hi (hv hi).symm
  rw [h.transfer_changed, he.changed]
  constructor
  · rintro (hne | hne) heq
    · exact hne (hkept heq)
    · exact hne (heq.trans (hkept heq).symm)
  · intro hne
    by_cases h₁ : s₁.cooked = s.cooked
    · exact .inr fun heq => hne (heq.trans h₁)
    · exact .inl h₁

/-- One call of `debounce` between two scans: every cell takes its own step. -/
theorem debounce (h : l.Implements c cell reading) (hc : c.Lawful) {s : Scanner κ rows w t}
    (inv : Invariant c cell reading s) (x : Scan rows w t) :
    Debounced c cell reading x.raw x.elapsed (s.clock + x.elapsed) s.debouncer
      (l.scan s x).debouncer := by
  rw [Loops.scan, Loops.debounce]
  have he : Elapsed c cell reading x.raw (clampElapsed x.elapsed) (s.clock + x.elapsed)
      s.debouncer (l.elapse x.raw (s.clock + x.elapsed)
        { s.debouncer with cookedChanged := false }) := by
    obtain ⟨h₁, h₂, h₃, h₄, h₅, h₆, h₇⟩ := elapse h hc (e := x.elapsed)
      (s := { s.debouncer with cookedChanged := false }) inv.running inv.lastTime inv.matrix rfl
      x.raw
    exact ⟨h₁, h₂, h₃, h₄, h₅, h₆, h₇⟩
  generalize l.elapse x.raw (s.clock + x.elapsed)
    { s.debouncer with cookedChanged := false } = s₁ at he ⊢
  by_cases ht : (decide (x.raw ≠ s.raw) || s₁.matrixNeedUpdate) = true
  · simp only [ht, if_true]
    by_cases hn : s.debouncer.countersNeedUpdate = true
    · rw [if_pos hn]
      exact compare h hc he (he.lastTime hn)
    · rw [if_neg hn]
      exact compare h hc ⟨he.cells, he.running, he.recheck, he.changed, he.cooked, fun _ => rfl,
        he.stopped⟩ rfl
  · simp only [ht]
    simp only [Bool.or_eq_true, decide_eq_true_eq, not_or, not_not] at ht
    obtain ⟨hraw, hm⟩ := ht
    have hnone : ∀ i, ¬ c.Recheck (clampElapsed x.elapsed) (reading x.raw i)
        (s.debouncer.at cell i) := fun i hi => hm (he.recheck.mpr ⟨i, hi⟩)
    refine ⟨fun i => ?_, he.running, fun hn => ?_, by simpa using hm, he.changed⟩
    · rw [CellLoops.step, hc.transfer_update (hraw ▸ inv.settled i) (hnone i)]
      exact he.cells i
    · by_cases hs : s.debouncer.countersNeedUpdate = true
      · exact he.lastTime hs
      · simp [he.stopped (by simpa using hs)] at hn

theorem Invariant.scan (h : l.Implements c cell reading) (hc : c.Lawful)
    {s : Scanner κ rows w t} (inv : Invariant c cell reading s) (x : Scan rows w t) :
    Invariant c cell reading (l.scan s x) := by
  have hd := debounce h hc inv x
  refine ⟨hd.running, hd.lastTime, hd.matrix, fun i => ?_⟩
  rw [hd.cells, CellLoops.step]
  exact hc.transfer_transfer ..

theorem Invariant.run (h : l.Implements c cell reading) (hc : c.Lawful)
    {s : Scanner κ rows w t} (inv : Invariant c cell reading s) (xs : List (Scan rows w t)) :
    Invariant c cell reading (l.run s xs) := by
  induction xs generalizing s with
  | nil => exact inv
  | cons x xs ih => exact ih (Invariant.scan h hc inv x)

theorem run (h : l.Implements c cell reading) (hc : c.Lawful) {s : Scanner κ rows w t}
    (inv : Invariant c cell reading s) (xs : List (Scan rows w t)) (i : ι) :
    (l.run s xs).debouncer.at cell i =
      c.run (s.debouncer.at cell i) (xs.map fun x => (reading x.raw i, x.elapsed)) := by
  induction xs generalizing s with
  | nil => rfl
  | cons x xs ih =>
    have hx := (debounce h hc inv x).cells i
    calc (l.run (l.scan s x) xs).debouncer.at cell i
        = c.run ((l.scan s x).debouncer.at cell i) _ := ih (Invariant.scan h hc inv x)
      _ = _ := by rw [hx]; rfl

/-- A cell that follows an automaton step by step follows it along every run. -/
theorem simulates (h : l.Implements c cell reading) (hc : c.Lawful) {s : Scanner κ rows w t}
    (inv : Invariant c cell reading s) {A : Type} {sim : A → γ → Prop} {next : A → R × ℕ → A}
    (hstep : ∀ a g (x : R × BitVec t), sim a g → sim (next a (x.1, x.2.toNat)) (c.step g x))
    (i : ι) {a : A} (ha : sim a (s.debouncer.at cell i)) (xs : List (Scan rows w t)) :
    sim ((xs.map fun x => (reading x.raw i, x.elapsed.toNat)).foldl next a)
      ((l.run s xs).debouncer.at cell i) := by
  induction xs generalizing s a with
  | nil => exact ha
  | cons x xs ih =>
    refine ih (Invariant.scan h hc inv x) ?_
    rw [(debounce h hc inv x).cells i]
    exact hstep _ _ (reading x.raw i, x.elapsed) ha

end Loops.Implements

end Refinement

end Qmk.Debounce
