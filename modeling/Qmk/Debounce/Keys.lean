import Qmk.Debounce.Cells

/-! # Loops over the keys of a matrix

The per-key algorithms keep one counter for each key and walk the matrix row by
row and column by column. A pass at one key may change its counter and its bit
of the cooked matrix, and may raise the shared flags.
-/

namespace Qmk.Debounce

variable {κ δ : Type} {rows cols w t : ℕ}

/-- One counter for each key. `debounce_pointer` walks the array in step with the loops over rows
and columns, so a counter is addressed by its row and its column. -/
abbrev Counters (κ : Type) (rows cols : ℕ) := Fin rows → Fin cols → κ

def keyCell (k : Counters κ rows cols) (m : Rows rows w) (i : Fin rows × Fin cols) : κ × Bool :=
  (k i.1 i.2, (m i.1).getLsbD i.2)

def keyReading (m : Rows rows w) (i : Fin rows × Fin cols) : Bool := (m i.1).getLsbD i.2

namespace Debouncer

def setCounter (s : Debouncer (Counters κ rows cols) rows w t) (row : Fin rows) (col : Fin cols)
    (x : κ) : Debouncer (Counters κ rows cols) rows w t :=
  { s with counters := Function.update s.counters row (Function.update (s.counters row) col x) }

def setRow {κ : Type} (s : Debouncer κ rows w t) (row : Fin rows) (x : BitVec w) :
    Debouncer κ rows w t :=
  { s with cooked := Function.update s.cooked row x }

end Debouncer

/-- Visit every key. What `head` computes from a row before its first column is visited is at
hand at all its keys. -/
def forKeys (head : Debouncer κ rows w t → Fin rows → δ)
    (pass : δ → Fin rows → Debouncer κ rows w t → Fin cols → Debouncer κ rows w t)
    (s : Debouncer κ rows w t) : Debouncer κ rows w t :=
  (List.finRange rows).foldl
    (fun s row => (List.finRange cols).foldl (pass (head s row) row) s) s

structure KeyPass (κ : Type) where
  counter : κ
  bit : Bool
  counters : Bool := false
  matrix : Bool := false
  changed : Bool := false

/-- `s'` comes from `s` by a pass at one key. -/
structure Visited (s s' : Debouncer (Counters κ rows cols) rows w t) (row : Fin rows)
    (col : Fin cols) (p : KeyPass κ) : Prop where
  counter : s'.counters = Function.update s.counters row
    (Function.update (s.counters row) col p.counter)
  bit : (s'.cooked row).getLsbD col = p.bit
  bits : ∀ r (j : ℕ), (r, j) ≠ (row, (col : ℕ)) →
    (s'.cooked r).getLsbD j = (s.cooked r).getLsbD j
  counters : s'.countersNeedUpdate = (s.countersNeedUpdate || p.counters)
  matrix : s'.matrixNeedUpdate = (s.matrixNeedUpdate || p.matrix)
  changed : s'.cookedChanged = (s.cookedChanged || p.changed)
  lastTime : s'.lastTime = s.lastTime

namespace Visited

variable {s s' : Debouncer (Counters κ rows cols) rows w t} {row : Fin rows} {col : Fin cols}
  {p : KeyPass κ}

theorem here (h : Visited s s' row col p) : s'.at keyCell (row, col) = (p.counter, p.bit) := by
  simp [Debouncer.at, keyCell, h.counter, h.bit]

theorem elsewhere (h : Visited s s' row col p) {i : Fin rows × Fin cols} (hi : i ≠ (row, col)) :
    s'.at keyCell i = s.at keyCell i := by
  obtain ⟨r, c⟩ := i
  have hbit : (s'.cooked r).getLsbD c = (s.cooked r).getLsbD c := by
    refine h.bits r c fun hj => hi ?_
    simpa [Fin.val_inj] using hj
  have hcounter : s'.counters r c = s.counters r c := by
    rw [h.counter]
    by_cases hr : r = row
    · subst hr
      have hc : c ≠ col := fun hc => hi (by rw [hc])
      simp [Function.update_of_ne hc]
    · rw [Function.update_of_ne hr]
  simp [Debouncer.at, keyCell, hbit, hcounter]

end Visited

/-- The pass that takes the bit of a key over from the raw matrix. -/
theorem visited_splice (s : Debouncer (Counters κ rows cols) rows w t) (raw : Rows rows w)
    (row : Fin rows) {col : Fin cols} (hc : (col : ℕ) < w) (x : κ) :
    Visited s
      { (s.setCounter row col x).setRow row (spliceBit (s.cooked row) (raw row) col) with
        cookedChanged := s.cookedChanged ||
          decide (s.cooked row ^^^ spliceBit (s.cooked row) (raw row) col ≠ 0) } row col
      { counter := x
        bit := (raw row).getLsbD col
        changed := decide ((s.cooked row).getLsbD col ≠ (raw row).getLsbD col) } := by
  constructor
  · simp [Debouncer.setCounter, Debouncer.setRow]
  · simp [Debouncer.setCounter, Debouncer.setRow, getLsbD_spliceBit hc]
  · intro r j hj
    by_cases hr : r = row
    · subst hr
      have hne : j ≠ col := fun h => hj (by rw [h])
      simp [Debouncer.setCounter, Debouncer.setRow, getLsbD_spliceBit hc, hne]
    · simp [Debouncer.setCounter, Debouncer.setRow, Function.update_of_ne hr]
  · simp [Debouncer.setCounter, Debouncer.setRow]
  · simp [Debouncer.setCounter, Debouncer.setRow]
  · simp only [xor_spliceBit_ne_zero hc]
  · simp [Debouncer.setCounter, Debouncer.setRow]

theorem visited_flip (s : Debouncer (Counters κ rows cols) rows w t) (row : Fin rows)
    {col : Fin cols} (hc : (col : ℕ) < w) (x : κ) :
    Visited s
      { (s.setCounter row col x).setRow row (s.cooked row ^^^ bitMask w col) with
        countersNeedUpdate := true
        cookedChanged := true } row col
      { counter := x
        bit := !(s.cooked row).getLsbD col
        counters := true
        changed := true } := by
  constructor
  · simp [Debouncer.setCounter, Debouncer.setRow]
  · simp [Debouncer.setRow, getLsbD_xor_bitMask hc]
  · intro r j hj
    by_cases hr : r = row
    · subst hr
      have hne : j ≠ col := fun h => hj (by rw [h])
      simp [Debouncer.setRow, getLsbD_xor_bitMask hc, hne]
    · simp [Debouncer.setCounter, Debouncer.setRow, Function.update_of_ne hr]
  · simp
  · simp [Debouncer.setCounter, Debouncer.setRow]
  · simp
  · simp [Debouncer.setCounter, Debouncer.setRow]

/-- `s'` comes from `s` by one pass at every key, each on the key as `s` has it. -/
structure Swept (s s' : Debouncer (Counters κ rows cols) rows w t)
    (eff : Fin rows × Fin cols → κ × Bool → KeyPass κ) : Prop where
  cells : ∀ i, s'.at keyCell i =
    ((eff i (s.at keyCell i)).counter, (eff i (s.at keyCell i)).bit)
  counters : s'.countersNeedUpdate = true ↔
    s.countersNeedUpdate = true ∨ ∃ i, (eff i (s.at keyCell i)).counters = true
  matrix : s'.matrixNeedUpdate = true ↔
    s.matrixNeedUpdate = true ∨ ∃ i, (eff i (s.at keyCell i)).matrix = true
  changed : s'.cookedChanged = true ↔
    s.cookedChanged = true ∨ ∃ i, (eff i (s.at keyCell i)).changed = true
  /-- The bits that belong to no column. -/
  spare : ∀ r j, cols ≤ j → (s'.cooked r).getLsbD j = (s.cooked r).getLsbD j
  lastTime : s'.lastTime = s.lastTime

section ForKeys

variable {head : Debouncer (Counters κ rows cols) rows w t → Fin rows → δ}
  {pass : δ → Fin rows → Debouncer (Counters κ rows cols) rows w t → Fin cols →
    Debouncer (Counters κ rows cols) rows w t}
  {rowEff : δ → Fin rows → Fin cols → κ × Bool → KeyPass κ}
  {eff : Fin rows × Fin cols → κ × Bool → KeyPass κ}

theorem sweeps_columns
    (hp : ∀ d row s col, Visited s (pass d row s col) row col
      (rowEff d row col (s.at keyCell (row, col)))) (d : δ) (row : Fin rows) :
    Sweeps (pass d row) (fun s col => s.at keyCell (row, col))
      (fun col g => ((rowEff d row col g).counter, (rowEff d row col g).bit)) := by
  constructor
  · intro s col
    exact (hp d row s col).here
  · intro s col j hj
    refine (hp d row s col).elsewhere fun h => hj ?_
    exact (Prod.ext_iff.mp h).2

theorem sweeps_rows
    (hp : ∀ d row s col, Visited s (pass d row s col) row col
      (rowEff d row col (s.at keyCell (row, col))))
    (hh : ∀ s row col, rowEff (head s row) row col (s.at keyCell (row, col)) =
      eff (row, col) (s.at keyCell (row, col))) :
    Sweeps (fun s row => (List.finRange cols).foldl (pass (head s row) row) s)
      (fun s row col => s.at keyCell (row, col))
      (fun row g col => ((eff (row, col) (g col)).counter, (eff (row, col) (g col)).bit)) := by
  constructor
  · intro s row
    funext col
    rw [(sweeps_columns hp (head s row) row).foldl_of_mem (List.nodup_finRange cols)
      (List.mem_finRange col), hh]
  · intro s row r hr
    refine foldl_keeps (p := fun s => fun col => s.at keyCell (r, col)) (fun s col => ?_) _ s
    funext c
    refine (hp _ row s col).elsewhere fun h => hr ?_
    exact (Prod.ext_iff.mp h).1

theorem flag_forKeys
    (hp : ∀ d row s col, Visited s (pass d row s col) row col
      (rowEff d row col (s.at keyCell (row, col))))
    (hh : ∀ s row col, rowEff (head s row) row col (s.at keyCell (row, col)) =
      eff (row, col) (s.at keyCell (row, col)))
    (flag : Debouncer (Counters κ rows cols) rows w t → Bool) (sel : KeyPass κ → Bool)
    (hf : ∀ d row s col, flag (pass d row s col) =
      (flag s || sel (rowEff d row col (s.at keyCell (row, col)))))
    (s : Debouncer (Counters κ rows cols) rows w t) :
    flag (forKeys head pass s) = true ↔
      flag s = true ∨ ∃ i, sel (eff i (s.at keyCell i)) = true := by
  have hrow : ∀ s row, flag ((List.finRange cols).foldl (pass (head s row) row) s) = true ↔
      flag s = true ∨ ∃ col, sel (eff (row, col) (s.at keyCell (row, col))) = true := by
    intro s row
    rw [(sweeps_columns hp (head s row) row).flag_foldl (p := fun s => flag s = true)
      (q := fun col g => sel (rowEff (head s row) row col g) = true)
      (fun s col => by rw [hf, Bool.or_eq_true]) (List.nodup_finRange cols)]
    simp [hh]
  rw [forKeys, (sweeps_rows hp hh).flag_foldl (p := fun s => flag s = true)
    (q := fun row g => ∃ col, sel (eff (row, col) (g col)) = true) hrow
    (List.nodup_finRange rows)]
  simp

theorem swept_forKeys (head : Debouncer (Counters κ rows cols) rows w t → Fin rows → δ)
    (rowEff : δ → Fin rows → Fin cols → κ × Bool → KeyPass κ)
    (hp : ∀ d row s col, Visited s (pass d row s col) row col
      (rowEff d row col (s.at keyCell (row, col))))
    (hh : ∀ s row col, rowEff (head s row) row col (s.at keyCell (row, col)) =
      eff (row, col) (s.at keyCell (row, col)))
    (s : Debouncer (Counters κ rows cols) rows w t) :
    Swept s (forKeys head pass s) eff := by
  constructor
  · intro ⟨row, col⟩
    exact congrFun ((sweeps_rows hp hh).foldl_of_mem (List.nodup_finRange rows)
      (List.mem_finRange row) s) col
  · exact flag_forKeys hp hh _ KeyPass.counters (fun d row s col => (hp d row s col).counters) s
  · exact flag_forKeys hp hh _ KeyPass.matrix (fun d row s col => (hp d row s col).matrix) s
  · exact flag_forKeys hp hh _ KeyPass.changed (fun d row s col => (hp d row s col).changed) s
  · intro r j hj
    refine foldl_keeps (p := fun s => (s.cooked r).getLsbD j) (fun s row => ?_) _ s
    refine foldl_keeps (p := fun s => (s.cooked r).getLsbD j) (fun s col => ?_) _ s
    refine (hp _ row s col).bits r j fun h => ?_
    have := (Prod.ext_iff.mp h).2
    omega
  · refine foldl_keeps (p := fun s => s.lastTime) (fun s row => ?_) _ s
    exact foldl_keeps (p := fun s => s.lastTime) (fun s col => (hp _ row s col).lastTime) _ s

end ForKeys

/-- Where the spare bits are untouched, the cooked matrix is known by its keys. -/
theorem Swept.cooked {s s' : Debouncer (Counters κ rows cols) rows w t}
    {eff : Fin rows × Fin cols → κ × Bool → KeyPass κ} (h : Swept s s' eff)
    (hk : ∀ i : Fin rows × Fin cols, keyReading s'.cooked i = keyReading s.cooked i) :
    s'.cooked = s.cooked := by
  funext r
  refine BitVec.eq_of_getLsbD_eq fun j _ => ?_
  by_cases hj : j < cols
  · exact hk (r, ⟨j, hj⟩)
  · exact h.spare r j (Nat.le_of_not_lt hj)

theorem Swept.cooked_ne {s s' : Debouncer (Counters κ rows cols) rows w t}
    {eff : Fin rows × Fin cols → κ × Bool → KeyPass κ} (h : Swept s s' eff)
    (he : ∀ i g, (eff i g).changed = true ↔ (eff i g).bit ≠ g.2) :
    s'.cookedChanged = true ↔ s.cookedChanged = true ∨ s'.cooked ≠ s.cooked := by
  have hbit : ∀ i, keyReading s'.cooked i = (eff i (s.at keyCell i)).bit := fun i =>
    (Prod.ext_iff.mp (h.cells i)).2
  rw [h.changed]
  refine or_congr_right ?_
  constructor
  · rintro ⟨i, hi⟩ heq
    refine (he _ _).mp hi ?_
    rw [← hbit i, heq]
    rfl
  · intro hne
    by_contra hno
    push Not at hno
    refine hne (h.cooked fun i => ?_)
    rw [hbit i]
    by_contra hi
    exact hno i ((he _ _).mpr hi)

/-! ### Algorithms given by their passes -/

/-- The passes of a per-key algorithm, as functions of the raw bit and the key. -/
structure KeyPasses (κ : Type) where
  update : BitVec 8 → Bool → κ × Bool → KeyPass κ
  transfer : Bool → κ × Bool → KeyPass κ
  Running : κ → Prop

namespace KeyPasses

variable (p : KeyPasses κ)

def cellLoops : CellLoops Bool (κ × Bool) where
  update e r g := ((p.update e r g).counter, (p.update e r g).bit)
  transfer r g := ((p.transfer r g).counter, (p.transfer r g).bit)
  value g := g.2
  Running g := p.Running g.1
  Recheck e r g := (p.update e r g).matrix = true

structure Sound : Prop where
  update_changed : ∀ e r g, (p.update e r g).changed = true ↔ (p.update e r g).bit ≠ g.2
  update_running : ∀ {e r g}, p.Running (p.update e r g).counter →
    (p.update e r g).counters = true
  transfer_changed : ∀ r g, (p.transfer r g).changed = true ↔ (p.transfer r g).bit ≠ g.2
  transfer_running : ∀ {r g}, p.Running (p.transfer r g).counter →
    p.Running g.1 ∨ (p.transfer r g).counters = true
  transfer_matrix : ∀ r g, (p.transfer r g).matrix = false

variable {p}

/-- Loops that lower their flags and then pass every key once. -/
theorem Sound.implements (hp : p.Sound) {l : Loops (Counters κ rows cols) rows w t}
    (hu : ∀ raw e s, Swept { s with countersNeedUpdate := false, matrixNeedUpdate := false }
      (l.update raw e s) fun i => p.update e (keyReading raw i))
    (ht : ∀ raw s, Swept { s with matrixNeedUpdate := false }
      (l.transfer raw s) fun i => p.transfer (keyReading raw i)) :
    l.Implements p.cellLoops keyCell keyReading where
  value_cell _ _ _ := rfl
  update_cell raw e s i := (hu raw e s).cells i
  update_running raw e s i hr := by
    refine (hu raw e s).counters.mpr (.inr ⟨i, hp.update_running ?_⟩)
    rwa [(hu raw e s).cells i] at hr
  update_recheck raw e s := by
    rw [(hu raw e s).matrix]
    simp only [Bool.false_eq_true, false_or]
    rfl
  update_changed raw e s := (hu raw e s).cooked_ne fun i g => hp.update_changed ..
  update_cooked raw e s := (hu raw e s).cooked
  update_lastTime raw e s := (hu raw e s).lastTime
  transfer_cell raw s i := (ht raw s).cells i
  transfer_running raw s hs i hr := by
    rw [(ht raw s).cells i] at hr
    rw [(ht raw s).counters]
    rcases hp.transfer_running hr with hi | hi
    · exact .inl (hs i hi)
    · exact .inr ⟨i, hi⟩
  transfer_matrix raw s := by
    rw [← Bool.not_eq_true, (ht raw s).matrix]
    simp [hp.transfer_matrix]
  transfer_changed raw s := (ht raw s).cooked_ne fun i g => hp.transfer_changed ..
  transfer_cooked raw s := (ht raw s).cooked
  transfer_lastTime raw s := (ht raw s).lastTime

end KeyPasses

end Qmk.Debounce
