import Mathlib.Data.List.ProdSigma
import Mathlib.Data.Nat.Bitwise
import Qmk.Keyboard.Records

/-! # The matrix task

`matrix_task` compares each scan of the matrix with what it has reported so far and makes an event
of each key that has changed. A row that may hold a ghost key waits. What has been reported is what
the events leave down, and so, with the actions, what the host sees of an idle matrix is nothing.
-/

namespace Qmk.Keyboard

open HeldKeys SourceLayers

section MoreThanOne

variable {w : ℕ}

def popcountMoreThanOne (rowdata : BitVec w) : Bool := rowdata &&& (rowdata - 1) ≠ 0

theorem isPowerOfTwo_iff {n : ℕ} (hn : n ≠ 0) :
    n.isPowerOfTwo ↔ ∀ i j, n.testBit i = true → n.testBit j = true → i = j := by
  constructor
  · rintro ⟨k, rfl⟩ i j hi hj
    rw [Nat.testBit_two_pow, decide_eq_true_eq] at hi hj
    exact hi.symm.trans hj
  · intro h
    obtain ⟨k, hk⟩ := Nat.exists_testBit_of_ne_zero hn
    refine ⟨k, Nat.eq_of_testBit_eq fun i => ?_⟩
    rw [Nat.testBit_two_pow]
    by_cases hi : k = i
    · rw [← hi, hk, decide_eq_true rfl]
    · rw [decide_eq_false hi, Bool.eq_false_iff]
      exact fun hset => hi (h k i hk hset)

theorem popcountMoreThanOne_iff {rowdata : BitVec w} : popcountMoreThanOne rowdata = true ↔
    ∃ i j, i ≠ j ∧ rowdata.getLsbD i = true ∧ rowdata.getLsbD j = true := by
  rw [popcountMoreThanOne, decide_eq_true_eq]
  by_cases hzero : rowdata = 0
  · subst hzero
    simp
  · have hne : rowdata.toNat ≠ 0 := fun h => hzero (BitVec.eq_of_toNat_eq h)
    have hone : (1#w).toNat = 1 := by
      have hlt := rowdata.isLt
      rw [BitVec.toNat_ofNat, Nat.mod_eq_of_lt (by omega)]
    have hpred : (rowdata - 1#w).toNat = rowdata.toNat - 1 := by
      rw [BitVec.toNat_sub_of_le (BitVec.le_def.mpr (by omega)), hone]
    have hand : rowdata &&& (rowdata - 1) = 0 ↔ rowdata.toNat.isPowerOfTwo := by
      rw [← Nat.and_sub_one_eq_zero_iff_isPowerOfTwo hne, ← hpred, ← BitVec.toNat_and]
      exact ⟨fun h => congrArg BitVec.toNat h, fun h => BitVec.eq_of_toNat_eq h⟩
    rw [Ne, hand, isPowerOfTwo_iff hne]
    simp only [BitVec.getLsbD]
    push Not
    constructor
    · rintro ⟨i, j, hi, hj, hij⟩
      exact ⟨i, j, hij, hi, hj⟩
    · rintro ⟨i, j, hij, hi, hj⟩
      exact ⟨i, j, hi, hj, hij⟩

end MoreThanOne

section Model

variable (l : Layout) (w : ℕ)

/-- The rows of a matrix, of `matrix_row_t` words. -/
abbrev Rows := Fin l.rows → BitVec w

/-- Whether `MATRIX_HAS_GHOST` is defined, and which keys are in the keymap. -/
structure Wiring where
  hasGhost : Bool
  realKey : Key l → Bool
  cols_le : l.cols ≤ w

variable {l w} (g : Wiring l w)

def getRealKeys (row : Fin l.rows) (rowdata : BitVec w) : BitVec w :=
  (List.finRange l.cols).foldl (fun out col =>
    if g.realKey (row, col) ∧ rowdata &&& bitMask w col ≠ 0 then out ||| bitMask w col else out) 0

def hasGhostInRow (matrix : Rows l w) (row : Fin l.rows) (rowdata : BitVec w) : Bool :=
  let rowdata := getRealKeys g row rowdata
  g.hasGhost && popcountMoreThanOne rowdata &&
    decide (∃ i, i ≠ row ∧ popcountMoreThanOne (getRealKeys g i (matrix i) &&& rowdata) = true)

/-- The rows that have been reported, and the events so far. -/
structure Scanner (l : Layout) (w : ℕ) where
  matrixPrevious : Rows l w := fun _ => 0
  events : List (Record l) := []

def rowEvents (row : Fin l.rows) (changes current : BitVec w) : List (Record l) :=
  let changed (col : Fin l.cols) := decide (changes &&& bitMask w col ≠ 0)
  ((List.finRange l.cols).filter changed).map fun col =>
    ⟨(row, col), 0, decide (current &&& bitMask w col ≠ 0)⟩

def scanRow (matrix : Rows l w) (s : Scanner l w) (row : Fin l.rows) : Scanner l w :=
  let current := matrix row
  let changes := current ^^^ s.matrixPrevious row
  if changes = 0 ∨ hasGhostInRow g matrix row current then s
  else
    { matrixPrevious := Function.update s.matrixPrevious row current
      events := s.events ++ rowEvents row changes current }

/-- What a scan of the matrix reads, and whether it can be read. -/
structure Scan (l : Layout) (w : ℕ) where
  matrix : Rows l w
  canRead : Bool := true

def matrixTask (s : Scanner l w) (scan : Scan l w) : Scanner l w :=
  if ¬ scan.canRead ∨ ∀ row, s.matrixPrevious row ^^^ scan.matrix row = 0 then s
  else (List.finRange l.rows).foldl (scanRow g scan.matrix) s

def runScans (scans : List (Scan l w)) : Scanner l w := scans.foldl (matrixTask g) {}

/-- The key is down in a matrix. -/
def keyBit (matrix : Rows l w) (key : Key l) : Bool := (matrix key.1).getLsbD key.2

/-- The row has two keys down whose columns another row shares, as real keys all four. -/
def InRectangle (matrix : Rows l w) (row : Fin l.rows) : Prop :=
  let down (key : Key l) := g.realKey key = true ∧ keyBit matrix key = true
  ∃ other c c', other ≠ row ∧ c ≠ c' ∧ down (row, c) ∧ down (row, c') ∧
    down (other, c) ∧ down (other, c')

instance (matrix : Rows l w) (row : Fin l.rows) : Decidable (InRectangle g matrix row) := by
  unfold InRectangle
  infer_instance

end Model

section Ghosts

variable {l : Layout} {w : ℕ} {g : Wiring l w} {matrix : Rows l w} {row : Fin l.rows}

theorem getLsbD_foldl_realKeys (cols : List (Fin l.cols)) (rowdata out : BitVec w) (j : ℕ) :
    (cols.foldl (fun out col =>
      if g.realKey (row, col) ∧ rowdata &&& bitMask w col ≠ 0 then out ||| bitMask w col
      else out) out).getLsbD j = true ↔ out.getLsbD j = true ∨
        ∃ col ∈ cols, col.val = j ∧ g.realKey (row, col) = true ∧ rowdata.getLsbD col = true := by
  induction cols generalizing out with
  | nil => simp
  | cons col cols ih =>
    have hlt : col.val < w := col.isLt.trans_le g.cols_le
    simp only [List.foldl_cons, ih, and_bitMask_ne_zero hlt]
    by_cases hreal : g.realKey (row, col) = true ∧ rowdata.getLsbD col = true
    · rw [if_pos hreal, BitVec.getLsbD_or, getLsbD_bitMask hlt, Bool.or_eq_true,
        decide_eq_true_eq, or_assoc]
      have hcol : j = col.val ↔ col.val = j := eq_comm
      simp only [List.mem_cons, exists_eq_or_imp, hreal, and_true, hcol]
    · rw [if_neg hreal]
      simp only [List.mem_cons, exists_eq_or_imp, hreal, and_false, false_or]

theorem getLsbD_getRealKeys (rowdata : BitVec w) (j : ℕ) :
    (getRealKeys g row rowdata).getLsbD j = true ↔
      ∃ col : Fin l.cols, col.val = j ∧ g.realKey (row, col) = true ∧
        rowdata.getLsbD col = true := by
  rw [getRealKeys, getLsbD_foldl_realKeys]
  simp

/-- A row is held back when two of its keys make a rectangle with those of another row. -/
theorem hasGhostInRow_iff : hasGhostInRow g matrix row (matrix row) = true ↔
    g.hasGhost = true ∧ InRectangle g matrix row := by
  have hshared : ∀ i j, (getRealKeys g i (matrix i) &&& getRealKeys g row (matrix row)).getLsbD j =
      true ↔ ∃ col : Fin l.cols, col.val = j ∧
        (g.realKey (row, col) = true ∧ keyBit matrix (row, col) = true) ∧
        g.realKey (i, col) = true ∧ keyBit matrix (i, col) = true := by
    intro i j
    rw [BitVec.getLsbD_and, Bool.and_eq_true, getLsbD_getRealKeys, getLsbD_getRealKeys]
    constructor
    · rintro ⟨⟨col, rfl, hreal, hbit⟩, col', hcol, hreal', hbit'⟩
      obtain rfl := Fin.ext hcol
      exact ⟨col', rfl, ⟨hreal', hbit'⟩, hreal, hbit⟩
    · rintro ⟨col, rfl, ⟨hreal', hbit'⟩, hreal, hbit⟩
      exact ⟨⟨col, rfl, hreal, hbit⟩, col, rfl, hreal', hbit'⟩
  rw [hasGhostInRow, Bool.and_eq_true, Bool.and_eq_true, decide_eq_true_eq, and_assoc]
  refine and_congr_right fun _ => ?_
  simp only [popcountMoreThanOne_iff, hshared]
  constructor
  · rintro ⟨-, other, hother, -, -, hne, ⟨c, rfl, hrow, hothers⟩, c', rfl, hrow', hothers'⟩
    refine ⟨other, c, c', hother, fun heq => hne (congrArg Fin.val heq), hrow, hrow', hothers,
      hothers'⟩
  · rintro ⟨other, c, c', hother, hne, hrow, hrow', hothers, hothers'⟩
    have hval : c.val ≠ c'.val := fun heq => hne (Fin.ext heq)
    refine ⟨⟨c, c', hval, ?_, ?_⟩, other, hother, c, c', hval, ⟨c, rfl, hrow, hothers⟩,
      c', rfl, hrow', hothers'⟩
    · exact (getLsbD_getRealKeys _ _).mpr ⟨c, rfl, hrow⟩
    · exact (getLsbD_getRealKeys _ _).mpr ⟨c', rfl, hrow'⟩

end Ghosts

section Scans

variable {l : Layout} {w : ℕ} {g : Wiring l w} {s : Scanner l w} {matrix : Rows l w}

theorem rowEvents_eq (g : Wiring l w) (row : Fin l.rows) :
    rowEvents row (matrix row ^^^ s.matrixPrevious row) (matrix row) =
      edges 0 ((List.finRange l.cols).map fun col => (row, col)) (keyBit s.matrixPrevious)
        (keyBit matrix) := by
  have hbit : ∀ (x : BitVec w) (col : Fin l.cols),
      decide (x &&& bitMask w col ≠ 0) = x.getLsbD col := by
    intro x col
    rw [Bool.eq_iff_iff, decide_eq_true_eq]
    exact and_bitMask_ne_zero (col.isLt.trans_le g.cols_le) x
  rw [rowEvents, edges, List.filter_map, List.map_map]
  refine congrArg₂ _ (funext fun col => ?_) (List.filter_congr fun col _ => ?_)
  · rw [hbit]
    rfl
  · rw [hbit, BitVec.getLsbD_xor]
    rfl

theorem reflects_scanRow (h : Reflects 0 (keyBit s.matrixPrevious) s.events) (row : Fin l.rows) :
    Reflects 0 (keyBit (scanRow g matrix s row).matrixPrevious)
      (scanRow g matrix s row).events := by
  unfold scanRow
  dsimp only
  split_ifs with hskip
  · exact h
  · have hnodup : ((List.finRange l.cols).map fun col => (row, col)).Nodup :=
      (List.nodup_finRange _).map fun _ _ heq => (Prod.mk.inj heq).2
    rw [rowEvents_eq g]
    refine (h.edges hnodup (keyBit matrix)).congr (funext fun key => ?_)
    obtain ⟨row', col⟩ := key
    by_cases hrow : row' = row
    · subst hrow
      simp [keyBit]
    · have hne : ¬ row = row' := fun heq => hrow heq.symm
      simp [keyBit, Function.update_of_ne hrow, hne]

theorem reflects_foldl (rows : List (Fin l.rows))
    (h : Reflects 0 (keyBit s.matrixPrevious) s.events) :
    Reflects 0 (keyBit (rows.foldl (scanRow g matrix) s).matrixPrevious)
      (rows.foldl (scanRow g matrix) s).events := by
  induction rows generalizing s with
  | nil => exact h
  | cons row rows ih => exact ih (reflects_scanRow h row)

theorem reflects_matrixTask (h : Reflects 0 (keyBit s.matrixPrevious) s.events) (scan : Scan l w) :
    Reflects 0 (keyBit (matrixTask g s scan).matrixPrevious) (matrixTask g s scan).events := by
  unfold matrixTask
  split_ifs
  · exact h
  · exact reflects_foldl _ h

theorem reflects_runScans (scans : List (Scan l w)) :
    Reflects 0 (keyBit (runScans g scans).matrixPrevious) (runScans g scans).events := by
  induction scans using List.reverseRecOn with
  | nil => exact reflects_nil.congr (funext fun _ => BitVec.getLsbD_zero)
  | append_singleton scans scan ih =>
    have hrun : runScans g (scans ++ [scan]) = matrixTask g (runScans g scans) scan := by
      simp [runScans]
    rw [hrun]
    exact reflects_matrixTask ih scan

theorem sweeps_scanRow (g : Wiring l w) (matrix : Rows l w) :
    Sweeps (scanRow g matrix) (fun s row => s.matrixPrevious row)
      (fun row previous => if g.hasGhost = true ∧ InRectangle g matrix row then previous
        else matrix row) where
  here s row := by
    unfold scanRow
    dsimp only
    by_cases hghost : hasGhostInRow g matrix row (matrix row) = true
    · rw [if_pos (.inr hghost), if_pos (hasGhostInRow_iff.mp hghost)]
    · rw [if_neg (mt hasGhostInRow_iff.mpr hghost)]
      split_ifs with hsame
      · rcases hsame with hsame | h
        · exact (BitVec.xor_eq_zero_iff.mp hsame).symm
        · exact absurd h hghost
      · exact Function.update_self ..
  elsewhere s row other hother := by
    unfold scanRow
    dsimp only
    split_ifs
    · rfl
    · exact Function.update_of_ne hother ..

theorem matrixPrevious_matrixTask (scan : Scan l w) (row : Fin l.rows) :
    (matrixTask g s scan).matrixPrevious row =
      if scan.canRead = true ∧ ¬ (g.hasGhost = true ∧ InRectangle g scan.matrix row) then
        scan.matrix row
      else s.matrixPrevious row := by
  unfold matrixTask
  by_cases hread : scan.canRead = true
  · by_cases hsame : ∀ row, s.matrixPrevious row ^^^ scan.matrix row = 0
    · rw [if_pos (.inr hsame)]
      split_ifs
      · exact BitVec.xor_eq_zero_iff.mp (hsame row)
      · rfl
    · rw [if_neg (not_or.mpr ⟨not_not.mpr hread, hsame⟩)]
      have hrow := (sweeps_scanRow g scan.matrix).foldl_of_mem (List.nodup_finRange l.rows)
        (List.mem_finRange row) s
      rw [hrow]
      simp only [hread, true_and]
      split_ifs <;> rfl
  · simp [hread]

/-- After any scans the events of each key alternate, and they leave down the keys that have been
reported. A scan reports every row as it is, unless it cannot be read or the row may have a ghost:
two of its keys make a rectangle with those of another row. -/
theorem runScans_reports (g : Wiring l w) (scans : List (Scan l w)) :
    Alternates (runScans g scans).events ∧
      (∀ key, (key, 0) ∈ held (runScans g scans).events ↔
        keyBit (runScans g scans).matrixPrevious key = true) ∧
      ∀ scan row, (runScans g (scans ++ [scan])).matrixPrevious row =
        if scan.canRead = true ∧ ¬ (g.hasGhost = true ∧ InRectangle g scan.matrix row) then
          scan.matrix row
        else (runScans g scans).matrixPrevious row := by
  have hreflects := reflects_runScans (g := g) scans
  refine ⟨hreflects.alternates, fun key => ?_, fun scan row => ?_⟩
  · rw [hreflects.mem]
    exact and_iff_right rfl
  · have hrun : runScans g (scans ++ [scan]) = matrixTask g (runScans g scans) scan := by
      simp [runScans]
    rw [hrun, matrixPrevious_matrixTask]

end Scans

section Typing

variable {l : Layout} {w : ℕ}

/-- What the main loop does: it scans the matrix, or another feature sets the layers. -/
inductive Work (km : Keymap l) (w : ℕ)
  | scan (scan : Scan l w)
  | setLayers (layers default : BitVec km.layers)

variable {km : Keymap l}

def actionExec (e : Record l) : List (Input km) :=
  (if e.pressed then [.pressEvent] else []) ++ [.record e]

structure Typing (km : Keymap l) (w : ℕ) where
  scanner : Scanner l w := {}
  inputs : List (Input km) := []

/-- `keyboard_task`, as far as keys and layers go. -/
def keyboardTask (g : Wiring l w) (s : Typing km w) : Work km w → Typing km w
  | .scan scan =>
    let scanner := matrixTask g s.scanner scan
    let events := scanner.events.drop s.scanner.events.length
    { scanner, inputs := s.inputs ++ events.flatMap actionExec }
  | .setLayers layers default => { s with inputs := s.inputs ++ [.setLayers layers default] }

def runWork (g : Wiring l w) (works : List (Work km w)) : Typing km w :=
  works.foldl (keyboardTask g) {}

variable {g : Wiring l w} {s : Scanner l w}

theorem events_prefix_matrixTask (scan : Scan l w) :
    s.events <+: (matrixTask g s scan).events := by
  have hrow : ∀ (t : Scanner l w) row, t.events <+: (scanRow g scan.matrix t row).events := by
    intro t row
    unfold scanRow
    dsimp only
    split_ifs
    · exact List.prefix_refl _
    · exact List.prefix_append ..
  have hrows : ∀ (rows : List (Fin l.rows)) (t : Scanner l w),
      t.events <+: (rows.foldl (scanRow g scan.matrix) t).events := by
    intro rows
    induction rows with
    | nil => exact fun t => List.prefix_refl _
    | cons row rows ih => exact fun t => (hrow t row).trans (ih _)
  unfold matrixTask
  split_ifs
  · exact List.prefix_refl _
  · exact hrows _ s

theorem records_flatMap_actionExec (events : List (Record l)) :
    records (events.flatMap actionExec : List (Input km)) = events := by
  induction events with
  | nil => rfl
  | cons e events ih =>
    have hone : records (actionExec e : List (Input km)) = [e] := by
      unfold actionExec
      split_ifs <;> rfl
    rw [List.flatMap_cons, records, List.filterMap_append]
    exact congrArg₂ (· ++ ·) hone ih

theorem records_runWork (works : List (Work km w)) :
    records (runWork g works).inputs = (runWork g works).scanner.events ∧
      Reflects 0 (keyBit (runWork g works).scanner.matrixPrevious)
        (runWork g works).scanner.events := by
  induction works using List.reverseRecOn with
  | nil => exact ⟨rfl, reflects_nil.congr (funext fun _ => BitVec.getLsbD_zero)⟩
  | append_singleton works work ih =>
    obtain ⟨hrecords, hreflects⟩ := ih
    have hrun : runWork g (works ++ [work]) = keyboardTask g (runWork g works) work := by
      simp [runWork]
    rw [hrun]
    cases work with
    | scan scan =>
      refine ⟨?_, reflects_matrixTask hreflects scan⟩
      obtain ⟨events, hevents⟩ := events_prefix_matrixTask (g := g)
        (s := (runWork g works).scanner) scan
      simp only [keyboardTask, ← hevents, List.drop_left, records, List.filterMap_append]
      exact congrArg₂ (· ++ ·) hrecords (records_flatMap_actionExec events)
    | setLayers layers default =>
      refine ⟨?_, hreflects⟩
      simp only [keyboardTask, records_append, Input.record?, Option.toList_none, List.append_nil,
        hrecords]

theorem mod_notMem_keptSince (hkm : km.noActionTapping = true) {f : Form}
    {inputs : List (Input km)} {bit : ℕ} : .mod bit ∉ keptSince f inputs := by
  rintro ⟨before, input, -, h, -⟩
  have htoggle : ∀ (pressed : Bool) (a : Action × ℕ) right,
      keptItems.toggleItems km.toConfig pressed a right = ∅ := by
    intro pressed a right
    unfold keptItems.toggleItems
    exact if_neg fun h => h.2.2.2 hkm
  cases input with
  | record r =>
    unfold Input.kept keptItems at h
    dsimp only at h
    split at h
    · exact absurd (htoggle _ _ _ ▸ h) (Set.notMem_empty _)
    · exact absurd (htoggle _ _ _ ▸ h) (Set.notMem_empty _)
    all_goals
      first
      | (unfold keptItems.toggledLayers at h; split_ifs at h <;> simp at h)
      | (split_ifs at h <;> simp [layerItems] at h)
      | simp at h
  | pressEvent => exact absurd h (Set.notMem_empty _)
  | setLayers layers default =>
    obtain ⟨layer, hlayer, -⟩ := h
    cases hlayer

theorem keyBit_runWork_idle {works : List (Work km w)} {scan : Scan l w}
    (hread : scan.canRead = true) (hidle : ∀ row, scan.matrix row = 0) (key : Key l) :
    keyBit (runWork g (works ++ [.scan scan])).scanner.matrixPrevious key = false := by
  have hrun : runWork g (works ++ [.scan scan]) =
      keyboardTask g (runWork g works) (.scan scan) := by
    simp [runWork]
  have hnot : ¬ InRectangle g scan.matrix key.1 := by
    rintro ⟨-, c, -, -, -, hdown, -⟩
    have hbit : keyBit scan.matrix (key.1, c) = false := by
      rw [keyBit, hidle]
      exact BitVec.getLsbD_zero
    exact Bool.false_ne_true (hbit.symm.trans hdown.2)
  have hrow : (keyboardTask g (runWork g works) (.scan scan)).scanner.matrixPrevious key.1 = 0 := by
    rw [keyboardTask, matrixPrevious_matrixTask, if_pos ⟨hread, fun h => hnot h.2⟩, hidle]
  rw [hrun, keyBit, hrow]
  exact BitVec.getLsbD_zero

/-- The two keys without tapping, and a shifted key that is still down when its layer goes. -/
def oneRow : Wiring oneByTwo 8 := ⟨true, fun _ => true, by decide⟩

end Typing

end Qmk.Keyboard
