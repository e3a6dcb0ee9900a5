import Qmk.Monitor
import Qmk.Sweep

/-! # The matrix of the Moonlander

`matrix_scan_custom` of `moonlander/matrix.c`. The left hand is read from pins, the right hand
through an `mcp23018`, one column after another; the columns are then turned into rows. After the
first transaction that fails the expander is left alone until it answers again.
-/

namespace Qmk.Moonlander

inductive Port | a | b
  deriving DecidableEq, Repr

inductive Transaction
  | ready (ok : Bool)
  | direction (port : Port) (conf : BitVec 8) (ok : Bool)
  | pullup (port : Port) (conf : BitVec 8) (ok : Bool)
  | output (confA confB : BitVec 8) (ok : Bool)
  | column (col : Fin 7) (ok : Bool) (rx : BitVec 8)
  deriving DecidableEq, Repr

/-- What one call finds: the pins of the left hand, `mcp23018_leds`, and the answers of the bus. A
read gives what is in `rx` afterwards, which is anything at all if it fails. -/
structure Inputs where
  pins : Fin 6 → Fin 7 → Bool
  leds : Fin 3 → Bool
  ready : Bool
  direction : Port → Bool
  pullup : Port → Bool
  setOutputAll : Fin 7 → Bool
  readPins : Fin 7 → Bool × BitVec 8

/-- `current_matrix` and the statics of `matrix.c`. -/
structure State where
  currentMatrix : Fin 12 → BitVec 8
  rawMatrixRight : Fin 7 → BitVec 8
  mcp23018ResetLoop : BitVec 16
  mcp23018Errors : BitVec 8

/-- The state in a call, with the result and the transactions so far. -/
structure Scan extends State where
  changed : Bool := false
  transactions : List Transaction := []

section Expander

/-- `mcp23018_errors += !ok` after a transaction. -/
def Scan.transact (t : Transaction) (ok : Bool) (s : Scan) : Scan :=
  { s with
    transactions := s.transactions ++ [t]
    mcp23018Errors := s.mcp23018Errors + if ok then 0 else 1 }

def setConfig (i : Inputs) (port : Port) (conf : BitVec 8) (s : Scan) : Scan :=
  let s := s.transact (.direction port conf (i.direction port)) (i.direction port)
  if i.direction port then s.transact (.pullup port conf (i.pullup port)) (i.pullup port) else s

def resetExpander (i : Inputs) (s : Scan) : Scan :=
  if s.mcp23018Errors ≠ 0 then
    let s := { s with mcp23018ResetLoop := s.mcp23018ResetLoop + 1 }
    if 0x1FFF < s.mcp23018ResetLoop then
      let s := { s with transactions := s.transactions ++ [.ready i.ready] }
      if i.ready then
        let s := { s with mcp23018ResetLoop := 0, mcp23018Errors := 0 }
        setConfig i .b 0b00111111 (setConfig i .a 0b00000000 s)
      else s
    else s
  else s

def ledBit (on : Bool) (bit : ℕ) : BitVec 8 := (if on then 0#8 else 1#8) <<< bit

/-- `mcp23018_set_output_all` for a row. -/
def selectRow (i : Inputs) (row : Fin 7) (s : Scan) : Scan :=
  if s.mcp23018Errors = 0 then
    let confA := 0b01111111 &&& ~~~bitMask 8 row ||| ledBit (i.leds 2) 7
    let confB := ledBit (i.leds 1) 6 ||| ledBit (i.leds 0) 7
    s.transact (.output confA confB (i.setOutputAll row)) (i.setOutputAll row)
  else s

end Expander

section Rows

def packBits (bits : Fin 7 → Bool) : BitVec 8 :=
  (List.finRange 7).foldl (fun data col => data ||| (if bits col then 1#8 else 0#8) <<< col.val) 0

def readLeft (i : Inputs) (row : Fin 7) (s : Scan) : Scan :=
  if h : row < 6 then
    let data := packBits (i.pins ⟨row, h⟩)
    if s.currentMatrix (row.castLE (by decide)) ≠ data then
      { s with
        currentMatrix := Function.update s.currentMatrix (row.castLE (by decide)) data
        changed := true }
    else s
  else s

def noKeys : BitVec 8 := 0b11000000

def columnData (rx : BitVec 8) : BitVec 8 := ~~~(rx &&& 0b00111111)

def storeRight (row : Fin 7) (data : BitVec 8) (s : Scan) : Scan :=
  if s.rawMatrixRight row ≠ data then
    { s with rawMatrixRight := Function.update s.rawMatrixRight row data, changed := true }
  else s

/-- A column of the right hand, through `mcp23018_read_pins`. -/
def readRight (i : Inputs) (row : Fin 7) (s : Scan) : Scan :=
  if s.mcp23018Errors = 0 then
    let rx := (i.readPins row).2
    storeRight row (columnData rx)
      (s.transact (.column row (i.readPins row).1 rx) (i.readPins row).1)
  else storeRight row noKeys s

def scanRow (i : Inputs) (s : Scan) (row : Fin 7) : Scan :=
  readRight i row (readLeft i row (selectRow i row s))

/-- The first `n` passes of the loop over the rows. -/
def scanRows (i : Inputs) (s : Scan) : ℕ → Scan
  | 0 => s
  | n + 1 => scanRow i (scanRows i s n) (Fin.ofNat 7 n)

def rightRow (row : Fin 6) : Fin 12 := ⟨11 - row, by omega⟩

def transposeRow (right : Fin 7 → BitVec 8) (row : Fin 6) : BitVec 8 :=
  packBits fun col => decide (right col.rev &&& bitMask 8 row ≠ 0)

def mergeRight (s : Scan) : Scan :=
  { s with
    currentMatrix := (List.finRange 6).foldl (fun m row =>
      Function.update m (rightRow row) (transposeRow s.rawMatrixRight row)) s.currentMatrix }

def matrixScanCustom (i : Inputs) (s : State) : Scan :=
  mergeRight (scanRows i (resetExpander i { toState := s }) 7)

/-- After `matrix_init`, which clears the matrix, with any number of errors. -/
def init (errors : BitVec 8) : State := ⟨fun _ => 0, fun _ => 0, 0, errors⟩

def run (s : State) (inputs : List Inputs) : State :=
  inputs.foldl (fun s i => (matrixScanCustom i s).toState) s

end Rows

section Specification

/-- A change is returned, and a key of the right hand that is shown pressed has been read in this
call. The expander reports a pressed key as a low pin. -/
structure ReportsOnlyRead (s : State) (i : Inputs) : Prop where
  changed : (matrixScanCustom i s).currentMatrix ≠ s.currentMatrix →
    (matrixScanCustom i s).changed = true
  pressed : ∀ (row : Fin 6) (col : Fin 7),
    ((matrixScanCustom i s).currentMatrix (rightRow row)).getLsbD col = true →
    ∃ rx, .column col.rev true rx ∈ (matrixScanCustom i s).transactions ∧ rx.getLsbD row = false

/-- The bus has not failed before row `n`. -/
def Alive (i : Inputs) (s : State) (n : ℕ) : Prop :=
  (resetExpander i { toState := s }).mcp23018Errors = 0 ∧
    ∀ row : Fin 7, row < n → i.setOutputAll row = true ∧ (i.readPins row).1 = true

/-- Column `col` is read. -/
def Reaches (i : Inputs) (s : State) (col : Fin 7) : Prop :=
  Alive i s col ∧ i.setOutputAll col = true

/-- The calls in which the read that fails, if one does, leaves no key pressed in `rx`. -/
def cleanFailures : Monitor Inputs State where
  next s i := (matrixScanCustom i s).toState
  ok s i := ∀ col, Reaches i s col → (i.readPins col).1 = false →
    (i.readPins col).2 &&& 0b00111111 = 0b00111111

end Specification

section Bits

theorem getLsbD_packBits (bits : Fin 7 → Bool) (col : Fin 7) :
    (packBits bits).getLsbD col = bits col := by
  have hsweep : Sweeps (fun (data : BitVec 8) (col : Fin 7) =>
      data ||| (if bits col then 1#8 else 0#8) <<< col.val)
      (fun data col => data.getLsbD col) (fun col b => b || bits col) := by
    constructor
    · intro data col
      cases hbit : bits col <;> simp
      omega
    · intro data col other hne
      have hval : other.val ≠ col.val := Fin.val_ne_of_ne hne
      cases hbit : bits col <;> simp
      omega
  have := hsweep.foldl_of_mem (List.nodup_finRange 7) (List.mem_finRange col) 0
  simpa [packBits] using this

theorem getLsbD_transposeRow (right : Fin 7 → BitVec 8) (row : Fin 6) (col : Fin 7) :
    (transposeRow right row).getLsbD col = (right col.rev).getLsbD row := by
  rw [transposeRow, getLsbD_packBits, Bool.eq_iff_iff, decide_eq_true_iff]
  exact and_bitMask_ne_zero (by omega) _

theorem getLsbD_noKeys (row : Fin 6) : noKeys.getLsbD row = false := by
  revert row
  decide

theorem getLsbD_sixBits (j : ℕ) : (0b00111111 : BitVec 8).getLsbD j = decide (j < 6) := by
  by_cases hj : j < 8
  · exact (by decide : ∀ j : Fin 8, (0b00111111 : BitVec 8).getLsbD j = decide (j.val < 6)) ⟨j, hj⟩
  · rw [BitVec.getLsbD_of_ge _ _ (by omega), decide_eq_false (by omega)]

theorem getLsbD_columnData (rx : BitVec 8) (row : Fin 6) :
    (columnData rx).getLsbD row = !rx.getLsbD row := by
  have hrow : row.val < 8 := by omega
  rw [columnData, BitVec.getLsbD_not, BitVec.getLsbD_and, getLsbD_sixBits]
  simp [hrow]

theorem and_sixBits_eq_iff (rx : BitVec 8) :
    rx &&& 0b00111111 = 0b00111111 ↔ ∀ row : Fin 6, rx.getLsbD row = true := by
  constructor
  · intro h row
    have hbit : (rx &&& 0b00111111).getLsbD row = (0b00111111 : BitVec 8).getLsbD row := by rw [h]
    rw [BitVec.getLsbD_and, getLsbD_sixBits] at hbit
    simpa using hbit
  · intro h
    apply BitVec.eq_of_getLsbD_eq
    intro j _
    rw [BitVec.getLsbD_and, getLsbD_sixBits]
    by_cases hlow : j < 6
    · simp [hlow, h ⟨j, hlow⟩]
    · simp [hlow]

end Bits

section Loop

variable {i : Inputs} {s : Scan}

theorem errors_transact (h : s.mcp23018Errors = 0) (t : Transaction) (ok : Bool) :
    (s.transact t ok).mcp23018Errors = 0 ↔ ok = true := by
  cases ok <;> simp [Scan.transact, h]

theorem errors_selectRow (row : Fin 7) : (selectRow i row s).mcp23018Errors = 0 ↔
    s.mcp23018Errors = 0 ∧ i.setOutputAll row = true := by
  unfold selectRow
  split_ifs with h
  · rw [errors_transact h]
    exact (and_iff_right h).symm
  · exact iff_of_false h (fun hboth => h hboth.1)

/-- What reading the left hand leaves alone. -/
structure SameRight (s t : Scan) : Prop where
  errors : t.mcp23018Errors = s.mcp23018Errors
  right : t.rawMatrixRight = s.rawMatrixRight
  transactions : t.transactions = s.transactions

theorem sameRight_readLeft (row : Fin 7) : SameRight s (readLeft i row s) := by
  unfold readLeft
  dsimp only
  split_ifs <;> exact ⟨rfl, rfl, rfl⟩

theorem right_storeRight (row : Fin 7) (data : BitVec 8) :
    (storeRight row data s).rawMatrixRight = Function.update s.rawMatrixRight row data := by
  unfold storeRight
  split_ifs with h
  · rfl
  · exact (Function.update_eq_self_iff.mpr (not_not.mp h).symm).symm

theorem errors_storeRight (row : Fin 7) (data : BitVec 8) :
    (storeRight row data s).mcp23018Errors = s.mcp23018Errors := by
  unfold storeRight
  split_ifs <;> rfl

theorem transactions_storeRight (row : Fin 7) (data : BitVec 8) :
    (storeRight row data s).transactions = s.transactions := by
  unfold storeRight
  split_ifs <;> rfl

theorem scanRow_read {row : Fin 7} (h : s.mcp23018Errors = 0)
    (hselect : i.setOutputAll row = true) :
    ((scanRow i s row).mcp23018Errors = 0 ↔ (i.readPins row).1 = true) ∧
    (scanRow i s row).rawMatrixRight =
      Function.update s.rawMatrixRight row (columnData (i.readPins row).2) ∧
    ∃ confA confB, (scanRow i s row).transactions = s.transactions ++
      [.output confA confB true, .column row (i.readPins row).1 (i.readPins row).2] := by
  have hleft := sameRight_readLeft (i := i) (s := selectRow i row s) row
  have halive : (readLeft i row (selectRow i row s)).mcp23018Errors = 0 :=
    hleft.errors.trans (errors_selectRow row |>.mpr ⟨h, hselect⟩)
  rw [scanRow, readRight, if_pos halive]
  refine ⟨?_, ?_, ?_⟩
  · rw [errors_storeRight, errors_transact halive]
  · rw [right_storeRight, Scan.transact, hleft.right, selectRow, if_pos h]
    rfl
  · rw [transactions_storeRight, Scan.transact, hleft.transactions, selectRow, if_pos h, hselect]
    exact ⟨_, _, List.append_assoc _ _ _⟩

theorem scanRow_failed {row : Fin 7} (h : ¬ (s.mcp23018Errors = 0 ∧ i.setOutputAll row = true)) :
    (scanRow i s row).mcp23018Errors ≠ 0 ∧
    (scanRow i s row).rawMatrixRight = Function.update s.rawMatrixRight row noKeys ∧
    ∃ ts, (scanRow i s row).transactions = s.transactions ++ ts ∧
      ∀ col ok rx, .column col ok rx ∉ ts := by
  have hleft := sameRight_readLeft (i := i) (s := selectRow i row s) row
  have hfailed : (readLeft i row (selectRow i row s)).mcp23018Errors ≠ 0 := by
    rw [hleft.errors]
    exact fun hzero => h (errors_selectRow row |>.mp hzero)
  rw [scanRow, readRight, if_neg hfailed]
  refine ⟨?_, ?_, ?_⟩
  · rwa [errors_storeRight]
  · rw [right_storeRight, hleft.right, selectRow]
    split_ifs <;> rfl
  · rw [transactions_storeRight, hleft.transactions, selectRow]
    split_ifs
    · exact ⟨_, rfl, by simp⟩
    · exact ⟨[], by simp, by simp⟩

end Loop

section Call

variable {i : Inputs} {s : State}

theorem alive_succ (row : Fin 7) : Alive i s (row + 1) ↔
    Alive i s row ∧ i.setOutputAll row = true ∧ (i.readPins row).1 = true := by
  constructor
  · rintro ⟨herrors, hall⟩
    exact ⟨⟨herrors, fun r hr => hall r (by omega)⟩, hall row (by omega)⟩
  · rintro ⟨⟨herrors, hall⟩, hrow⟩
    refine ⟨herrors, fun r hr => ?_⟩
    rcases Nat.lt_succ_iff_lt_or_eq.mp hr with hr | hr
    · exact hall r hr
    · rwa [Fin.ext hr]

theorem no_column_resetExpander (col : Fin 7) (ok : Bool) (rx : BitVec 8) :
    .column col ok rx ∉ (resetExpander i { toState := s }).transactions := by
  unfold resetExpander setConfig Scan.transact
  dsimp only
  split_ifs <;> simp

/-- After the first `n` passes. -/
structure Upto (i : Inputs) (s : State) (n : ℕ) (t : Scan) : Prop where
  errors : t.mcp23018Errors = 0 ↔ Alive i s n
  read : ∀ col : Fin 7, col < n → Reaches i s col →
    t.rawMatrixRight col = columnData (i.readPins col).2
  unread : ∀ col : Fin 7, col < n → ¬ Reaches i s col → t.rawMatrixRight col = noKeys
  transactions : ∀ (col : Fin 7) ok rx, .column col ok rx ∈ t.transactions ↔
    col < n ∧ Reaches i s col ∧ i.readPins col = (ok, rx)

theorem Upto.scanRow {row : Fin 7} {t : Scan} (h : Upto i s row t) :
    Upto i s (row + 1) (scanRow i t row) := by
  have hearlier {col : Fin 7} (hcol : col.val < row + 1) (hne : col ≠ row) : col.val < row :=
    lt_of_le_of_ne (Nat.lt_succ_iff.mp hcol) (Fin.val_ne_of_ne hne)
  by_cases hreach : t.mcp23018Errors = 0 ∧ i.setOutputAll row = true
  · obtain ⟨herrors, hright, confA, confB, htransactions⟩ := scanRow_read hreach.1 hreach.2
    have hrow : Reaches i s row := ⟨h.errors.mp hreach.1, hreach.2⟩
    refine ⟨?_, ?_, ?_, ?_⟩
    · rw [herrors, alive_succ, and_iff_right hrow.1, and_iff_right hrow.2]
    · intro col hcol hcolumn
      rw [hright]
      by_cases hne : col = row
      · rw [hne, Function.update_self]
      · rw [Function.update_of_ne hne]
        exact h.read col (hearlier hcol hne) hcolumn
    · intro col hcol hcolumn
      have hne : col ≠ row := fun heq => hcolumn (heq ▸ hrow)
      rw [hright, Function.update_of_ne hne]
      exact h.unread col (hearlier hcol hne) hcolumn
    · intro col ok rx
      rw [htransactions, List.mem_append, h.transactions]
      constructor
      · rintro (⟨hlt, hcolumn, heq⟩ | hnew)
        · exact ⟨by omega, hcolumn, heq⟩
        · obtain ⟨rfl, rfl, rfl⟩ : col = row ∧ ok = (i.readPins row).1 ∧ rx = (i.readPins row).2 :=
            by simpa using hnew
          exact ⟨Nat.lt_succ_self _, hrow, rfl⟩
      · rintro ⟨hlt, hcolumn, heq⟩
        by_cases hne : col = row
        · subst hne
          simp [heq]
        · exact Or.inl ⟨hearlier hlt hne, hcolumn, heq⟩
  · obtain ⟨herrors, hright, ts, htransactions, hnone⟩ := scanRow_failed hreach
    have hrow : ¬ Reaches i s row := fun hrow => hreach ⟨h.errors.mpr hrow.1, hrow.2⟩
    refine ⟨?_, ?_, ?_, ?_⟩
    · rw [alive_succ]
      exact iff_of_false herrors fun halive => hrow ⟨halive.1, halive.2.1⟩
    · intro col hcol hcolumn
      have hne : col ≠ row := fun heq => hrow (heq ▸ hcolumn)
      rw [hright, Function.update_of_ne hne]
      exact h.read col (hearlier hcol hne) hcolumn
    · intro col hcol hcolumn
      rw [hright]
      by_cases hne : col = row
      · rw [hne, Function.update_self]
      · rw [Function.update_of_ne hne]
        exact h.unread col (hearlier hcol hne) hcolumn
    · intro col ok rx
      rw [htransactions, List.mem_append, h.transactions, or_iff_left (hnone col ok rx)]
      constructor
      · rintro ⟨hlt, hcolumn, heq⟩
        exact ⟨by omega, hcolumn, heq⟩
      · rintro ⟨hlt, hcolumn, heq⟩
        have hne : col ≠ row := fun heq => hrow (heq ▸ hcolumn)
        exact ⟨hearlier hlt hne, hcolumn, heq⟩

theorem upto_scanRows {n : ℕ} (hn : n ≤ 7) :
    Upto i s n (scanRows i (resetExpander i { toState := s }) n) := by
  induction n with
  | zero =>
    refine ⟨?_, by simp, by simp, ?_⟩
    · simp [scanRows, Alive]
    · intro col ok rx
      exact iff_of_false (no_column_resetExpander col ok rx) (by simp)
  | succ n ih =>
    have hrow : (Fin.ofNat 7 n).val = n := Nat.mod_eq_of_lt hn
    have h := ih (by omega)
    rw [← hrow] at h
    rw [scanRows]
    simpa only [hrow] using h.scanRow

end Call

section Merge

variable {s : Scan}

theorem sweeps_mergeRight (right : Fin 7 → BitVec 8) :
    Sweeps (fun m row => Function.update m (rightRow row) (transposeRow right row))
      (fun (m : Fin 12 → BitVec 8) row => m (rightRow row))
      (fun row _ => transposeRow right row) := by
  constructor
  · intro m row
    exact Function.update_self _ _ _
  · intro m row other hne
    apply Function.update_of_ne
    simp only [rightRow, ne_eq, Fin.mk.injEq]
    omega

theorem mergeRight_rightRow (row : Fin 6) :
    (mergeRight s).currentMatrix (rightRow row) = transposeRow s.rawMatrixRight row :=
  (sweeps_mergeRight _).foldl_of_mem (List.nodup_finRange 6) (List.mem_finRange row) _

theorem mergeRight_left {row : Fin 12} (h : row.val < 6) :
    (mergeRight s).currentMatrix row = s.currentMatrix row := by
  refine foldl_keeps (p := fun (m : Fin 12 → BitVec 8) => m row) ?_ _ _
  intro m other
  apply Function.update_of_ne
  simp only [rightRow, ne_eq, Fin.ext_iff]
  omega

theorem eq_rightRow {row : Fin 12} (h : ¬ row.val < 6) : ∃ r, row = rightRow r :=
  ⟨⟨11 - row, by omega⟩, Fin.ext (by simp only [rightRow]; omega)⟩

end Merge

section Changes

variable {i : Inputs}

/-- As long as no change is returned the matrices are as they were. -/
structure Unchanged (s : State) (t : Scan) : Prop where
  currentMatrix : t.changed = false → t.currentMatrix = s.currentMatrix
  right : t.changed = false → t.rawMatrixRight = s.rawMatrixRight

theorem Unchanged.congr {s : State} {t t' : Scan} (h : Unchanged s t)
    (hchanged : t'.changed = t.changed) (hmatrix : t'.currentMatrix = t.currentMatrix)
    (hright : t'.rawMatrixRight = t.rawMatrixRight) : Unchanged s t' := by
  constructor
  · rw [hchanged, hmatrix]
    exact h.currentMatrix
  · rw [hchanged, hright]
    exact h.right

theorem Unchanged.selectRow {s : State} {t : Scan} (h : Unchanged s t) (row : Fin 7) :
    Unchanged s (selectRow i row t) := by
  unfold Moonlander.selectRow
  split_ifs
  · exact h.congr rfl rfl rfl
  · exact h

theorem Unchanged.readLeft {s : State} {t : Scan} (h : Unchanged s t) (row : Fin 7) :
    Unchanged s (readLeft i row t) := by
  unfold Moonlander.readLeft
  dsimp only
  split_ifs
  · exact ⟨by simp, by simp⟩
  · exact h
  · exact h

theorem Unchanged.storeRight {s : State} {t : Scan} (h : Unchanged s t) (row : Fin 7)
    (data : BitVec 8) : Unchanged s (storeRight row data t) := by
  unfold Moonlander.storeRight
  split_ifs
  · exact ⟨by simp, by simp⟩
  · exact h

theorem Unchanged.readRight {s : State} {t : Scan} (h : Unchanged s t) (row : Fin 7) :
    Unchanged s (readRight i row t) := by
  unfold Moonlander.readRight
  dsimp only
  split_ifs
  · apply Unchanged.storeRight
    exact h.congr rfl rfl rfl
  · exact h.storeRight row _

theorem unchanged_resetExpander (s : State) :
    Unchanged s (resetExpander i { toState := s }) := by
  unfold resetExpander setConfig Scan.transact
  dsimp only
  split_ifs <;> exact ⟨fun _ => rfl, fun _ => rfl⟩

theorem unchanged_scanRows (s : State) (n : ℕ) :
    Unchanged s (scanRows i (resetExpander i { toState := s }) n) := by
  induction n with
  | zero => exact unchanged_resetExpander s
  | succ n ih => exact ((ih.selectRow _).readLeft _).readRight _

/-- The rows of the right hand are those of the columns that have been read last. -/
def Shown (s : State) : Prop := ∀ row, s.currentMatrix (rightRow row) =
  transposeRow s.rawMatrixRight row

theorem shown_init (errors : BitVec 8) : Shown (init errors) := by
  intro row
  change 0 = transposeRow (fun _ => 0) row
  revert row
  decide

theorem shown_mergeRight (s : Scan) : Shown (mergeRight s).toState := fun row =>
  mergeRight_rightRow row

theorem shown_matrixScanCustom (i : Inputs) (s : State) : Shown (matrixScanCustom i s).toState :=
  shown_mergeRight _

theorem changed_mergeRight {s : State} (h : Shown s) {t : Scan} (ht : Unchanged s t)
    (hchanged : (mergeRight t).changed = false) :
    (mergeRight t).currentMatrix = s.currentMatrix := by
  ext1 row
  by_cases hleft : row.val < 6
  · rw [mergeRight_left hleft, ht.currentMatrix hchanged]
  · obtain ⟨r, rfl⟩ := eq_rightRow hleft
    rw [mergeRight_rightRow, ht.right hchanged, h r]

end Changes

section Runs

variable {s : State} {i : Inputs}

theorem exists_scan (i : Inputs) (s : State) :
    ∃ t, matrixScanCustom i s = mergeRight t ∧ Upto i s 7 t ∧ Unchanged s t :=
  ⟨_, rfl, upto_scanRows le_rfl, unchanged_scanRows s 7⟩

theorem reportsOnlyRead_iff (h : Shown s) : ReportsOnlyRead s i ↔ cleanFailures.ok s i := by
  obtain ⟨t, hscan, hupto, hunchanged⟩ := exists_scan i s
  have hshown (row : Fin 6) (col : Fin 7) :
      ((matrixScanCustom i s).currentMatrix (rightRow row)).getLsbD col =
        (t.rawMatrixRight col.rev).getLsbD row := by
    rw [hscan, mergeRight_rightRow, getLsbD_transposeRow]
  have htransactions : (matrixScanCustom i s).transactions = t.transactions := by
    rw [hscan, mergeRight]
  constructor
  · intro hreports col hreach hfailed
    rw [and_sixBits_eq_iff]
    intro row
    by_contra hlow
    have hpressed := hshown row col.rev
    rw [Fin.rev_rev, hupto.read col col.isLt hreach, getLsbD_columnData, eq_false_of_ne_true hlow]
      at hpressed
    obtain ⟨rx, hread, -⟩ := hreports.pressed row col.rev hpressed
    rw [Fin.rev_rev, htransactions] at hread
    obtain ⟨-, -, heq⟩ := (hupto.transactions col true rx).mp hread
    rw [heq] at hfailed
    exact Bool.noConfusion hfailed
  · intro hclean
    refine ⟨?_, ?_⟩
    · intro hne
      by_contra hchanged
      rw [hscan] at hne hchanged
      exact hne (changed_mergeRight h hunchanged (eq_false_of_ne_true hchanged))
    · intro row col hpressed
      rw [hshown] at hpressed
      rw [htransactions]
      by_cases hreach : Reaches i s col.rev
      · rw [hupto.read _ (Fin.isLt _) hreach, getLsbD_columnData, Bool.not_eq_true'] at hpressed
        cases hok : (i.readPins col.rev).1 with
        | false =>
          have hhigh := (and_sixBits_eq_iff _).mp (hclean _ hreach hok) row
          exact absurd (hpressed.symm.trans hhigh) (by decide)
        | true =>
          refine ⟨_, (hupto.transactions _ _ _).mpr ⟨Fin.isLt _, hreach, ?_⟩, hpressed⟩
          rw [← hok]
      · rw [hupto.unread _ (Fin.isLt _) hreach, getLsbD_noKeys] at hpressed
        exact absurd hpressed (by decide)

theorem shown_run (h : Shown s) (inputs : List Inputs) : Shown (run s inputs) := by
  induction inputs generalizing s with
  | nil => exact h
  | cons i inputs ih => exact ih (shown_matrixScanCustom i s)

/-- Exactly a read that fails and leaves a pressed key in `rx` makes a call report what it has not
read. -/
theorem run_reportsOnlyRead_iff (errors : BitVec 8) (inputs : List Inputs) :
    (∀ pre i post, inputs = pre ++ i :: post → ReportsOnlyRead (run (init errors) pre) i) ↔
      cleanFailures.Accepts (init errors) inputs := by
  apply Monitor.accepts_iff_events (M := cleanFailures) (P := ReportsOnlyRead)
  rintro pre i post -
  exact reportsOnlyRead_iff (shown_run (shown_init errors) pre)

/-- The read of the first column fails and leaves `rx` at zero. -/
def failedRead : Inputs where
  pins _ _ := false
  leds _ := false
  ready := true
  direction _ := true
  pullup _ := true
  setOutputAll _ := true
  readPins col := if col = 0 then (false, 0) else (true, 0b11111111)

theorem failedRead_not_reportsOnlyRead :
    ¬ ∀ pre i post, [failedRead] = pre ++ i :: post → ReportsOnlyRead (run (init 0) pre) i := by
  intro h
  have hclean := (reportsOnlyRead_iff (shown_init 0)).mp (h [] failedRead [] rfl)
  have hread : Reaches failedRead (init 0) 0 := ⟨⟨rfl, fun row hrow => absurd hrow (by simp)⟩, rfl⟩
  exact absurd (hclean 0 hread rfl) (by decide)

end Runs

end Qmk.Moonlander
