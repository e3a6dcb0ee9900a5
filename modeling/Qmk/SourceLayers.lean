import Mathlib.Data.List.FinRange
import Mathlib.Data.List.Induction
import Mathlib.Data.Nat.Bitwise
import Mathlib.Logic.Function.Basic
import Mathlib.Tactic.IntervalCases
import Qmk.Sweep

/-! # The source layer caches

The caches of `action_layer.c`, in which the layer of a press is kept for the release. The layer of
an entry is kept in one bit of each of the bytes that eight entries share, a byte for each bit of a
layer.
-/

namespace Qmk.SourceLayers

section Model

/-- A cache for `n` entries and layers of `bits` bits, `MAX_LAYER_BITS` in the source. -/
abbrev Cache (n bits : ℕ) := Fin ((n + 7) / 8) → Fin bits → BitVec 8

variable {n bits : ℕ}

def storageIdx (entryNumber : Fin n) : Fin ((n + 7) / 8) :=
  ⟨entryNumber / 8, by omega⟩

def storageBit (entryNumber : Fin n) : ℕ := entryNumber % 8

/-- One turn of the loop in `update_source_layers_cache_impl`. -/
def updateBit (layer : BitVec 8) (entryNumber : Fin n) (cache : Cache n bits)
    (bitNumber : Fin bits) : Cache n bits :=
  let bytes := cache (storageIdx entryNumber)
  let set : BitVec 8 := if layer.setWidth 32 &&& bitMask 32 bitNumber ≠ 0 then 1 else 0
  let byte := bytes bitNumber
  let byte := byte ^^^ ((-set ^^^ byte) &&& bitMask 8 (storageBit entryNumber))
  Function.update cache (storageIdx entryNumber) (Function.update bytes bitNumber byte)

def updateSourceLayersCacheImpl (layer : BitVec 8) (entryNumber : Fin n) (cache : Cache n bits) :
    Cache n bits :=
  (List.finRange bits).foldl (updateBit layer entryNumber) cache

/-- One turn of the loop in `read_source_layers_cache_impl`. -/
def readBit (entryNumber : Fin n) (cache : Cache n bits) (layer : BitVec 8) (bitNumber : Fin bits) :
    BitVec 8 :=
  let byte := cache (storageIdx entryNumber) bitNumber
  let set := if byte &&& bitMask 8 (storageBit entryNumber) ≠ 0 then 1 else 0
  layer ||| BitVec.ofNat 8 (set <<< bitNumber.val)

def readSourceLayersCacheImpl (entryNumber : Fin n) (cache : Cache n bits) : BitVec 8 :=
  (List.finRange bits).foldl (readBit entryNumber cache) 0

end Model

section Bits

variable {n bits : ℕ} {entryNumber : Fin n} {layer : BitVec 8} {cache : Cache n bits}

theorem storageBit_lt : storageBit entryNumber < 8 := Nat.mod_lt _ (by decide)

theorem entry_ext {other : Fin n} (hidx : storageIdx other = storageIdx entryNumber) :
    storageBit other = storageBit entryNumber ↔ other = entryNumber := by
  have hdiv : other.val / 8 = entryNumber.val / 8 := congrArg Fin.val hidx
  unfold storageBit
  constructor
  · intro hmod
    exact Fin.ext (by omega)
  · rintro rfl
    rfl

def bitOf (cache : Cache n bits) (entryNumber : Fin n) (bitNumber : Fin bits) : Bool :=
  (cache (storageIdx entryNumber) bitNumber).getLsbD (storageBit entryNumber)

theorem layer_bit (bitNumber : ℕ) :
    layer.setWidth 32 &&& bitMask 32 bitNumber ≠ 0 ↔ layer.getLsbD bitNumber = true := by
  by_cases h : bitNumber < 32
  · rw [and_bitMask_ne_zero h, BitVec.getLsbD_setWidth]
    simp [h]
  · rw [bitMask, BitVec.shiftLeft_eq_zero (by omega), BitVec.getLsbD_of_ge _ _ (by omega)]
    simp

theorem getLsbD_masked (x : BitVec 8) {on : Prop} [Decidable on] {p : Bool} (hon : on ↔ p = true)
    {b j : ℕ} (hb : b < 8) :
    (x ^^^ ((-(if on then 1 else 0 : BitVec 8) ^^^ x) &&& bitMask 8 b)).getLsbD j =
      if j = b then p else x.getLsbD j := by
  have hneg : (-(if on then 1 else 0 : BitVec 8)).getLsbD j = (p && decide (j < 8)) := by
    cases p with
    | true =>
      rw [if_pos (hon.mpr rfl), Bool.true_and]
      exact (congrArg (BitVec.getLsbD · j) BitVec.neg_one_eq_allOnes).trans BitVec.getLsbD_allOnes
    | false =>
      rw [if_neg (by simp [hon]), Bool.false_and]
      exact BitVec.getLsbD_zero
  rw [BitVec.getLsbD_xor, BitVec.getLsbD_and, BitVec.getLsbD_xor, hneg, getLsbD_bitMask hb]
  by_cases hj : j = b
  · subst hj
    rw [decide_eq_true hb, decide_eq_true rfl, Bool.and_true, Bool.and_true, if_pos rfl]
    cases x.getLsbD j <;> simp
  · rw [decide_eq_false hj, if_neg hj, Bool.and_false, Bool.xor_false]

theorem bitOf_updateBit (other : Fin n) (bitNumber b : Fin bits) :
    bitOf (updateBit layer entryNumber cache bitNumber) other b =
      if other = entryNumber ∧ b = bitNumber then layer.getLsbD b else bitOf cache other b := by
  unfold bitOf updateBit
  by_cases hidx : storageIdx other = storageIdx entryNumber
  · by_cases hbit : b = bitNumber
    · subst hbit
      rw [hidx, Function.update_self, Function.update_self,
        getLsbD_masked _ (layer_bit b.val) storageBit_lt]
      simp only [entry_ext hidx, and_true]
    · rw [hidx, Function.update_self, Function.update_of_ne hbit]
      simp only [hbit, and_false, if_false]
  · have hentry : other ≠ entryNumber := fun h => hidx (congrArg storageIdx h)
    rw [Function.update_of_ne hidx]
    simp only [hentry, false_and, if_false]

theorem bitOf_foldl (bitNumbers : List (Fin bits)) (other : Fin n) (b : Fin bits) :
    bitOf (bitNumbers.foldl (updateBit layer entryNumber) cache) other b =
      if other = entryNumber ∧ b ∈ bitNumbers then layer.getLsbD b else bitOf cache other b := by
  induction bitNumbers generalizing cache with
  | nil => simp
  | cons bitNumber bitNumbers ih =>
    rw [List.foldl_cons, ih, bitOf_updateBit]
    simp only [List.mem_cons]
    by_cases hother : other = entryNumber
    · by_cases hmem : b ∈ bitNumbers <;> simp [hother, hmem]
    · simp [hother]

theorem bitOf_update (other : Fin n) (b : Fin bits) :
    bitOf (updateSourceLayersCacheImpl layer entryNumber cache) other b =
      if other = entryNumber then layer.getLsbD b else bitOf cache other b := by
  rw [updateSourceLayersCacheImpl, bitOf_foldl]
  simp only [List.mem_finRange, and_true]

theorem getLsbD_readBit (b : Fin bits) (j : ℕ) :
    (readBit entryNumber cache layer b).getLsbD j =
      (layer.getLsbD j || decide (j < 8 ∧ b.val = j ∧ bitOf cache entryNumber b = true)) := by
  have hbit : bitOf cache entryNumber b = true ↔
      cache (storageIdx entryNumber) b &&& bitMask 8 (storageBit entryNumber) ≠ 0 :=
    (and_bitMask_ne_zero storageBit_lt _).symm
  have hset : ∀ set, set ≤ 1 → (BitVec.ofNat 8 (set <<< b.val)).getLsbD j =
      decide (j < 8 ∧ b.val = j ∧ set = 1) := by
    intro set hset
    rw [BitVec.getLsbD_ofNat]
    interval_cases set
    · simp
    · rw [Nat.one_shiftLeft, Nat.testBit_two_pow]
      simp
  unfold readBit
  rw [BitVec.getLsbD_or, hset _ (by split_ifs <;> omega)]
  by_cases h : bitOf cache entryNumber b = true
  · rw [if_pos (hbit.mp h)]
    simp [h]
  · rw [if_neg (mt hbit.mpr h)]
    simp [h]

theorem getLsbD_foldl_readBit (bitNumbers : List (Fin bits)) (j : ℕ) :
    (bitNumbers.foldl (readBit entryNumber cache) layer).getLsbD j =
      (layer.getLsbD j || decide (j < 8 ∧ ∃ b ∈ bitNumbers, b.val = j ∧
        bitOf cache entryNumber b = true)) := by
  induction bitNumbers generalizing layer with
  | nil => simp
  | cons bitNumber bitNumbers ih =>
    rw [List.foldl_cons, ih, getLsbD_readBit, Bool.or_assoc, ← Bool.decide_or]
    simp only [List.mem_cons, exists_eq_or_imp, and_or_left]

theorem getLsbD_read (j : ℕ) : (readSourceLayersCacheImpl entryNumber cache).getLsbD j =
    decide (j < 8 ∧ ∃ b : Fin bits, b.val = j ∧ bitOf cache entryNumber b = true) := by
  rw [readSourceLayersCacheImpl, getLsbD_foldl_readBit]
  simp

end Bits

section Updates

variable {n bits : ℕ} {entryNumber : Fin n} {layer : BitVec 8} {cache : Cache n bits}

theorem read_update_of_ne {other : Fin n} (h : other ≠ entryNumber) :
    readSourceLayersCacheImpl other (updateSourceLayersCacheImpl layer entryNumber cache) =
      readSourceLayersCacheImpl other cache := by
  refine BitVec.eq_of_getLsbD_eq fun j _ => ?_
  simp only [getLsbD_read, bitOf_update, h, if_false]

theorem read_update_self : (readSourceLayersCacheImpl entryNumber
    (updateSourceLayersCacheImpl layer entryNumber cache)).toNat = layer.toNat % 2 ^ bits := by
  refine Nat.eq_of_testBit_eq fun j => ?_
  rw [← BitVec.getLsbD, getLsbD_read, Nat.testBit_mod_two_pow, ← BitVec.getLsbD]
  simp only [bitOf_update, if_true]
  by_cases hset : layer.getLsbD j = true
  · have hlt : j < 8 := BitVec.lt_of_getLsbD hset
    rw [hset, Bool.and_true, decide_eq_decide]
    constructor
    · rintro ⟨-, b, rfl, -⟩
      exact b.isLt
    · intro hj
      exact ⟨hlt, ⟨j, hj⟩, rfl, hset⟩
  · rw [Bool.eq_false_iff.mpr hset, Bool.and_false, decide_eq_false]
    rintro ⟨-, b, rfl, hb⟩
    exact hset hb

end Updates

section Runs

/-- A call of `update_source_layers_cache_impl`. -/
structure Update (n : ℕ) where
  layer : BitVec 8
  entryNumber : Fin n

variable {n bits : ℕ}

def run (updates : List (Update n)) : Cache n bits :=
  updates.foldl (fun cache u => updateSourceLayersCacheImpl u.layer u.entryNumber cache)
    fun _ _ => 0

/-- The layer of the last update of an entry, 0 if there is none. -/
def lastLayer (updates : List (Update n)) (entryNumber : Fin n) : BitVec 8 :=
  ((updates.filter (·.entryNumber = entryNumber)).getLast?).elim 0 (·.layer)

variable {updates : List (Update n)} {u : Update n} {entryNumber : Fin n}

theorem run_append : (run (updates ++ [u]) : Cache n bits) =
    updateSourceLayersCacheImpl u.layer u.entryNumber (run updates) := by
  simp [run]

theorem lastLayer_append : lastLayer (updates ++ [u]) entryNumber =
    if u.entryNumber = entryNumber then u.layer else lastLayer updates entryNumber := by
  unfold lastLayer
  rw [List.filter_append]
  by_cases h : u.entryNumber = entryNumber <;> simp [h]

theorem read_empty :
    readSourceLayersCacheImpl entryNumber (run [] : Cache n bits) = 0 := by
  refine BitVec.eq_of_getLsbD_eq fun j _ => ?_
  have hbit : ∀ b, bitOf (run [] : Cache n bits) entryNumber b = false := fun _ =>
    BitVec.getLsbD_zero
  rw [getLsbD_read]
  simp [hbit]

/-- After any updates an entry has the layer of its last update, and an update changes no other
entry. -/
theorem read_lastLayer (n bits : ℕ) (updates : List (Update n)) (entryNumber : Fin n) :
    (readSourceLayersCacheImpl entryNumber (run updates : Cache n bits)).toNat =
        (lastLayer updates entryNumber).toNat % 2 ^ bits ∧
      ∀ (cache : Cache n bits) (u : Update n), entryNumber ≠ u.entryNumber →
        readSourceLayersCacheImpl entryNumber
            (updateSourceLayersCacheImpl u.layer u.entryNumber cache) =
          readSourceLayersCacheImpl entryNumber cache := by
  refine ⟨?_, fun _ _ h => read_update_of_ne h⟩
  induction updates using List.reverseRecOn with
  | nil =>
    rw [read_empty]
    exact (Nat.zero_mod _).symm
  | append_singleton updates u ih =>
    rw [run_append, lastLayer_append]
    by_cases h : u.entryNumber = entryNumber
    · subst h
      rw [if_pos rfl, read_update_self]
    · rw [if_neg h, read_update_of_ne (Ne.symm h), ih]

/-- The ninth entry has a byte of its own. -/
theorem read_lastLayer_ninth :
    (readSourceLayersCacheImpl (8 : Fin 9) (run [⟨19, 8⟩, ⟨2, 0⟩] : Cache 9 4)).toNat = 3 ∧
      readSourceLayersCacheImpl (8 : Fin 9)
          (updateSourceLayersCacheImpl 5 0 (fun _ _ => 0xFF : Cache 9 4)) =
        readSourceLayersCacheImpl (8 : Fin 9) (fun _ _ => 0xFF : Cache 9 4) := by
  obtain ⟨hread, hother⟩ := read_lastLayer 9 4 [⟨19, 8⟩, ⟨2, 0⟩] 8
  exact ⟨hread.trans (by decide), hother _ ⟨5, 0⟩ (by decide)⟩

end Runs

section Positions

def KEYLOC_ENCODER_CW : ℕ := 253

def KEYLOC_ENCODER_CCW : ℕ := 252

/-- `MATRIX_ROWS`, `MATRIX_COLS`, `NUM_ENCODERS`, and whether `ENCODER_MAP_ENABLE` is defined. -/
structure Layout where
  rows : ℕ
  cols : ℕ
  encoders : ℕ
  encoderMap : Bool
  entries_le : rows * cols ≤ 2 ^ 16

variable (l : Layout) {bits : ℕ}

/-- `source_layers_cache` and `encoder_source_layers_cache`. -/
structure Caches (bits : ℕ) where
  keys : Cache (l.rows * l.cols) bits
  encoders : Cache l.encoders bits

inductive Slot
  | key (entryNumber : Fin (l.rows * l.cols))
  | encoder (entryNumber : Fin l.encoders)
  deriving DecidableEq

theorem entryNumber_lt {row col : ℕ} (h : row < l.rows ∧ col < l.cols) :
    row * l.cols + col < l.rows * l.cols := by
  have hrow : (row + 1) * l.cols ≤ l.rows * l.cols := Nat.mul_le_mul_right _ h.1
  rw [Nat.succ_mul] at hrow
  omega

/-- The branches of `update_source_layers_cache` and `read_source_layers_cache`. They do not check
`col` for an encoder; the events of encoders have the index of one. -/
def slot (row col : ℕ) : Option (Slot l) :=
  if h : row < l.rows ∧ col < l.cols then
    some (.key ⟨(row * l.cols % 2 ^ 16 + col) % 2 ^ 16, lt_of_le_of_lt
      ((Nat.mod_le _ _).trans (Nat.add_le_add_right (Nat.mod_le _ _) _)) (entryNumber_lt l h)⟩)
  else if l.encoderMap ∧ (row = KEYLOC_ENCODER_CW ∨ row = KEYLOC_ENCODER_CCW) then
    if h : col < l.encoders then some (.encoder ⟨col, h⟩) else none
  else none

def updateSourceLayersCache (row col : ℕ) (layer : BitVec 8) (s : Caches l bits) :
    Caches l bits :=
  match slot l row col with
  | some (.key entryNumber) =>
    { s with keys := updateSourceLayersCacheImpl layer entryNumber s.keys }
  | some (.encoder entryNumber) =>
    { s with encoders := updateSourceLayersCacheImpl layer entryNumber s.encoders }
  | none => s

def readSourceLayersCache (row col : ℕ) (s : Caches l bits) : BitVec 8 :=
  match slot l row col with
  | some (.key entryNumber) => readSourceLayersCacheImpl entryNumber s.keys
  | some (.encoder entryNumber) => readSourceLayersCacheImpl entryNumber s.encoders
  | none => 0

variable {l}

theorem slot_inj {row col row' col' : ℕ} (h : row < l.rows ∧ col < l.cols)
    (h' : row' < l.rows ∧ col' < l.cols) (heq : slot l row col = slot l row' col') :
    row = row' ∧ col = col' := by
  have hle := l.entries_le
  have hlt := entryNumber_lt l h
  have hlt' := entryNumber_lt l h'
  simp only [slot, dif_pos h, dif_pos h', Option.some.injEq, Slot.key.injEq, Fin.mk.injEq] at heq
  have hmod : ∀ x, x + col < 2 ^ 16 → (x % 2 ^ 16 + col) % 2 ^ 16 = x + col := by omega
  have hmod' : ∀ x, x + col' < 2 ^ 16 → (x % 2 ^ 16 + col') % 2 ^ 16 = x + col' := by omega
  rw [hmod _ (by omega), hmod' _ (by omega)] at heq
  have hcols : 0 < l.cols := by omega
  have hrow : row = row' := by
    have hdiv := congrArg (· / l.cols) heq
    simpa only [Nat.mul_comm _ l.cols, Nat.mul_add_div hcols, Nat.div_eq_of_lt h.2,
      Nat.div_eq_of_lt h'.2, Nat.add_zero] using hdiv
  subst hrow
  exact ⟨rfl, by omega⟩

theorem read_update_position {row col row' col' : ℕ} {layer : BitVec 8} {s : Caches l bits} :
    (readSourceLayersCache l row' col' (updateSourceLayersCache l row col layer s)).toNat =
      if slot l row' col' = slot l row col ∧ (slot l row col).isSome then layer.toNat % 2 ^ bits
      else (readSourceLayersCache l row' col' s).toNat := by
  unfold readSourceLayersCache updateSourceLayersCache
  rcases slot l row col with _ | ⟨e⟩ | ⟨e⟩ <;> rcases slot l row' col' with _ | ⟨e'⟩ | ⟨e'⟩ <;>
    simp only [reduceCtorEq, Option.isSome, Option.some.injEq, Slot.key.injEq,
      Slot.encoder.injEq, Bool.false_eq_true, and_false, and_true, if_false]
  · by_cases he : e' = e
    · subst he
      rw [if_pos rfl, read_update_self]
    · rw [if_neg he, read_update_of_ne he]
  · by_cases he : e' = e
    · subst he
      rw [if_pos rfl, read_update_self]
    · rw [if_neg he, read_update_of_ne he]

end Positions

end Qmk.SourceLayers
