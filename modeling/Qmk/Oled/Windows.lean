import Mathlib.Tactic.Ring
import Qmk.Oled

/-! # A block on the display

A block of the buffer is sent to a window of the display, in one piece or page by page, and shows
there as it is or rotated. The other blocks show in other places.
-/

namespace Qmk.Oled

section Bits

def bit (b : UInt8) (i : ℕ) : Bool := b.toBitVec.getLsbD i

theorem and_one_shiftLeft (a : UInt8) (i : Fin 8) :
    a &&& (1 <<< UInt8.ofNat i) = if bit a i then 1 <<< UInt8.ofNat i else 0 := by
  have hi := i.isLt
  apply UInt8.toBitVec_inj.1
  have hs : (1 <<< UInt8.ofNat i : UInt8).toBitVec = BitVec.twoPow 8 i := by
    revert i; decide
  apply BitVec.eq_of_getLsbD_eq
  intro j hj
  rw [UInt8.toBitVec_and, hs, BitVec.getLsbD_and, BitVec.getLsbD_twoPow, bit]
  split_ifs with h
  · rw [hs, BitVec.getLsbD_twoPow]
    by_cases hij : (i : ℕ) = j
    · simp [← hij, h]
    · simp [hij]
  · by_cases hij : (i : ℕ) = j
    · simpa [← hij] using h
    · simp [hij]

theorem crot_one_shiftLeft : ∀ i j : Fin 8,
    crot (1 <<< UInt8.ofNat i) (7 - (i : ℕ) - (j : ℕ)) = 1 <<< UInt8.ofNat (7 - j) := by
  decide

theorem bit_zero (i : ℕ) : bit 0 i = false := by simp [bit]

theorem bit_or (a b : UInt8) (i : ℕ) : bit (a ||| b) i = (bit a i || bit b i) := by
  simp [bit]

theorem crot_zero (n : ℤ) : crot 0 n = 0 := by simp [crot]

/-- One step of the inner loop of `rotate_90` sets the pixel that it moves and no other one. -/
theorem bit_crot (a : UInt8) (i j k : Fin 8) :
    bit (crot (a &&& (1 <<< UInt8.ofNat i)) (7 - (i : ℕ) - (j : ℕ))) (7 - k) =
      (decide (j = k) && bit a i) := by
  rw [and_one_shiftLeft]
  split_ifs with h
  · rw [crot_one_shiftLeft, h, Bool.and_true]
    revert j k; decide
  · rw [crot_zero, Bool.eq_false_iff.2 h, Bool.and_false]
    exact bit_zero _

theorem bit_foldl_or (f : ℕ → UInt8) (i : ℕ) (l : List ℕ) (b : UInt8) :
    bit (l.foldl (fun b j => b ||| f j) b) i = (bit b i || l.any fun j => bit (f j) i) := by
  induction l generalizing b with
  | nil => simp
  | cons j l ih => rw [List.foldl_cons, ih, bit_or, List.any_cons, Bool.or_assoc]

theorem bit_rotate90 (src : ℕ → UInt8) (i j : Fin 8) :
    bit (rotate90 src i) (7 - j) = bit (src j) i := by
  rw [rotate90, bit_foldl_or, Bool.eq_iff_iff]
  have hstep (k : ℕ) (hk : k < 8) := bit_crot (src k) i ⟨k, hk⟩ j
  simp only [bit_zero, Bool.false_or, List.any_eq_true, List.mem_range]
  constructor
  · rintro ⟨k, hk, h⟩
    rw [hstep k hk] at h
    simp only [Bool.and_eq_true, decide_eq_true_eq] at h
    rw [← h.1]
    exact h.2
  · intro h
    refine ⟨j, j.isLt, ?_⟩
    rw [hstep j j.isLt]
    simpa using h

end Bits

section Cells

/-- The cell of the display, by page and column, in which a pixel of a byte shows. -/
def cell (cfg : Config) (x i : ℕ) : ℕ × ℕ :=
  if cfg.rotated then
    ((cfg.height - 1 - x % cfg.height) / 8, cfg.columnOffset + 8 * (x / cfg.height) + i)
  else (x / cfg.width, cfg.columnOffset + x % cfg.width)

def cellBit (cfg : Config) (x i : ℕ) : ℕ :=
  if cfg.rotated then (cfg.height - 1 - x % cfg.height) % 8 else i

def written (piece : List UInt8 × List UInt8) (p c : ℕ) : Option UInt8 :=
  ((decodeWindow piece.1).index p c).bind (piece.2[·]?)

def showPieces (pieces : List (List UInt8 × List UInt8)) (screen : Screen) : Screen :=
  pieces.foldl (fun screen piece => (decodeWindow piece.1).put piece.2 screen) screen

theorem put_eq (piece : List UInt8 × List UInt8) (screen : Screen) (p c : ℕ) :
    (decodeWindow piece.1).put piece.2 screen p c = (written piece p c).getD (screen p c) := rfl

theorem showPieces_of_written {pieces : List (List UInt8 × List UInt8)} {p c : ℕ}
    {P : UInt8 → Prop} (h : ∀ piece ∈ pieces, ∀ v, written piece p c = some v → P v)
    (screen : Screen)
    (hsome : P (screen p c) ∨ ∃ v, ∃ piece ∈ pieces, written piece p c = some v) :
    P (showPieces pieces screen p c) := by
  induction pieces generalizing screen with
  | nil => simpa [showPieces] using hsome
  | cons piece pieces ih =>
    have hfirst := h piece List.mem_cons_self
    refine ih (fun q hq => h q (List.mem_cons_of_mem _ hq)) _ ?_
    beta_reduce
    rw [put_eq]
    cases hw : written piece p c with
    | some v => exact .inl (hfirst v hw)
    | none =>
      refine hsome.imp id ?_
      rintro ⟨v, q, hq, hqv⟩
      rcases List.mem_cons.1 hq with rfl | hq
      · rw [hw] at hqv
        cases hqv
      · exact ⟨v, q, hq, hqv⟩

theorem written_eq_some_iff {command data : List UInt8} {win : Window}
    (hwin : decodeWindow command = win) {p c : ℕ} {v : UInt8} :
    written (command, data) p c = some v ↔
      (win.page ≤ p ∧ p < win.page + win.pages ∧ win.column ≤ c ∧ c < win.column + win.columns) ∧
        data[(p - win.page) * win.columns + (c - win.column)]? = some v := by
  rw [written, hwin, Window.index]
  split_ifs with h
  · simp [h]
  · simp [h]

end Cells

section Geometry

theorem block_mod_add_le {size n : ℕ} (b : ℕ) (hdvd : size ∣ n) (hn : 0 < n) :
    size * b % n + size ≤ n := by
  obtain ⟨m, rfl⟩ := hdvd
  have hm : 0 < m := Nat.pos_of_mul_pos_left hn
  rw [Nat.mul_mod_mul_left, ← Nat.mul_succ]
  exact Nat.mul_le_mul_left _ (Nat.mod_lt _ hm)

theorem div_eq_of_row {size n b x : ℕ} (hrow : x / n = size * b / n)
    (hle : size * b % n ≤ x % n) (hlt : x % n < size * b % n + size) : x / size = b := by
  have hx := Nat.div_add_mod x n
  have hb := Nat.div_add_mod (size * b) n
  rw [hrow] at hx
  refine Nat.div_eq_of_lt_le ?_ ?_
  · rw [Nat.mul_comm]; omega
  · rw [Nat.succ_mul, Nat.mul_comm b]; omega

theorem row_of_div_eq {size n b x : ℕ} (hdvd : size ∣ n) (hn : 0 < n) (hx : x / size = b) :
    x / n = size * b / n ∧ x % n = size * b % n + x % size := by
  have hend := block_mod_add_le b hdvd hn
  have hs : 0 < size := Nat.pos_of_dvd_of_pos hdvd hn
  have hlt := Nat.mod_lt x hs
  have hsplit : x = size * b + x % size := by rw [← hx]; exact (Nat.div_add_mod x size).symm
  have hb := Nat.div_add_mod (size * b) n
  have hcalc : x = size * b % n + x % size + n * (size * b / n) := by omega
  constructor
  · rw [hcalc, Nat.add_mul_div_left _ _ hn, Nat.div_eq_of_lt (by omega), Nat.zero_add]
  · conv_lhs => rw [hcalc]
    rw [Nat.add_mul_mod_self_left, Nat.mod_eq_of_lt (by omega)]

variable (cfg : Config) {b x : ℕ}

theorem Config.width_pos : 0 < cfg.width := by
  have h := Nat.mul_pos cfg.count_pos cfg.blockSize_pos
  rw [cfg.blocks] at h
  exact Nat.pos_of_mul_pos_left h

theorem Config.pages_pos : 0 < cfg.height / 8 := by
  have h := Nat.mul_pos cfg.count_pos cfg.blockSize_pos
  rw [cfg.blocks] at h
  exact Nat.pos_of_mul_pos_right h

theorem Config.eight_dvd_height : 8 ∣ cfg.height := cfg.eight_dvd.trans cfg.dvd_height

theorem Config.height_pos : 0 < cfg.height := by
  have := cfg.pages_pos
  omega

theorem Config.blockSize_le_height : cfg.blockSize ≤ cfg.height :=
  Nat.le_of_dvd cfg.height_pos cfg.dvd_height

theorem div_lt_blockCount_iff : x / cfg.blockSize < cfg.blockCount ↔ x < matrixSize cfg := by
  rw [matrixSize, ← cfg.blocks, Nat.div_lt_iff_lt_mul cfg.blockSize_pos]

theorem mul_lt_matrixSize (hb : b < cfg.blockCount) : cfg.blockSize * b < matrixSize cfg := by
  rw [← div_lt_blockCount_iff, Nat.mul_div_cancel_left _ cfg.blockSize_pos]
  exact hb

theorem page_lt (hx : x < matrixSize cfg) : x / cfg.width < cfg.height / 8 := by
  rw [Nat.div_lt_iff_lt_mul cfg.width_pos]
  exact hx

theorem row_lt (hx : x < matrixSize cfg) : 8 * (x / cfg.height) + 8 ≤ cfg.width := by
  obtain ⟨w, hw⟩ := cfg.eight_dvd.trans cfg.dvd_width
  obtain ⟨h, hh⟩ := cfg.eight_dvd_height
  have : x / cfg.height < w := by
    rw [Nat.div_lt_iff_lt_mul cfg.height_pos]
    calc x < cfg.height / 8 * cfg.width := hx
      _ = w * cfg.height := by
        rw [hw, hh, Nat.mul_div_cancel_left _ (by decide)]
        ring
  omega

end Geometry

section Commands

variable {cfg : Config} {b : ℕ}

theorem pam_page : ∀ page < 16, ((0xB0 : UInt8) ||| .ofNat page) = .ofNat (0xB0 + page) := by
  decide

theorem pam_column : ∀ column < 256,
    (UInt8.ofNat (0x10 ||| column >>> 4 &&& 0x0F)).toNat % 16 * 16 +
      (UInt8.ofNat (0x00 ||| column &&& 0x0F)).toNat % 16 = column := by
  decide +kernel

theorem decode_horizontal {page pageEnd column columnEnd : ℕ} (hmode : cfg.horizontalMode = true)
    (hpage : page < 256) (hpageEnd : pageEnd < 256) (hcolumn : cfg.columnOffset + column < 256)
    (hcolumnEnd : cfg.columnOffset + columnEnd < 256) :
    decodeWindow (addressBytes cfg page pageEnd column columnEnd) =
      ⟨page, pageEnd + 1 - page, cfg.columnOffset + column, columnEnd + 1 - column⟩ := by
  simp only [addressBytes, hmode, if_true, decodeWindow, UInt8.toNat_ofNat', Nat.reducePow,
    Nat.mod_eq_of_lt, hpage, hpageEnd, hcolumn, hcolumnEnd, Window.mk.injEq, true_and]
  omega

/-- In page addressing mode the first byte of the command counts the pages. -/
theorem decode_pam {page pageEnd column columnEnd i : ℕ} (hmode : cfg.horizontalMode = false)
    (hpage : page + i < 16) (hcolumn : cfg.columnOffset + column < 256) :
    decodeWindow ((addressBytes cfg page pageEnd column columnEnd).modifyHead (· + UInt8.ofNat i)) =
      ⟨page + i, 1, cfg.columnOffset + column, 256⟩ := by
  have hcol := pam_column (cfg.columnOffset + column) hcolumn
  have hp := pam_page page (by omega)
  simp only [addressBytes, hmode, Bool.false_eq_true, if_false, List.modifyHead_cons, decodeWindow,
    Window.mk.injEq, true_and, and_true]
  refine ⟨?_, hcol⟩
  have hor : UInt8.ofNat (0xB0 ||| page) = 0xB0 ||| UInt8.ofNat page := by
    simp
  rw [hor, hp, UInt8.toNat_add, UInt8.toNat_ofNat', UInt8.toNat_ofNat']
  omega

end Commands

section Squares

variable (src : Mem UInt8)

theorem rotateSquare_of_lt (temp : Mem UInt8) (source : ℕ) {target k : ℕ} (h : k < target) :
    rotateSquare src temp (source, target) k = temp k :=
  Mem.write_of_lt _ _ h

theorem rotateSquare_of_ge (temp : Mem UInt8) (source : ℕ) {target k : ℕ} (h : target + 8 ≤ k) :
    rotateSquare src temp (source, target) k = temp k :=
  Mem.write_of_ge _ _ (by simpa using h)

theorem rotateSquare_add (temp : Mem UInt8) (source target : ℕ) {i : ℕ} (hi : i < 8) :
    rotateSquare src temp (source, target) (target + i) =
      temp (target + i) ||| rotate90 (fun j => src (source + j)) i := by
  rw [rotateSquare, Mem.write_add _ (by simpa using hi)]
  simp

theorem foldl_rotateSquare (cfg : Config) (src : Mem UInt8) {n : ℕ} (hn : 8 * n ≤ cfg.blockSize) :
    let temp := ((List.range n).map fun t => (8 * t, cfg.blockSize - 8 - 8 * t)).foldl
      (rotateSquare src) fun _ => 0
    (∀ k < cfg.blockSize - 8 * n, temp k = 0) ∧
      ∀ t < n, ∀ i < 8, temp (cfg.blockSize - 8 - 8 * t + i) =
        rotate90 (fun j => src (8 * t + j)) i := by
  induction n with
  | zero => simp
  | succ n ih =>
    obtain ⟨hzero, hdone⟩ := ih (by omega)
    simp only [List.range_succ, List.map_append, List.map_cons, List.map_nil, List.foldl_append,
      List.foldl_cons, List.foldl_nil]
    constructor
    · intro k hk
      rw [rotateSquare_of_lt _ _ _ (by omega), hzero k (by omega)]
    · intro t ht i hi
      rcases Nat.lt_succ_iff_lt_or_eq.1 ht with ht | rfl
      · rw [rotateSquare_of_ge _ _ _ (by omega), hdone t ht i hi]
      · rw [rotateSquare_add _ _ _ _ hi, hzero _ (by omega)]
        simp

theorem getElem?_rotatedBlock {cfg : Config} (buffer : Mem UInt8) (b : ℕ) {t i : ℕ}
    (ht : 8 * t < cfg.blockSize) (hi : i < 8) :
    (rotatedBlock cfg buffer b)[cfg.blockSize - 8 - 8 * t + i]? =
      some (rotate90 (fun j => buffer (cfg.blockSize * b + (8 * t + j))) i) := by
  have h8 := cfg.eight_dvd
  have hlt : cfg.blockSize - 8 - 8 * t + i < cfg.blockSize := by omega
  have h := (foldl_rotateSquare cfg (fun k => buffer (cfg.blockSize * b + k))
    (n := cfg.blockSize / 8) (by omega)).2 t (by omega) i hi
  rw [rotatedBlock, List.getElem?_eq_getElem (by simpa using hlt), Mem.getElem_read, Nat.zero_add]
  exact congrArg some h

end Squares

section Blocks

variable {cfg : Config} {b : ℕ}

theorem blockSize_pred_mod {n : ℕ} (hle : cfg.blockSize ≤ n) :
    (cfg.blockSize + n - 1) / n = 1 ∧ (cfg.blockSize + n - 1) % n = cfg.blockSize - 1 := by
  have hpos := cfg.blockSize_pos
  have hsplit : cfg.blockSize + n - 1 = cfg.blockSize - 1 + n * 1 := by omega
  rw [hsplit, Nat.add_mul_div_left _ _ (by omega), Nat.add_mul_mod_self_left,
    Nat.div_eq_of_lt (by omega), Nat.mod_eq_of_lt (by omega)]
  exact ⟨rfl, rfl⟩

theorem modifyHead_add_zero (l : List UInt8) : l.modifyHead (· + UInt8.ofNat 0) = l := by
  cases l <;> simp

theorem decode_calcBounds (hb : b < cfg.blockCount) :
    decodeWindow (calcBounds cfg b) =
      ⟨cfg.blockSize * b / cfg.width, 1, cfg.columnOffset + cfg.blockSize * b % cfg.width,
        if cfg.horizontalMode then cfg.blockSize else 256⟩ := by
  have hpos := cfg.blockSize_pos
  have hpage := page_lt cfg (mul_lt_matrixSize cfg hb)
  have hcolumn := block_mod_add_le b cfg.dvd_width cfg.width_pos
  have hwidth := cfg.width_le
  have hheight := cfg.height_le
  obtain ⟨hdiv, hmod⟩ := blockSize_pred_mod (Nat.le_of_dvd cfg.width_pos cfg.dvd_width)
  rw [calcBounds, hdiv, hmod]
  cases hmode : cfg.horizontalMode with
  | true =>
    rw [decode_horizontal hmode (by omega) (by omega) (by omega) (by omega)]
    simp only [Window.mk.injEq, true_and, if_true]
    omega
  | false =>
    rw [← modifyHead_add_zero (addressBytes _ _ _ _ _), decode_pam hmode (by omega) (by omega)]
    rfl

theorem eight_dvd_row (cfg : Config) (b : ℕ) : 8 ∣ cfg.blockSize * b % cfg.height :=
  (Nat.dvd_mod_iff cfg.eight_dvd_height).2 (cfg.eight_dvd.mul_right b)

theorem bottom_page (b : ℕ) :
    (cfg.height / 8 - cfg.blockSize % cfg.height / 8) % (cfg.height / 8) -
      cfg.blockSize * b % cfg.height / 8 =
        (cfg.height - cfg.blockSize - cfg.blockSize * b % cfg.height) / 8 := by
  have hrow := block_mod_add_le b cfg.dvd_height cfg.height_pos
  have hpages := cfg.pages_pos
  have hpos := cfg.blockSize_pos
  have h8 := cfg.eight_dvd
  have h8' := cfg.eight_dvd_height
  have h8b := eight_dvd_row cfg b
  rcases Nat.eq_or_lt_of_le cfg.blockSize_le_height with heq | hlt
  · rw [heq, Nat.mod_self, Nat.zero_div, Nat.sub_zero, Nat.mod_self]
    rw [heq] at hrow
    omega
  · rw [Nat.mod_eq_of_lt hlt, Nat.mod_eq_of_lt (by omega)]
    omega

theorem decode_calcBounds90 (hb : b < cfg.blockCount) {i : ℕ} (hi : 8 * i < cfg.blockSize) :
    decodeWindow (if cfg.horizontalMode then calcBounds90 cfg b
        else (calcBounds90 cfg b).modifyHead (· + UInt8.ofNat i)) =
      ⟨(cfg.height - cfg.blockSize - cfg.blockSize * b % cfg.height) / 8 +
          if cfg.horizontalMode then 0 else i,
        if cfg.horizontalMode then cfg.blockSize / 8 else 1,
        cfg.columnOffset + 8 * (cfg.blockSize * b / cfg.height),
        if cfg.horizontalMode then 8 else 256⟩ := by
  have hrow := block_mod_add_le b cfg.dvd_height cfg.height_pos
  have hcolumn := row_lt cfg (mul_lt_matrixSize cfg hb)
  have hwidth := cfg.width_le
  have hheight := cfg.height_le
  have h8 := cfg.eight_dvd
  have h8' := cfg.eight_dvd_height
  obtain ⟨hdiv, hmod⟩ := blockSize_pred_mod cfg.blockSize_le_height
  rw [calcBounds90]
  simp only [hdiv, hmod, bottom_page]
  cases hmode : cfg.horizontalMode with
  | true =>
    rw [if_pos rfl, decode_horizontal hmode (by omega) (by omega) (by omega) (by omega)]
    simp only [Window.mk.injEq, if_true]
    omega
  | false =>
    simp only [Bool.false_eq_true, if_false]
    rw [decode_pam hmode (by omega) (by omega), Nat.mul_comm 8]

variable {buffer : Mem UInt8} {p c : ℕ} {v : UInt8}

theorem exists_written_iff_of_not_rotated (hrotated : cfg.rotated = false)
    (hb : b < cfg.blockCount) :
    (∃ piece ∈ pieces cfg buffer b, written piece p c = some v) ↔
      p = cfg.blockSize * b / cfg.width ∧
        ∃ k < cfg.blockSize, c = cfg.columnOffset + cfg.blockSize * b % cfg.width + k ∧
          v = buffer (cfg.blockSize * b + k) := by
  have hcolumn := block_mod_add_le b cfg.dvd_width cfg.width_pos
  have hwidth := cfg.width_le
  have hsize : cfg.blockSize ≤ if cfg.horizontalMode then cfg.blockSize else 256 := by
    split_ifs <;> omega
  simp only [pieces, hrotated, Bool.not_false, if_true, List.mem_singleton, exists_eq_left]
  rw [written_eq_some_iff (decode_calcBounds hb)]
  dsimp only
  constructor
  · rintro ⟨⟨hp, hp', hc, hc'⟩, hv⟩
    obtain rfl : p = cfg.blockSize * b / cfg.width := by omega
    obtain ⟨k, rfl⟩ := Nat.exists_eq_add_of_le hc
    simp only [Nat.sub_self, Nat.zero_mul, Nat.zero_add, Nat.add_sub_cancel_left] at hv
    obtain ⟨hk, rfl⟩ := List.getElem?_eq_some_iff.1 hv
    rw [Mem.getElem_read]
    rw [Mem.length_read] at hk
    exact ⟨rfl, k, hk, rfl, rfl⟩
  · rintro ⟨rfl, k, hk, rfl, rfl⟩
    refine ⟨by omega, ?_⟩
    simp only [Nat.sub_self, Nat.zero_mul, Nat.zero_add, Nat.add_sub_cancel_left]
    rw [List.getElem?_eq_getElem (by simpa using hk), Mem.getElem_read]

theorem exists_written_iff_of_rotated (hrotated : cfg.rotated = true) (hb : b < cfg.blockCount) :
    (∃ piece ∈ pieces cfg buffer b, written piece p c = some v) ↔
      ∃ t k, 8 * t < cfg.blockSize ∧ k < 8 ∧
        p = (cfg.height - cfg.blockSize - cfg.blockSize * b % cfg.height) / 8 + t ∧
        c = cfg.columnOffset + 8 * (cfg.blockSize * b / cfg.height) + k ∧
        (rotatedBlock cfg buffer b)[8 * t + k]? = some v := by
  have h8 := cfg.eight_dvd
  have hpos := cfg.blockSize_pos
  obtain ⟨hdiv, -⟩ := blockSize_pred_mod cfg.blockSize_le_height
  simp only [pieces, hrotated, Bool.not_true, Bool.false_eq_true, if_false, hdiv, Nat.one_mul]
  cases hmode : cfg.horizontalMode with
  | true =>
    have hdecode := decode_calcBounds90 hb (i := 0) hpos
    simp only [hmode, if_true] at hdecode
    simp only [if_true, List.mem_singleton, exists_eq_left]
    rw [written_eq_some_iff hdecode]
    dsimp only
    constructor
    · rintro ⟨⟨hp, hp', hc, hc'⟩, hv⟩
      refine ⟨_, _, ?_, ?_, (Nat.add_sub_of_le hp).symm, (Nat.add_sub_of_le hc).symm, ?_⟩
      · omega
      · omega
      · rwa [Nat.mul_comm 8]
    · rintro ⟨t, k, ht, hk, rfl, rfl, hv⟩
      refine ⟨by omega, ?_⟩
      simpa [Nat.mul_comm] using hv
  | false =>
    have hdecode i (hi : 8 * i < cfg.blockSize) := decode_calcBounds90 hb hi
    simp only [hmode, Bool.false_eq_true, if_false] at hdecode
    simp only [Bool.false_eq_true, if_false, List.mem_map, List.mem_range]
    constructor
    · rintro ⟨piece, ⟨t, ht, rfl⟩, hv⟩
      rw [written_eq_some_iff (hdecode t (by omega))] at hv
      dsimp only at hv
      obtain ⟨⟨hp, hp', hc, hc'⟩, hv⟩ := hv
      obtain rfl : p = (cfg.height - cfg.blockSize - cfg.blockSize * b % cfg.height) / 8 + t := by
        omega
      obtain ⟨k, rfl⟩ := Nat.exists_eq_add_of_le hc
      simp only [Nat.sub_self, Nat.zero_mul, Nat.zero_add, Nat.add_sub_cancel_left,
        List.getElem?_take, List.getElem?_drop] at hv
      split_ifs at hv with hk
      exact ⟨t, k, by omega, hk, rfl, rfl, hv⟩
    · rintro ⟨t, k, ht, hk, rfl, rfl, hv⟩
      refine ⟨_, ⟨t, by omega, rfl⟩, ?_⟩
      rw [written_eq_some_iff (hdecode t ht)]
      refine ⟨by dsimp only; omega, ?_⟩
      simpa only [Nat.sub_self, Nat.zero_mul, Nat.zero_add, Nat.add_sub_cancel_left,
        List.getElem?_take, List.getElem?_drop, hk, if_true] using hv

end Blocks

section Shows

variable {cfg : Config} {b x i : ℕ} {buffer : Mem UInt8}

theorem eq_mul_add_mod (hx : x / cfg.blockSize = b) :
    cfg.blockSize * b + x % cfg.blockSize = x := by
  rw [← hx, Nat.div_add_mod]

theorem rotated_page (hx : x / cfg.blockSize = b) :
    (cfg.height - 1 - x % cfg.height) / 8 =
      (cfg.height - cfg.blockSize - cfg.blockSize * b % cfg.height) / 8 +
        (cfg.blockSize / 8 - 1 - x % cfg.blockSize / 8) := by
  have hrow := (row_of_div_eq cfg.dvd_height cfg.height_pos hx).2
  have hend := block_mod_add_le b cfg.dvd_height cfg.height_pos
  have hlt := Nat.mod_lt x cfg.blockSize_pos
  have h8 := cfg.eight_dvd
  have h8' := cfg.eight_dvd_height
  have h8b := eight_dvd_row cfg b
  rw [hrow]
  omega

theorem div_eq_of_rotated_page {t : ℕ} (hrow : x / cfg.height = cfg.blockSize * b / cfg.height)
    (ht : 8 * t < cfg.blockSize)
    (hpage : (cfg.height - 1 - x % cfg.height) / 8 =
      (cfg.height - cfg.blockSize - cfg.blockSize * b % cfg.height) / 8 + t) :
    x / cfg.blockSize = b := by
  have hend := block_mod_add_le b cfg.dvd_height cfg.height_pos
  have hlt := Nat.mod_lt x cfg.height_pos
  have h8 := cfg.eight_dvd
  have h8' := cfg.eight_dvd_height
  have h8b := eight_dvd_row cfg b
  exact div_eq_of_row hrow (by omega) (by omega)

theorem rotated_byte (buffer : Mem UInt8) (hx : x / cfg.blockSize = b) (hi : i < 8) :
    ∃ v, (rotatedBlock cfg buffer b)[8 * (cfg.blockSize / 8 - 1 - x % cfg.blockSize / 8) + i]? =
        some v ∧
      bit v ((cfg.height - 1 - x % cfg.height) % 8) = bit (buffer x) i := by
  have hrow := (row_of_div_eq cfg.dvd_height cfg.height_pos hx).2
  have hlt := Nat.mod_lt x cfg.blockSize_pos
  have hend := block_mod_add_le b cfg.dvd_height cfg.height_pos
  have h8 := cfg.eight_dvd
  have h8' := cfg.eight_dvd_height
  have h8b := eight_dvd_row cfg b
  have hindex : 8 * (cfg.blockSize / 8 - 1 - x % cfg.blockSize / 8) + i =
      cfg.blockSize - 8 - 8 * (x % cfg.blockSize / 8) + i := by omega
  refine ⟨_, hindex ▸ getElem?_rotatedBlock buffer b (by omega) hi, ?_⟩
  have hbit : (cfg.height - 1 - x % cfg.height) % 8 = 7 - x % cfg.blockSize % 8 := by
    rw [hrow]
    omega
  rw [hbit]
  have h := bit_rotate90 (fun j => buffer (cfg.blockSize * b + (8 * (x % cfg.blockSize / 8) + j)))
    ⟨i, hi⟩ ⟨x % cfg.blockSize % 8, Nat.mod_lt _ (by decide)⟩
  simpa only [Nat.div_add_mod, eq_mul_add_mod hx] using h

theorem exists_written_cell (hb : b < cfg.blockCount) (hi : i < 8) (hx : x / cfg.blockSize = b) :
    ∃ v, ∃ piece ∈ pieces cfg buffer b,
      written piece (cell cfg x i).1 (cell cfg x i).2 = some v := by
  have hlt := Nat.mod_lt x cfg.blockSize_pos
  cases hrotated : cfg.rotated with
  | false =>
    obtain ⟨hrow, hcolumn⟩ := row_of_div_eq cfg.dvd_width cfg.width_pos hx
    refine ⟨buffer x, (exists_written_iff_of_not_rotated hrotated hb).2 ?_⟩
    simp only [cell, hrotated, Bool.false_eq_true, if_false]
    refine ⟨hrow, x % cfg.blockSize, hlt, ?_, ?_⟩
    · rw [hcolumn, Nat.add_assoc]
    · rw [eq_mul_add_mod hx]
  | true =>
    obtain ⟨v, hv, -⟩ := rotated_byte buffer hx hi
    have h8 := cfg.eight_dvd
    refine ⟨v, (exists_written_iff_of_rotated hrotated hb).2 ?_⟩
    simp only [cell, hrotated, if_true]
    refine ⟨_, i, ?_, hi, rotated_page hx, ?_, hv⟩
    · omega
    · rw [(row_of_div_eq cfg.dvd_height cfg.height_pos hx).1]

theorem written_cell (hb : b < cfg.blockCount) (hi : i < 8) {piece : List UInt8 × List UInt8}
    (hpiece : piece ∈ pieces cfg buffer b) {v : UInt8}
    (hv : written piece (cell cfg x i).1 (cell cfg x i).2 = some v) :
    x / cfg.blockSize = b ∧ bit v (cellBit cfg x i) = bit (buffer x) i := by
  cases hrotated : cfg.rotated with
  | false =>
    obtain ⟨hrow, k, hk, hcolumn, rfl⟩ :=
      (exists_written_iff_of_not_rotated hrotated hb).1 ⟨piece, hpiece, hv⟩
    simp only [cell, hrotated, Bool.false_eq_true, if_false] at hrow hcolumn
    have hx : x / cfg.blockSize = b := div_eq_of_row hrow (by omega) (by omega)
    have hmod := (row_of_div_eq cfg.dvd_width cfg.width_pos hx).2
    obtain rfl : k = x % cfg.blockSize := by omega
    rw [eq_mul_add_mod hx, cellBit, hrotated]
    exact ⟨hx, rfl⟩
  | true =>
    obtain ⟨t, k, ht, hk, hpage, hcolumn, hbyte⟩ :=
      (exists_written_iff_of_rotated hrotated hb).1 ⟨piece, hpiece, hv⟩
    simp only [cell, hrotated, if_true] at hpage hcolumn
    have hx : x / cfg.blockSize = b := div_eq_of_rotated_page (by omega) ht hpage
    obtain rfl : t = cfg.blockSize / 8 - 1 - x % cfg.blockSize / 8 := by
      have := rotated_page hx
      omega
    obtain rfl : k = i := by
      have := (row_of_div_eq cfg.dvd_height cfg.height_pos hx).1
      omega
    obtain ⟨w, hw, hbit⟩ := rotated_byte buffer hx hi
    obtain rfl : v = w := Option.some_inj.1 (hbyte.symm.trans hw)
    rw [cellBit, hrotated]
    exact ⟨hx, hbit⟩

/-- The display shows a byte of the buffer, each pixel in its cell. -/
def Shows (cfg : Config) (screen : Screen) (buffer : Mem UInt8) (x : ℕ) : Prop :=
  ∀ i < 8, bit (screen (cell cfg x i).1 (cell cfg x i).2) (cellBit cfg x i) = bit (buffer x) i

theorem shows_showPieces (screen : Screen) (hb : b < cfg.blockCount) (hx : x / cfg.blockSize = b) :
    Shows cfg (showPieces (pieces cfg buffer b) screen) buffer x := fun _ hi =>
  showPieces_of_written (fun _ hpiece _ hv => (written_cell hb hi hpiece hv).2) screen
    (.inr (exists_written_cell hb hi hx))

theorem written_eq_none (hb : b < cfg.blockCount) (hi : i < 8) (hx : x / cfg.blockSize ≠ b)
    {piece : List UInt8 × List UInt8} (hpiece : piece ∈ pieces cfg buffer b) :
    written piece (cell cfg x i).1 (cell cfg x i).2 = none :=
  Option.eq_none_iff_forall_ne_some.2 fun _ hv => hx (written_cell hb hi hpiece hv).1

end Shows

end Qmk.Oled
