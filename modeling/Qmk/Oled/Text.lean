import Qmk.Oled.Windows

/-! # Text in the buffer

Calls that write text see a grid of characters. A character goes to the cell of the cursor, and the
cursor goes on to the next cell, from the end of a line to the next line and from the last line to
the first one. The bytes of the buffer that no cell has are left alone.
-/

namespace Qmk.Oled

section Cells

variable (cfg : Config)

def maxChars : ℕ := rotationWidth cfg / cfg.fontWidth

/-- `oled_max_lines`, with `OLED_FONT_HEIGHT`. -/
def maxLines : ℕ := (if cfg.rotated then cfg.width else cfg.height) / 8

/-- The first byte of a cell. -/
def charIndex (line col : ℕ) : ℕ := line * rotationWidth cfg + col * cfg.fontWidth

theorem fontWidth_le_rotationWidth : cfg.fontWidth ≤ rotationWidth cfg := by
  refine cfg.fontWidth_le.trans ?_
  rw [rotationWidth]
  split_ifs
  · exact cfg.blockSize_le_height
  · exact Nat.le_of_dvd cfg.width_pos cfg.dvd_width

theorem rotationWidth_pos : 0 < rotationWidth cfg :=
  cfg.fontWidth_pos.trans_le (fontWidth_le_rotationWidth cfg)

theorem maxLines_mul : maxLines cfg * rotationWidth cfg = matrixSize cfg := by
  obtain ⟨w, hw⟩ := cfg.eight_dvd.trans cfg.dvd_width
  obtain ⟨h, hh⟩ := cfg.eight_dvd_height
  rw [maxLines, rotationWidth, matrixSize]
  split_ifs
  · rw [hw, hh, Nat.mul_div_cancel_left _ (by decide), Nat.mul_div_cancel_left _ (by decide)]
    ring
  · rfl

theorem maxChars_pos : 0 < maxChars cfg :=
  Nat.div_pos (fontWidth_le_rotationWidth cfg) cfg.fontWidth_pos

theorem maxChars_mul_le : maxChars cfg * cfg.fontWidth ≤ rotationWidth cfg :=
  Nat.div_mul_le_self _ _

theorem lt_succ_maxChars_mul : rotationWidth cfg < (maxChars cfg + 1) * cfg.fontWidth := by
  rw [Nat.mul_comm]
  exact Nat.lt_mul_div_succ _ cfg.fontWidth_pos

variable {cfg} {line col : ℕ}

theorem col_mul_add_le (hcol : col < maxChars cfg) :
    col * cfg.fontWidth + cfg.fontWidth ≤ rotationWidth cfg := by
  rw [← Nat.succ_mul]
  exact (Nat.mul_le_mul_right _ hcol).trans (maxChars_mul_le cfg)

theorem charIndex_mod (hcol : col < maxChars cfg) :
    charIndex cfg line col % rotationWidth cfg = col * cfg.fontWidth := by
  have h := col_mul_add_le hcol
  have := cfg.fontWidth_pos
  rw [charIndex, Nat.mul_comm line, Nat.mul_add_mod, Nat.mod_eq_of_lt (by omega)]

theorem charIndex_add_le (hline : line < maxLines cfg) (hcol : col < maxChars cfg) :
    charIndex cfg line col + cfg.fontWidth ≤ matrixSize cfg := by
  have h := col_mul_add_le hcol
  have hlines : (line + 1) * rotationWidth cfg ≤ maxLines cfg * rotationWidth cfg :=
    Nat.mul_le_mul_right _ hline
  rw [maxLines_mul, Nat.succ_mul] at hlines
  rw [charIndex]
  omega

theorem charIndex_add_le_of_lt {line' col' : ℕ} (hcol : col < maxChars cfg)
    (hlt : line < line' ∨ line = line' ∧ col < col') :
    charIndex cfg line col + cfg.fontWidth ≤ charIndex cfg line' col' := by
  rw [charIndex, charIndex]
  rcases hlt with hlt | ⟨rfl, hlt⟩
  · have h := col_mul_add_le hcol
    have hlines := Nat.mul_le_mul_right (rotationWidth cfg) hlt
    rw [Nat.succ_mul] at hlines
    omega
  · have hcols := Nat.mul_le_mul_right cfg.fontWidth hlt
    rw [Nat.succ_mul] at hcols
    omega

theorem charIndex_disjoint {line' col' : ℕ} (hcol : col < maxChars cfg)
    (hcol' : col' < maxChars cfg) (hne : ¬(line = line' ∧ col = col')) :
    charIndex cfg line col + cfg.fontWidth ≤ charIndex cfg line' col' ∨
      charIndex cfg line' col' + cfg.fontWidth ≤ charIndex cfg line col := by
  have hcases : (line < line' ∨ line = line' ∧ col < col') ∨
      line' < line ∨ line' = line ∧ col' < col := by omega
  exact hcases.imp (charIndex_add_le_of_lt hcol) (charIndex_add_le_of_lt hcol')

end Cells

section Grid

def InCell (cfg : Config) (x : ℕ) : Prop :=
  ∃ line < maxLines cfg, ∃ col < maxChars cfg,
    charIndex cfg line col ≤ x ∧ x < charIndex cfg line col + cfg.fontWidth

theorem InCell.lt {cfg : Config} {x : ℕ} (h : InCell cfg x) : x < matrixSize cfg := by
  obtain ⟨line, hline, col, hcol, -, hlt⟩ := h
  exact hlt.trans_le (charIndex_add_le hline hcol)

/-- A page of text and its cursor, with the bytes around the cells. -/
structure Text where
  cells : ℕ → ℕ → List UInt8
  margin : Mem UInt8
  line : ℕ
  col : ℕ

variable (cfg : Config)

def Text.advance (t : Text) : Text :=
  if t.col + 1 < maxChars cfg then { t with col := t.col + 1 }
  else { t with line := (t.line + 1) % maxLines cfg, col := 0 }

def Text.put (bytes : List UInt8) (t : Text) : Text :=
  Text.advance cfg { t with cells := fun line col =>
    if line = t.line ∧ col = t.col then bytes else t.cells line col }

def Text.newline (t : Text) : Text :=
  (Text.put cfg (glyph cfg 0x20 false))^[maxChars cfg - t.col] t

def Text.skip (t : Text) : Text := { t with line := (t.line + 1) % maxLines cfg, col := 0 }

def Text.writeChar (data : UInt8) (invert : Bool) (t : Text) : Text :=
  if data = 0x0A then t.newline cfg
  else if data = 0x0D then t.skip cfg
  else t.put cfg (glyph cfg data invert)

def Text.write (data : List UInt8) (invert : Bool) (t : Text) : Text :=
  data.foldl (fun t c => t.writeChar cfg c invert) t

/-- A call that writes text, on the grid. -/
def Text.apply : Draw → Text → Text
  | .clear, t =>
    { cells := fun _ _ => List.replicate cfg.fontWidth 0
      margin := fun x => if x < matrixSize cfg then 0 else t.margin x
      line := 0
      col := 0 }
  | .setCursor col line, t => if line < maxLines cfg then { t with line, col }
    else { t with line := 0, col := 0 }
  | .advancePage true, t => t.newline cfg
  | .advancePage false, t => t.skip cfg
  | .advanceChar, t => t.advance cfg
  | .writeChar data invert, t => t.writeChar cfg data invert
  | .write data invert, t => t.write cfg data invert
  | .writeLn data invert, t => (t.write cfg data invert).newline cfg
  | _, t => t

/-- The calls that keep to the grid. -/
def Draw.IsText : Draw → Prop
  | .pan _ | .writeRawByte _ _ | .writeRaw _ | .writePixel _ _ _ => False
  | .setCursor col _ => col < maxChars cfg
  | _ => True

variable {cfg}

/-- The buffer holds a page of text. -/
structure Holds (s : State cfg) (t : Text) : Prop where
  line_lt : t.line < maxLines cfg
  col_lt : t.col < maxChars cfg
  cursor_eq : s.cursor = charIndex cfg t.line t.col
  cells_eq : ∀ line < maxLines cfg, ∀ col < maxChars cfg,
    s.buffer.read (charIndex cfg line col) cfg.fontWidth = t.cells line col
  margin_eq : ∀ x, ¬InCell cfg x → s.buffer x = t.margin x

theorem maxLines_pos : 0 < maxLines cfg := by
  have h := Nat.mul_pos cfg.count_pos cfg.blockSize_pos
  rw [cfg.blocks, ← matrixSize, ← maxLines_mul] at h
  exact Nat.pos_of_mul_pos_right h

theorem cursor_of_next_line {line : ℕ} (hline : line < maxLines cfg) :
    (if matrixSize cfg ≤ (line + 1) * rotationWidth cfg then 0
      else (line + 1) * rotationWidth cfg) = charIndex cfg ((line + 1) % maxLines cfg) 0 := by
  have hle : line + 1 ≤ maxLines cfg := hline
  simp only [charIndex, Nat.zero_mul, Nat.add_zero, ← maxLines_mul]
  rcases Nat.eq_or_lt_of_le hle with heq | hlt
  · rw [if_pos (by rw [heq]), heq, Nat.mod_self, Nat.zero_mul]
  · rw [if_neg, Nat.mod_eq_of_lt hlt]
    exact Nat.not_le.2 ((Nat.mul_lt_mul_right (rotationWidth_pos cfg)).2 hlt)

/-- The space that is left after the last cell of a line is too small for another one. -/
theorem next_of_last {line col : ℕ} (hcol : col + 1 = maxChars cfg) :
    let next := charIndex cfg line col + cfg.fontWidth
    (if rotationWidth cfg - next % rotationWidth cfg < cfg.fontWidth then
      next + (rotationWidth cfg - next % rotationWidth cfg) else next) =
        (line + 1) * rotationWidth cfg := by
  have hle := maxChars_mul_le cfg
  have hlt := lt_succ_maxChars_mul cfg
  have hwidth := fontWidth_le_rotationWidth cfg
  have hnext : charIndex cfg line col + cfg.fontWidth =
      line * rotationWidth cfg + maxChars cfg * cfg.fontWidth := by
    rw [charIndex, ← hcol, Nat.succ_mul, Nat.add_assoc]
  dsimp only
  rw [hnext, Nat.succ_mul]
  rw [Nat.succ_mul] at hlt
  rcases Nat.eq_or_lt_of_le hle with heq | hspace
  · rw [heq, ← Nat.succ_mul, Nat.mul_mod_left, Nat.sub_zero, if_neg (Nat.not_lt.2 hwidth)]
  · rw [Nat.mul_comm line, Nat.mul_add_mod, Nat.mod_eq_of_lt hspace, if_pos (by omega)]
    omega

theorem Holds.advance {s : State cfg} {t : Text} (h : Holds s t) :
    Holds (oledAdvanceChar s) (t.advance cfg) := by
  obtain ⟨hline, hcol, hcursor, hcells, hmargin⟩ := h
  rw [Text.advance]
  split_ifs with hnext
  · have hmul := col_mul_add_le hnext
    have hend := charIndex_add_le hline hnext
    have hcell : charIndex cfg t.line t.col + cfg.fontWidth =
        charIndex cfg t.line (t.col + 1) := by
      rw [charIndex, charIndex, Nat.succ_mul, Nat.add_assoc]
    have hpos := cfg.fontWidth_pos
    refine ⟨hline, hnext, ?_, hcells, hmargin⟩
    rw [oledAdvanceChar]
    dsimp only
    have hspace : ¬rotationWidth cfg - (t.col + 1) * cfg.fontWidth < cfg.fontWidth := by omega
    rw [hcursor, hcell, charIndex_mod hnext, if_neg hspace, if_neg (by omega)]
  · refine ⟨Nat.mod_lt _ maxLines_pos, maxChars_pos cfg, ?_, hcells, hmargin⟩
    rw [oledAdvanceChar]
    dsimp only
    rw [hcursor, next_of_last (by omega), cursor_of_next_line hline]

theorem putChar_eq (data : UInt8) (invert : Bool) (s : State cfg) :
    ∃ dirty, putChar data invert s = oledAdvanceChar
      { s with buffer := s.buffer.write s.cursor (glyph cfg data invert), dirty } := by
  rw [putChar]
  dsimp only
  split_ifs
  · exact ⟨_, rfl⟩
  · exact ⟨_, rfl⟩

theorem Holds.put {s : State cfg} {t : Text} (h : Holds s t) (data : UInt8) (invert : Bool) :
    Holds (putChar data invert s) (t.put cfg (glyph cfg data invert)) := by
  obtain ⟨dirty, hput⟩ := putChar_eq data invert s
  rw [hput, Text.put]
  obtain ⟨hline, hcol, hcursor, hcells, hmargin⟩ := h
  have hlength := length_glyph cfg data invert
  refine Holds.advance ⟨hline, hcol, hcursor, fun line hline' col hcol' => ?_, fun x hx => ?_⟩
  · dsimp only
    split_ifs with heq
    · obtain ⟨rfl, rfl⟩ := heq
      rw [← hcursor, ← hlength, Mem.read_write]
    · rw [Mem.read_write_disjoint, hcells line hline' col hcol']
      rw [hcursor, hlength]
      exact charIndex_disjoint hcol' hcol heq
  · dsimp only
    rcases Nat.lt_or_ge x s.cursor with hlt | hge
    · rw [Mem.write_of_lt _ _ hlt, hmargin x hx]
    · rw [Mem.write_of_ge, hmargin x hx]
      by_contra hlt
      rw [hlength, hcursor, not_le] at hlt
      rw [hcursor] at hge
      exact hx ⟨t.line, hline, t.col, hcol, hge, hlt⟩

theorem Holds.newline {s : State cfg} {t : Text} (h : Holds s t) :
    Holds (oledAdvancePage true s) (t.newline cfg) := by
  have hcount : (rotationWidth cfg - s.cursor % rotationWidth cfg) / cfg.fontWidth =
      maxChars cfg - t.col := by
    rw [h.cursor_eq, charIndex_mod h.col_lt, Nat.mul_comm, Nat.sub_mul_div_of_le, maxChars]
    rw [Nat.mul_comm]
    exact (Nat.le_add_right _ _).trans (col_mul_add_le h.col_lt)
  rw [oledAdvancePage, if_pos rfl, Text.newline, hcount]
  generalize maxChars cfg - t.col = n
  induction n with
  | zero => exact h
  | succ n ih =>
    rw [Function.iterate_succ_apply', Function.iterate_succ_apply']
    exact ih.put 0x20 false

theorem Holds.skip {s : State cfg} {t : Text} (h : Holds s t) :
    Holds (oledAdvancePage false s) (t.skip cfg) := by
  obtain ⟨hline, hcol, hcursor, hcells, hmargin⟩ := h
  refine ⟨Nat.mod_lt _ maxLines_pos, maxChars_pos cfg, ?_, hcells, hmargin⟩
  have hnext : s.cursor + (rotationWidth cfg - s.cursor % rotationWidth cfg) =
      (t.line + 1) * rotationWidth cfg := by
    have hmul := col_mul_add_le hcol
    rw [hcursor, charIndex_mod hcol, charIndex, Nat.succ_mul]
    omega
  rw [oledAdvancePage, if_neg (by decide)]
  dsimp only
  rw [hnext, cursor_of_next_line hline]
  rfl

theorem Holds.writeChar {s : State cfg} {t : Text} (h : Holds s t) (data : UInt8) (invert : Bool) :
    Holds (oledWriteChar data invert s) (t.writeChar cfg data invert) := by
  rw [oledWriteChar, Text.writeChar]
  split_ifs
  · exact h.newline
  · exact h.skip
  · exact h.put data invert

theorem Holds.write {s : State cfg} {t : Text} (h : Holds s t) (data : List UInt8)
    (invert : Bool) : Holds (oledWrite data invert s) (t.write cfg data invert) := by
  induction data generalizing s t with
  | nil => exact h
  | cons c data ih => exact ih (h.writeChar c invert)

theorem Holds.clear {s : State cfg} {t : Text} (h : Holds s t) :
    Holds (oledClear s) (t.apply cfg .clear) := by
  have hzero {x : ℕ} (hx : x < matrixSize cfg) :
      s.buffer.write 0 (List.replicate (matrixSize cfg) 0) x = 0 := by
    rw [Mem.write_of_mem _ (Nat.zero_le x) (by simpa using hx), List.getElem_replicate]
  refine ⟨maxLines_pos, maxChars_pos cfg, ?_, fun line hline col hcol => ?_, fun x hx => ?_⟩
  · simp [oledClear, Text.apply, charIndex]
  · have hend := charIndex_add_le hline hcol
    rw [oledClear, Text.apply, List.eq_replicate_iff]
    refine ⟨Mem.length_read _ _ _, fun b hb => ?_⟩
    obtain ⟨i, hi, rfl⟩ := List.mem_map.1 hb
    rw [List.mem_range] at hi
    exact hzero (by omega)
  · dsimp only [oledClear, Text.apply]
    split_ifs with hlt
    · exact hzero hlt
    · rw [Mem.write_of_ge _ _ (by simpa using hlt), h.margin_eq x hx]

theorem Holds.setCursor {s : State cfg} {t : Text} (h : Holds s t) {line col : ℕ}
    (hcol : col < maxChars cfg) :
    Holds (oledSetCursor col line s) (t.apply cfg (.setCursor col line)) := by
  obtain ⟨-, -, -, hcells, hmargin⟩ := h
  rw [Text.apply, oledSetCursor, ← charIndex]
  split_ifs with hout hline hline
  · have := charIndex_add_le hline hcol
    have := cfg.fontWidth_pos
    omega
  · exact ⟨maxLines_pos, maxChars_pos cfg, by simp [charIndex], hcells, hmargin⟩
  · exact ⟨hline, hcol, rfl, hcells, hmargin⟩
  · have hle := Nat.mul_le_mul_right (rotationWidth cfg) (Nat.le_of_not_lt hline)
    rw [maxLines_mul] at hle
    rw [charIndex] at hout
    omega

theorem Holds.apply {s : State cfg} {t : Text} (h : Holds s t) {d : Draw} (hd : d.IsText cfg) :
    Holds (d.apply s) (t.apply cfg d) := by
  cases d with
  | clear => exact h.clear
  | setCursor col line => exact h.setCursor hd
  | advancePage clear => cases clear with
    | false => exact h.skip
    | true => exact h.newline
  | advanceChar => exact h.advance
  | writeChar data invert => exact h.writeChar data invert
  | write data invert => exact h.write data invert
  | writeLn data invert => exact (h.write data invert).newline
  | pan => exact hd.elim
  | writeRawByte => exact hd.elim
  | writeRaw => exact hd.elim
  | writePixel => exact hd.elim

/-- Text calls keep to the grid, and each of them does to the page of text what it says. -/
theorem text_refines {s : State cfg} {t : Text} (h : Holds s t) {ds : List Draw}
    (hds : ∀ d ∈ ds, d.IsText cfg) :
    Holds (ds.foldl (fun s d => d.apply s) s) (ds.foldl (fun t d => t.apply cfg d) t) := by
  induction ds generalizing s t with
  | nil => exact h
  | cons d ds ih =>
    exact ih (h.apply (hds d List.mem_cons_self)) fun e he => hds e (List.mem_cons_of_mem _ he)

theorem text_refines_narrow :
    Holds
      ([.setCursor 4 7, .write [0x51, 0x4D, 0x4B] true].foldl (fun s d => Draw.apply d s)
        { buffer := fun _ => 0, screen := fun _ _ => 0 : State narrow })
      ([.setCursor 4 7, .write [0x51, 0x4D, 0x4B] true].foldl (fun t d => Text.apply narrow d t)
        ⟨fun _ _ => [0, 0, 0, 0, 0, 0], fun _ => 0, 0, 0⟩) := by
  refine text_refines ⟨by decide, by decide, rfl, fun _ _ _ _ => rfl, fun _ _ => rfl⟩
    fun d hd => ?_
  simp only [List.mem_cons, List.not_mem_nil, or_false] at hd
  rcases hd with rfl | rfl
  · exact (by decide : 4 < maxChars narrow)
  · trivial

end Grid

section Bounds

variable {cfg : Config}

/-- The calls that are given a column, or an index, in the buffer. -/
def Draw.IsInside (cfg : Config) : Draw → Prop
  | .setCursor col _ => col < maxChars cfg
  | .writeRawByte _ index => index < matrixSize cfg
  | _ => True

/-- The cursor is at a cell, and nothing is written after the buffer. -/
structure Inside (s t : State cfg) : Prop where
  cursor : ∃ line < maxLines cfg, ∃ col < maxChars cfg, t.cursor = charIndex cfg line col
  buffer_eq : ∀ x, matrixSize cfg ≤ x → t.buffer x = s.buffer x

theorem Inside.trans {s t u : State cfg} (h : Inside s t) (h' : Inside t u) : Inside s u where
  cursor := h'.cursor
  buffer_eq x hx := (h'.buffer_eq x hx).trans (h.buffer_eq x hx)

theorem Inside.holds {s t : State cfg} (h : Inside s t) : ∃ page, Holds t page := by
  obtain ⟨line, hline, col, hcol, hcursor⟩ := h.cursor
  exact ⟨⟨fun l c => t.buffer.read (charIndex cfg l c) cfg.fontWidth, t.buffer, line, col⟩,
    hline, hcol, hcursor, fun _ _ _ _ => rfl, fun _ _ => rfl⟩

@[simp] theorem Text.margin_advance (t : Text) : (t.advance cfg).margin = t.margin := by
  rw [Text.advance]
  split_ifs <;> rfl

@[simp] theorem Text.margin_put (bytes : List UInt8) (t : Text) :
    (t.put cfg bytes).margin = t.margin := by
  simp [Text.put]

@[simp] theorem Text.margin_newline (t : Text) : (t.newline cfg).margin = t.margin := by
  rw [Text.newline]
  generalize maxChars cfg - t.col = n
  induction n with
  | zero => rfl
  | succ n ih => rw [Function.iterate_succ_apply', Text.margin_put, ih]

@[simp] theorem Text.margin_writeChar (data : UInt8) (invert : Bool) (t : Text) :
    (t.writeChar cfg data invert).margin = t.margin := by
  rw [Text.writeChar]
  split_ifs
  · simp
  · rfl
  · simp

@[simp] theorem Text.margin_write (data : List UInt8) (invert : Bool) (t : Text) :
    (t.write cfg data invert).margin = t.margin := by
  induction data generalizing t with
  | nil => rfl
  | cons c data ih => exact (ih _).trans (t.margin_writeChar c invert)

theorem Text.margin_apply (d : Draw) (t : Text) {x : ℕ} (hx : matrixSize cfg ≤ x) :
    (t.apply cfg d).margin x = t.margin x := by
  cases d with
  | clear => exact if_neg (Nat.not_lt.2 hx)
  | setCursor =>
    rw [Text.apply]
    split_ifs <;> rfl
  | advancePage clear => cases clear with
    | false => rfl
    | true => simp [Text.apply]
  | _ => simp [Text.apply]

theorem Holds.inside {s s' : State cfg} {t : Text} (h : Holds s t) {d : Draw}
    (h' : Holds s' (t.apply cfg d)) : Inside s s' where
  cursor := ⟨_, h'.line_lt, _, h'.col_lt, h'.cursor_eq⟩
  buffer_eq x hx := by
    have hx' : ¬InCell cfg x := fun hcell => Nat.not_lt.2 hx hcell.lt
    rw [h'.margin_eq x hx', Text.margin_apply d t hx, h.margin_eq x hx']

/-- A step that leaves the cursor and what is after the buffer alone. -/
structure Stays (s t : State cfg) : Prop where
  cursor_eq : t.cursor = s.cursor
  buffer_eq : ∀ x, matrixSize cfg ≤ x → t.buffer x = s.buffer x

theorem Stays.refl (s : State cfg) : Stays s s := ⟨rfl, fun _ _ => rfl⟩

theorem Stays.trans {s t u : State cfg} (h : Stays s t) (h' : Stays t u) : Stays s u where
  cursor_eq := h'.cursor_eq.trans h.cursor_eq
  buffer_eq x hx := (h'.buffer_eq x hx).trans (h.buffer_eq x hx)

theorem setByte_stays {index : ℕ} (hindex : index < matrixSize cfg) (data : UInt8)
    (s : State cfg) : Stays s (setByte index data s) := by
  rw [setByte]
  split_ifs
  · exact .refl s
  · exact ⟨rfl, fun x hx => Mem.write_of_ge _ _ (show index + 1 ≤ x by omega)⟩

theorem oledWriteRaw_stays (data : List UInt8) {s : State cfg} (hs : s.cursor ≤ matrixSize cfg) :
    Stays s (oledWriteRaw data s) := by
  rw [oledWriteRaw]
  dsimp only
  refine List.foldlRecOn _ _ (Stays.refl s) fun t ht ⟨c, i⟩ hmem => ht.trans (setByte_stays ?_ c t)
  have hlt := List.snd_lt_add_of_mem_zipIdx hmem
  rw [List.length_take] at hlt
  dsimp only at hlt
  split_ifs at hlt <;> omega

theorem oledPan_stays (left : Bool) (s : State cfg) : Stays s (oledPan left s) := by
  refine ⟨rfl, fun x hx => ?_⟩
  rw [oledPan]
  dsimp only
  refine List.foldlRecOn (motive := fun m : Mem UInt8 => m x = s.buffer x) _ _ rfl
    fun m hm y hy => ?_
  have hrow : (y + 1) * cfg.width ≤ matrixSize cfg :=
    Nat.mul_le_mul_right _ (List.mem_range.1 hy)
  rw [Nat.succ_mul] at hrow
  split_ifs
  · refine List.foldlRecOn (motive := fun m : Mem UInt8 => m x = s.buffer x) _ _ hm
      fun m hm i hi => ?_
    have := List.mem_range.1 hi
    rw [Mem.write_of_ge _ _ (by simp; omega), hm]
  · refine List.foldrRecOn (motive := fun m : Mem UInt8 => m x = s.buffer x) _ _ hm
      fun m hm i hi => ?_
    have := List.mem_range.1 hi
    rw [Mem.write_of_ge _ _ (by simp; omega), hm]

theorem oledWritePixel_stays (x y : ℕ) (on : Bool) (s : State cfg) :
    Stays s (oledWritePixel x y on s) := by
  rw [oledWritePixel]
  dsimp only
  split_ifs with hout
  · exact .refl s
  · exact setByte_stays (by omega) _ s
  · exact setByte_stays (by omega) _ s

theorem Stays.inside {s t u : State cfg} (h : Stays t u) (hs : Inside s t) : Inside s u where
  cursor := by rw [h.cursor_eq]; exact hs.cursor
  buffer_eq x hx := (h.buffer_eq x hx).trans (hs.buffer_eq x hx)

theorem Draw.apply_inside {d : Draw} (hd : d.IsInside cfg) {s t : State cfg} (h : Inside s t) :
    Inside s (d.apply t) := by
  obtain ⟨page, hpage⟩ := h.holds
  have htext (hd : d.IsText cfg) : Inside s (d.apply t) := h.trans (hpage.inside (hpage.apply hd))
  cases d with
  | pan left => exact (oledPan_stays left t).inside h
  | writeRawByte data index =>
    refine (setByte_stays ?_ data t).inside h
    rw [if_neg (Nat.not_lt.2 (le_of_lt hd))]
    exact hd
  | writeRaw data =>
    refine (oledWriteRaw_stays data ?_).inside h
    have hend := charIndex_add_le hpage.line_lt hpage.col_lt
    rw [hpage.cursor_eq]
    omega
  | writePixel x y on => exact (oledWritePixel_stays x y on t).inside h
  | setCursor => exact htext hd
  | clear => exact htext trivial
  | advancePage => exact htext trivial
  | advanceChar => exact htext trivial
  | writeChar => exact htext trivial
  | write => exact htext trivial
  | writeLn => exact htext trivial

/-- Drawing stays inside the buffer when `oled_set_cursor` is only given columns that there are, and
`oled_write_raw_byte` indices. -/
theorem draws_inside (ds : List Draw) (hds : ∀ d ∈ ds, d.IsInside cfg) {s : State cfg}
    (hs : ∃ line < maxLines cfg, ∃ col < maxChars cfg, s.cursor = charIndex cfg line col) :
    (∃ line < maxLines cfg, ∃ col < maxChars cfg,
      (ds.foldl (fun s d => d.apply s) s).cursor = charIndex cfg line col) ∧
    ∀ x, matrixSize cfg ≤ x → (ds.foldl (fun s d => d.apply s) s).buffer x = s.buffer x := by
  suffices h : Inside s (ds.foldl (fun s d => d.apply s) s) from ⟨h.cursor, h.buffer_eq⟩
  exact List.foldlRecOn (motive := Inside s) ds _ ⟨hs, fun _ _ => rfl⟩
    fun t ht d hd => Draw.apply_inside (hds d hd) ht

theorem buffer_writeChar (col line : ℕ) {data : UInt8} (invert : Bool) (hdata : data ≠ 0x0A)
    (hdata' : data ≠ 0x0D) (s : State cfg) :
    (oledWriteChar data invert (oledSetCursor col line s)).buffer =
      s.buffer.write (if matrixSize cfg ≤ charIndex cfg line col then 0
        else charIndex cfg line col) (glyph cfg data invert) := by
  obtain ⟨dirty, hput⟩ := putChar_eq data invert (oledSetCursor col line s)
  rw [oledWriteChar, if_neg hdata, if_neg hdata', hput]
  rfl

theorem draws_inside_narrow :
    (∃ line < maxLines narrow, ∃ col < maxChars narrow,
      ([.setCursor 4 7, .write [0x51, 0x4D, 0x4B] true, .writeRawByte 0xFF 255].foldl
        (fun s d => Draw.apply d s)
        { buffer := fun _ => 0, screen := fun _ _ => 0 : State narrow }).cursor =
          charIndex narrow line col) ∧
    ∀ x, matrixSize narrow ≤ x →
      ([.setCursor 4 7, .write [0x51, 0x4D, 0x4B] true, .writeRawByte 0xFF 255].foldl
        (fun s d => Draw.apply d s)
        { buffer := fun _ => 0, screen := fun _ _ => 0 : State narrow }).buffer x = 0 := by
  refine draws_inside _ (fun d hd => ?_) ⟨0, by decide, 0, by decide, rfl⟩
  simp only [List.mem_cons, List.not_mem_nil, or_false] at hd
  rcases hd with rfl | rfl | rfl
  · exact (by decide : 4 < maxChars narrow)
  · trivial
  · exact (by decide : 255 < matrixSize narrow)

/-- The character that is written after a call of `oled_set_cursor`, whose column is not checked,
stays inside the buffer unless the column is one that only a part of the character has room for on
the last line. -/
theorem writeChar_inside_iff (col line : ℕ) {data : UInt8} (invert : Bool) (hdata : data ≠ 0x0A)
    (hdata' : data ≠ 0x0D) :
    (∀ s : State cfg, ∀ x, matrixSize cfg ≤ x →
      (oledWriteChar data invert (oledSetCursor col line s)).buffer x = s.buffer x) ↔
    charIndex cfg line col + cfg.fontWidth ≤ matrixSize cfg ∨
      matrixSize cfg ≤ charIndex cfg line col := by
  have hlength := length_glyph cfg data invert
  simp only [buffer_writeChar col line invert hdata hdata']
  constructor
  · intro h
    by_contra hover
    rw [not_or, not_le, not_le] at hover
    have hbyte : matrixSize cfg - charIndex cfg line col < (glyph cfg data invert).length := by
      omega
    -- a buffer with something else after its end than the character
    have hstate := h { buffer := fun _ => ~~~(glyph cfg data invert)[
      matrixSize cfg - charIndex cfg line col], screen := fun _ _ => 0 } _ le_rfl
    rw [if_neg (Nat.not_le.2 hover.2), Mem.write_of_mem _ hover.2.le hbyte] at hstate
    have hbit := congrArg (bit · 0) hstate
    simp [bit] at hbit
  · intro h s x hx
    have hwidth : charIndex cfg 0 0 + cfg.fontWidth ≤ matrixSize cfg :=
      charIndex_add_le maxLines_pos (maxChars_pos cfg)
    rw [Mem.write_of_ge]
    split_ifs <;> omega

theorem writeChar_inside_iff_narrow :
    (∀ s : State narrow, ∀ x, matrixSize narrow ≤ x →
      (oledWriteChar 0x51 false (oledSetCursor 5 7 s)).buffer x = s.buffer x) ↔
    charIndex narrow 7 5 + narrow.fontWidth ≤ matrixSize narrow ∨
      matrixSize narrow ≤ charIndex narrow 7 5 :=
  writeChar_inside_iff 5 7 false (by decide) (by decide)

end Bounds

end Qmk.Oled
