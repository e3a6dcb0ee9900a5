import Mathlib.Data.Int.Notation
import Mathlib.Logic.Function.Iterate
import Mathlib.Tactic.Common
import Qmk.Memory

/-! # An OLED display

The driver draws into a buffer and marks the blocks of it that change. The blocks that are marked
are sent to the display a few at a time, in parts of which each begins with a command that sets the
address. With `OLED_ROTATION_90` each square of eight by eight pixels is rotated on the way.
-/

namespace Qmk.Oled

/-- The build, and whether `oled_rotation` has `OLED_ROTATION_90`. The conditions hold of the
layouts in `oled_driver.h`. -/
structure Config where
  width : ℕ
  height : ℕ
  typeBits : ℕ
  blockCount : ℕ
  blockSize : ℕ
  columnOffset : ℕ := 0
  horizontalMode : Bool := true
  rotated : Bool := false
  fontWidth : ℕ := 6
  fontStart : ℕ := 0
  fontEnd : ℕ := 223
  font : ℕ → UInt8
  updateLimit : ℕ := 1
  blockSize_ok : 0 < blockSize ∧ 8 ∣ blockSize := by decide
  dvd_width : blockSize ∣ width := by decide
  dvd_height : blockSize ∣ height := by decide
  blocks : blockCount * blockSize = height / 8 * width := by decide
  count_ok : 0 < blockCount ∧ blockCount ≤ typeBits := by decide
  width_le : columnOffset + width ≤ 256 := by decide
  width_lt : width < 256 := by decide
  height_le : height ≤ 128 := by decide
  fontWidth_ok : 0 < fontWidth ∧ fontWidth ≤ blockSize := by decide

theorem Config.blockSize_pos (cfg : Config) : 0 < cfg.blockSize := cfg.blockSize_ok.1

theorem Config.eight_dvd (cfg : Config) : 8 ∣ cfg.blockSize := cfg.blockSize_ok.2

theorem Config.count_pos (cfg : Config) : 0 < cfg.blockCount := cfg.count_ok.1

theorem Config.count_le (cfg : Config) : cfg.blockCount ≤ cfg.typeBits := cfg.count_ok.2

theorem Config.fontWidth_pos (cfg : Config) : 0 < cfg.fontWidth := cfg.fontWidth_ok.1

theorem Config.fontWidth_le (cfg : Config) : cfg.fontWidth ≤ cfg.blockSize := cfg.fontWidth_ok.2

/-- `OLED_DISPLAY_64X32`, turned by 90 degrees. -/
def narrow : Config :=
  { width := 64, height := 32, typeBits := 8, blockCount := 8, blockSize := 32, columnOffset := 32
    rotated := true, font := UInt8.ofNat }

section Geometry

variable (cfg : Config)

def matrixSize : ℕ := cfg.height / 8 * cfg.width

def rotationWidth : ℕ := if cfg.rotated then cfg.height else cfg.width

/-- `(OLED_BLOCK_TYPE)1 << b`. -/
def blockBit (b : ℕ) : BitVec cfg.typeBits := (1 : BitVec cfg.typeBits) <<< b

def allBlocksMask : BitVec cfg.typeBits := ((blockBit cfg (cfg.blockCount - 1) - 1) <<< 1) ||| 1

end Geometry

abbrev Screen := ℕ → ℕ → UInt8

/-- The variables of the driver, the display, and how often something has been sent to it. -/
structure State (cfg : Config) where
  buffer : Mem UInt8
  cursor : ℕ := 0
  dirty : BitVec cfg.typeBits := 0
  initialized : Bool := false
  active : Bool := false
  scrolling : Bool := false
  inverted : Bool := false
  screen : Screen
  sends : ℕ := 0

section Drawing

variable {cfg : Config}

/-- `oled_dirty |= ((OLED_BLOCK_TYPE)1 << (index / OLED_BLOCK_SIZE))`. -/
def State.mark (s : State cfg) (index : ℕ) : State cfg :=
  { s with dirty := s.dirty ||| blockBit cfg (index / cfg.blockSize) }

def oledClear (s : State cfg) : State cfg :=
  { s with
    buffer := s.buffer.write 0 (List.replicate (matrixSize cfg) 0)
    cursor := 0
    dirty := allBlocksMask cfg }

def oledSetCursor (col line : ℕ) (s : State cfg) : State cfg :=
  let index := line * rotationWidth cfg + col * cfg.fontWidth
  { s with cursor := if matrixSize cfg ≤ index then 0 else index }

def oledAdvanceChar (s : State cfg) : State cfg :=
  let nextIndex := s.cursor + cfg.fontWidth
  let remainingSpace := rotationWidth cfg - nextIndex % rotationWidth cfg
  let nextIndex := if remainingSpace < cfg.fontWidth then nextIndex + remainingSpace else nextIndex
  { s with cursor := if matrixSize cfg ≤ nextIndex then 0 else nextIndex }

/-- The bytes of a character, with `InvertCharacter`. -/
def glyph (cfg : Config) (data : UInt8) (invert : Bool) : List UInt8 :=
  let c := data.toNat
  let bytes := if c < cfg.fontStart ∨ cfg.fontEnd < c then List.replicate cfg.fontWidth 0
    else (List.range cfg.fontWidth).map fun i => cfg.font ((c - cfg.fontStart) * cfg.fontWidth + i)
  if invert then bytes.map (~~~ ·) else bytes

theorem length_glyph (cfg : Config) (data : UInt8) (invert : Bool) :
    (glyph cfg data invert).length = cfg.fontWidth := by
  rw [glyph]
  split_ifs <;> simp

/-- `oled_write_char` for a character that does not end a line. -/
def putChar (data : UInt8) (invert : Bool) (s : State cfg) : State cfg :=
  let bytes := glyph cfg data invert
  let changed := s.buffer.read s.cursor cfg.fontWidth ≠ bytes
  let s := { s with buffer := s.buffer.write s.cursor bytes }
  let s := if changed then (s.mark s.cursor).mark (s.cursor + cfg.fontWidth - 1) else s
  oledAdvanceChar s

def oledAdvancePage (clearPageRemainder : Bool) (s : State cfg) : State cfg :=
  let remaining := rotationWidth cfg - s.cursor % rotationWidth cfg
  if clearPageRemainder then (putChar 0x20 false)^[remaining / cfg.fontWidth] s
  else { s with
    cursor := if matrixSize cfg ≤ s.cursor + remaining then 0 else s.cursor + remaining }

def oledWriteChar (data : UInt8) (invert : Bool) (s : State cfg) : State cfg :=
  -- '\n' and '\r'
  if data = 0x0A then oledAdvancePage true s
  else if data = 0x0D then oledAdvancePage false s
  else putChar data invert s

def oledWrite (data : List UInt8) (invert : Bool) (s : State cfg) : State cfg :=
  data.foldl (fun s c => oledWriteChar c invert s) s

def oledWriteLn (data : List UInt8) (invert : Bool) (s : State cfg) : State cfg :=
  oledAdvancePage true (oledWrite data invert s)

/-- `oled_pan`, which moves each row of the buffer by a byte. -/
def oledPan (left : Bool) (s : State cfg) : State cfg :=
  let move (dest source : ℕ) (m : Mem UInt8) : Mem UInt8 := m.write dest [m source]
  let row (m : Mem UInt8) (y : ℕ) : Mem UInt8 :=
    if left then (List.range (cfg.width - 1)).foldl
      (fun m x => move (y * cfg.width + x) (y * cfg.width + x + 1) m) m
    else (List.range (cfg.width - 1)).foldr
      (fun x m => move (y * cfg.width + x + 1) (y * cfg.width + x) m) m
  { s with buffer := (List.range (cfg.height / 8)).foldl row s.buffer, dirty := allBlocksMask cfg }

def setByte (index : ℕ) (data : UInt8) (s : State cfg) : State cfg :=
  if s.buffer index = data then s
  else { s with buffer := s.buffer.write index [data] }.mark index

def oledWriteRawByte (data : UInt8) (index : ℕ) (s : State cfg) : State cfg :=
  setByte (if matrixSize cfg < index then matrixSize cfg else index) data s

/-- `oled_write_raw`, which leaves out what does not fit. -/
def oledWriteRaw (data : List UInt8) (s : State cfg) : State cfg :=
  let size := if matrixSize cfg < data.length + s.cursor then matrixSize cfg - s.cursor
    else data.length
  ((data.take size).zipIdx s.cursor).foldl (fun s (c, i) => setByte i c s) s

def oledWritePixel (x y : ℕ) (on : Bool) (s : State cfg) : State cfg :=
  let index := x + y / 8 * rotationWidth cfg
  if rotationWidth cfg ≤ x ∨ matrixSize cfg ≤ index then s
  else
    let bit : UInt8 := 1 <<< UInt8.ofNat (y % 8)
    let data := s.buffer index
    setByte index (if on then data ||| bit else data &&& ~~~ bit) s

end Drawing

section Sending

/-- The outcome of a transfer, with what one that fails leaves on the display. -/
inductive Send
  | ok
  | failed (left : Screen)

abbrev Bus := ℕ → Send

/-- The place on the display that a command has set, from its first page and column on. -/
structure Window where
  page : ℕ
  pages : ℕ
  column : ℕ
  columns : ℕ
  deriving DecidableEq

/-- What the display makes of a command that sets the address. -/
def decodeWindow : List UInt8 → Window
  -- COLUMN_ADDR and PAGE_ADDR, with the first and the last one of each
  | [_, columnStart, columnEnd, _, pageStart, pageEnd] =>
    { page := pageStart.toNat
      pages := pageEnd.toNat + 1 - pageStart.toNat
      column := columnStart.toNat
      columns := columnEnd.toNat + 1 - columnStart.toNat }
  -- PAM_PAGE_ADDR, PAM_SETCOLUMN_LSB and PAM_SETCOLUMN_MSB, without an end of the columns
  | [page, lsb, msb] =>
    { page := page.toNat % 16
      pages := 1
      column := msb.toNat % 16 * 16 + lsb.toNat % 16
      columns := 256 }
  | _ => ⟨0, 0, 0, 0⟩

/-- The number of the byte that goes to a page and column. -/
def Window.index (win : Window) (p c : ℕ) : Option ℕ :=
  if win.page ≤ p ∧ p < win.page + win.pages ∧ win.column ≤ c ∧ c < win.column + win.columns then
    some ((p - win.page) * win.columns + (c - win.column))
  else none

/-- The display after some data has been sent. -/
def Window.put (win : Window) (data : List UInt8) (screen : Screen) : Screen := fun p c =>
  ((win.index p c).bind (data[·]?)).getD (screen p c)

/-- A transfer that fails leaves anything where it would have put the data. -/
def Window.disturb (win : Window) (data : List UInt8) (left screen : Screen) : Screen := fun p c =>
  if ((win.index p c).bind (data[·]?)).isSome then left p c else screen p c

variable {cfg : Config} (bus : Bus)

def oledSendCmd (s : State cfg) : Bool × State cfg :=
  let t := { s with sends := s.sends + 1 }
  match bus s.sends with
  | .ok => (true, t)
  | .failed _ => (false, t)

def oledSendData (win : Window) (data : List UInt8) (s : State cfg) : Bool × State cfg :=
  let t := { s with sends := s.sends + 1 }
  match bus s.sends with
  | .ok => (true, { t with screen := win.put data s.screen })
  | .failed left => (false, { t with screen := win.disturb data left s.screen })

def oledOn (s : State cfg) : State cfg :=
  if !s.initialized || s.active then s
  else
    let (okay, s) := oledSendCmd bus s
    if okay then { s with active := true } else s

def oledOff (s : State cfg) : State cfg :=
  if !s.initialized || !s.active then s
  else
    let (okay, s) := oledSendCmd bus s
    if okay then { s with active := false } else s

def oledScroll (s : State cfg) : State cfg :=
  if s.initialized && s.dirty = 0 && !s.scrolling then
    let (okay, s) := oledSendCmd bus s
    if okay then { s with scrolling := true } else s
  else s

def oledScrollOff (s : State cfg) : State cfg :=
  if s.initialized && s.scrolling then
    let (okay, s) := oledSendCmd bus s
    if okay then { s with scrolling := false, dirty := allBlocksMask cfg } else s
  else s

def oledInvert (invert : Bool) (s : State cfg) : State cfg :=
  if s.initialized && invert != s.inverted then
    let (okay, s) := oledSendCmd bus s
    if okay then { s with inverted := invert } else s
  else s

/-- `oled_init`, which sends three commands before it clears the buffer. -/
def oledInit (s : State cfg) : State cfg :=
  match oledSendCmd bus s with
  | (false, s) => s
  | (true, s) =>
    match oledSendCmd bus s with
    | (false, s) => s
    | (true, s) =>
      match oledSendCmd bus s with
      | (false, s) => s
      | (true, s) =>
        { oledClear s with initialized := true, active := true, scrolling := false }

end Sending

section Rendering

variable (cfg : Config)

/-- The bytes of a command that sets the address, with `OLED_COLUMN_OFFSET`. -/
def addressBytes (page pageEnd column columnEnd : ℕ) : List UInt8 :=
  let column := cfg.columnOffset + column
  if cfg.horizontalMode then
    [0x21, .ofNat column, .ofNat (cfg.columnOffset + columnEnd), 0x22, .ofNat page, .ofNat pageEnd]
  else [.ofNat (0xB0 ||| page), .ofNat (0x00 ||| column &&& 0x0F),
    .ofNat (0x10 ||| column >>> 4 &&& 0x0F)]

def calcBounds (updateStart : ℕ) : List UInt8 :=
  let page := cfg.blockSize * updateStart / cfg.width
  let column := cfg.blockSize * updateStart % cfg.width
  addressBytes cfg page ((cfg.blockSize + cfg.width - 1) / cfg.width - 1 + page) column
    ((cfg.blockSize + cfg.width - 1) % cfg.width + column)

def calcBounds90 (updateStart : ℕ) : List UInt8 :=
  let heightInPages := cfg.height / 8
  let pageIncPerBlock := cfg.blockSize % cfg.height / 8
  let bottomBlockTopPage := (heightInPages - pageIncPerBlock) % heightInPages
  let page := bottomBlockTopPage - cfg.blockSize * updateStart % cfg.height / 8
  let column := cfg.blockSize * updateStart / cfg.height * 8
  addressBytes cfg page ((cfg.blockSize + cfg.height - 1) % cfg.height / 8 + page) column
    ((cfg.blockSize + cfg.height - 1) / cfg.height * 8 - 1 + column)

def crot (a : UInt8) (n : ℤ) : UInt8 :=
  a <<< UInt8.ofNat (n % 8).toNat ||| a >>> UInt8.ofNat (-(n % 8) % 8).toNat

/-- A byte of `rotate_90`, from the bits with its number of eight bytes. -/
def rotate90 (src : ℕ → UInt8) (i : ℕ) : UInt8 :=
  (List.range 8).foldl (fun dest j => dest ||| crot (src j &&& (1 <<< UInt8.ofNat i)) (7 - i - j)) 0

/-- `OLED_SOURCE_MAP` and `OLED_TARGET_MAP`. -/
def rotationMaps : List (ℕ × ℕ) :=
  (List.range (cfg.blockSize / 8)).map fun i => (8 * i, cfg.blockSize - 8 - 8 * i)

/-- `rotate_90` from a square of the buffer to one of `temp_buffer`. -/
def rotateSquare (src : Mem UInt8) (temp : Mem UInt8) (square : ℕ × ℕ) : Mem UInt8 :=
  temp.write square.2 ((List.range 8).map fun i =>
    temp (square.2 + i) ||| rotate90 (fun j => src (square.1 + j)) i)

/-- `temp_buffer`, with the squares of a block rotated. -/
def rotatedBlock (buffer : Mem UInt8) (updateStart : ℕ) : List UInt8 :=
  let src k := buffer (cfg.blockSize * updateStart + k)
  let temp := (rotationMaps cfg).foldl (rotateSquare src) fun _ => 0
  temp.read 0 cfg.blockSize

def pieces (buffer : Mem UInt8) (updateStart : ℕ) : List (List UInt8 × List UInt8) :=
  if !cfg.rotated then
    [(calcBounds cfg updateStart, buffer.read (cfg.blockSize * updateStart) cfg.blockSize)]
  else
    let temp := rotatedBlock cfg buffer updateStart
    let command := calcBounds90 cfg updateStart
    if cfg.horizontalMode then [(command, temp)]
    else
      let columnsInBlock := (cfg.blockSize + cfg.height - 1) / cfg.height * 8
      (List.range (cfg.blockSize / columnsInBlock)).map fun i =>
        (command.modifyHead (· + UInt8.ofNat i),
          (temp.drop (columnsInBlock * i)).take columnsInBlock)

variable {cfg} (bus : Bus)

/-- The transfers of a block, up to the first one that fails. -/
def sendPieces : List (List UInt8 × List UInt8) → State cfg → Bool × State cfg
  | [], s => (true, s)
  | (command, data) :: pieces, s =>
    match oledSendCmd bus s with
    | (false, s) => (false, s)
    | (true, s) =>
      match oledSendData bus (decodeWindow command) data s with
      | (false, s) => (false, s)
      | (true, s) => sendPieces pieces s

def nextDirty (dirty : BitVec cfg.typeBits) : ℕ → ℕ → ℕ
  | 0, updateStart => updateStart
  | fuel + 1, updateStart =>
    if dirty.getLsbD updateStart then updateStart else nextDirty dirty fuel (updateStart + 1)

/-- The loop of `oled_render_dirty`, which clears the mark of a block in each pass. -/
def renderLoop (all : Bool) : ℕ → ℕ → ℕ → State cfg → State cfg
  | 0, _, _, s => s
  | fuel + 1, updateStart, numProcessed, s =>
    if s.dirty ≠ 0 ∧ (numProcessed < cfg.updateLimit ∨ all = true) then
      let updateStart := nextDirty s.dirty cfg.typeBits updateStart
      match sendPieces bus (pieces cfg s.buffer updateStart) s with
      | (false, s) => s
      | (true, s) =>
        renderLoop all fuel updateStart (numProcessed + 1)
          { s with dirty := s.dirty &&& ~~~ blockBit cfg updateStart }
    else s

def oledRenderDirty (all : Bool) (s : State cfg) : State cfg :=
  let s := { s with dirty := s.dirty &&& allBlocksMask cfg }
  if s.dirty = 0 ∨ s.initialized = false ∨ s.scrolling = true then s
  else renderLoop bus all cfg.typeBits 0 0 (oledOn bus s)

end Rendering

section Runs

/-- A call that draws into the buffer. -/
inductive Draw
  | clear
  | setCursor (col line : ℕ)
  | advancePage (clearPageRemainder : Bool)
  | advanceChar
  | writeChar (data : UInt8) (invert : Bool)
  | write (data : List UInt8) (invert : Bool)
  | writeLn (data : List UInt8) (invert : Bool)
  | pan (left : Bool)
  | writeRawByte (data : UInt8) (index : ℕ)
  | writeRaw (data : List UInt8)
  | writePixel (x y : ℕ) (on : Bool)

variable {cfg : Config}

def Draw.apply : Draw → State cfg → State cfg
  | .clear => oledClear
  | .setCursor col line => oledSetCursor col line
  | .advancePage clearPageRemainder => oledAdvancePage clearPageRemainder
  | .advanceChar => oledAdvanceChar
  | .writeChar data invert => oledWriteChar data invert
  | .write data invert => oledWrite data invert
  | .writeLn data invert => oledWriteLn data invert
  | .pan left => oledPan left
  | .writeRawByte data index => oledWriteRawByte data index
  | .writeRaw data => oledWriteRaw data
  | .writePixel x y on => oledWritePixel x y on

/-- A call of the driver, or what a display that scrolls does to its memory. -/
inductive Op
  | draw (d : Draw)
  | init
  | on
  | off
  | scroll
  | scrollOff
  | invert (inverted : Bool)
  | renderDirty (all : Bool)
  | scrolled (screen : Screen)

def Op.apply (bus : Bus) : Op → State cfg → State cfg
  | .draw d, s => d.apply s
  | .init, s => oledInit bus s
  | .on, s => oledOn bus s
  | .off, s => oledOff bus s
  | .scroll, s => oledScroll bus s
  | .scrollOff, s => oledScrollOff bus s
  | .invert inverted, s => oledInvert bus inverted s
  | .renderDirty all, s => oledRenderDirty bus all s
  | .scrolled screen, s => if s.scrolling then { s with screen } else s

def run (bus : Bus) (ops : List Op) (s : State cfg) : State cfg :=
  ops.foldl (fun s op => op.apply bus s) s

end Runs

end Qmk.Oled
