import Qmk.I2cEeprom
import Qmk.NorMemory

/-! # An external flash memory

The driver waits for the chip, enables writes, and sends a command. The chip ignores what it is sent
while it is busy, programs and erases only when writes are enabled, and keeps a program command in
its page. Each use of the bus can fail, and the driver gives up at the first one that does.
-/

namespace Qmk.SpiFlash

open I2cEeprom NorMemory

/-- The build, with the sizes in bytes. -/
structure Config where
  addressSize : ℕ
  pageSize : ℕ
  blockSize : ℕ
  size : ℕ
  pageSize_pos : 0 < pageSize

section Chip

/-- The commands of `spi_flash_transaction`, with the data that goes either way. -/
inductive Command
  | read (len : ℕ)
  | pageProgram (data : List UInt8)
  | blockErase

/-- The memory, the write enable latch, and whether a command is in progress. -/
structure Chip where
  cells : Mem UInt8
  writeEnabled : Bool := false
  busy : Bool := false

variable (cfg : Config)

/-- The bytes from number `i` on of those that are programmed at `loc`, inside its page. -/
def programPage (loc : ℕ) : ℕ → List UInt8 → Mem UInt8 → Mem UInt8
  | _, [], cells => cells
  | i, b :: data, cells =>
    programPage loc (i + 1) data
      (cells.program (loc / cfg.pageSize * cfg.pageSize + (loc % cfg.pageSize + i) % cfg.pageSize)
        [b])

def Command.unit : Command → ℕ
  | .read _ => 0
  | .pageProgram _ => cfg.pageSize
  | .blockErase => cfg.blockSize

def Command.apply (loc : ℕ) : Command → Mem UInt8 → Mem UInt8
  | .read _, cells => cells
  | .pageProgram data, cells => programPage cfg loc 0 data cells
  | .blockErase, cells => cells.erase (loc / cfg.blockSize * cfg.blockSize) cfg.blockSize

/-- A command that fails leaves anything in its page or block, where programming does not set a
bit. -/
def Command.disturb (loc : ℕ) (left : Mem UInt8) : Command → Mem UInt8 → Mem UInt8
  | .read _, cells => cells
  | .pageProgram data, cells => fun x =>
    if x / cfg.pageSize = loc / cfg.pageSize ∧ data ≠ [] then cells x &&& left x else cells x
  | c, cells => fun x => if x / c.unit cfg = loc / c.unit cfg then left x else cells x

def Command.changes : Command → Bool
  | .read _ => false
  | _ => true

/-- A command that changes the memory needs the latch, and resets it. -/
def Chip.execute (chip : Chip) (cmd : Command) (f : Mem UInt8 → Mem UInt8) : Chip :=
  if chip.busy ∨ chip.writeEnabled = false ∨ cmd.changes = false then chip
  else { cells := f chip.cells, writeEnabled := false, busy := true }

def Chip.setLatch (chip : Chip) (enabled : Bool) : Chip :=
  if chip.busy then chip else { chip with writeEnabled := enabled }

end Chip

section Bus

inductive Status
  | success
  | error
  | timeout
  deriving DecidableEq

/-- A read of the status register: whether `spi_start` succeeds, `FLASH_FLAG_WIP`, and the time
after it. -/
structure Poll where
  started : Bool
  wip : Bool
  time : UInt32

/-- The loop of `spi_flash_wait_while_busy`, which has no value while it goes on. -/
def waitLoop (deadline : UInt32) : List Poll → Option Status
  | [] => none
  | p :: polls =>
    if !p.started then some .error
    else if deadline ≤ p.time then some .timeout
    else if p.wip then waitLoop deadline polls
    else some .success

def spiFlashWaitWhileBusy (begin : UInt32) (polls : List Poll) : Option Status :=
  waitLoop (begin + 1000) polls

structure Wait where
  begin : UInt32
  polls : List Poll
  status : Status
  ends : spiFlashWaitWhileBusy begin polls = some status

/-- The outcome of a transaction, with what one that fails leaves behind. -/
inductive Transfer
  | notStarted
  | failed (left : Mem UInt8)
  | ok

/-- What the bus does, by the number of times that it has been used before. -/
structure Bus where
  starts : ℕ → Bool
  waits : ℕ → Wait
  transfers : ℕ → Transfer

/-- The chip, and how often the bus has been used. -/
structure State where
  chip : Chip
  uses : ℕ := 0

/-- `if (response != FLASH_STATUS_SUCCESS) return response;` before the rest of a function. -/
def andThen (r : Status × State) (k : State → Status × State) : Status × State :=
  if r.1 = .success then k r.2 else r

variable (cfg : Config) (bus : Bus)

def wait (s : State) : Status × State :=
  let status := (bus.waits s.uses).status
  let chip := if status = .success then { s.chip with busy := false } else s.chip
  (status, { chip, uses := s.uses + 1 })

/-- `spi_flash_write_enable` and `spi_flash_write_disable`. -/
def setLatch (enabled : Bool) (s : State) : Status × State :=
  if bus.starts s.uses then (.success, { chip := s.chip.setLatch enabled, uses := s.uses + 1 })
  else (.error, { s with uses := s.uses + 1 })

def spiFlashWriteEnable (s : State) : Status × State := setLatch bus true s

def spiFlashWriteDisable (s : State) : Status × State := setLatch bus false s

/-- `spi_flash_transaction`. The chip puts the address together from the bytes that are sent. -/
def spiFlashTransaction (cmd : Command) (addr : ℕ) (s : State) : Status × State :=
  let loc := wordAddress (targetAddress cfg.addressSize addr)
  let uses := s.uses + 1
  match bus.transfers s.uses with
  | .notStarted => (.error, { s with uses })
  | .failed left => (.error, { chip := s.chip.execute cmd (cmd.disturb cfg loc left), uses })
  | .ok => (.success, { chip := s.chip.execute cmd (cmd.apply cfg loc), uses })

end Bus

section Driver

variable (cfg : Config) (bus : Bus)

def flashEraseBlock (addr : ℕ) (s : State) : Status × State :=
  if cfg.size ≤ addr + cfg.blockSize ∨ addr % cfg.blockSize ≠ 0 then (.error, s)
  else
    andThen (wait bus s) fun s => andThen (spiFlashWriteEnable bus s) fun s =>
      andThen (spiFlashTransaction cfg bus .blockErase addr s) fun s => wait bus s

/-- `flash_read_block`, which returns zeros if it fails. -/
def flashReadBlock (addr len : ℕ) (s : State) : Status × List UInt8 × State :=
  let r := andThen (wait bus s) fun s => spiFlashTransaction cfg bus (.read len) addr s
  let loc := wordAddress (targetAddress cfg.addressSize addr)
  (r.1, if r.1 = .success then r.2.chip.cells.read loc len else List.replicate len 0, r.2)

/-- The loop of `flash_write_block`, each pass of which sends at least one byte. -/
def writeLoop : ℕ → ℕ → List UInt8 → State → Status × State
  | 0, _, _, s => (.success, s)
  | fuel + 1, addr, data, s =>
    if data = [] then (.success, s)
    else
      let n := min (cfg.pageSize - addr % cfg.pageSize) data.length
      andThen (wait bus s) fun s => andThen (spiFlashWriteEnable bus s) fun s =>
        andThen (spiFlashTransaction cfg bus (.pageProgram (data.take n)) addr s) fun s =>
          writeLoop fuel (addr + n) (data.drop n) s

def flashWriteBlock (addr : ℕ) (data : List UInt8) (s : State) : Status × State :=
  andThen (writeLoop cfg bus data.length addr data s) fun s =>
    andThen (wait bus s) fun s => spiFlashWriteDisable bus s

end Driver

section Steps

variable {cfg : Config} {bus : Bus} {s t : State} {r : Status × State}
  {k : State → Status × State} {cmd : Command} {addr : ℕ}

theorem andThen_eq_success :
    andThen r k = (.success, t) ↔ r.1 = .success ∧ k r.2 = (.success, t) := by
  rw [andThen]
  split_ifs with h
  · exact (and_iff_right h).symm
  · exact ⟨fun hr => absurd (congrArg Prod.fst hr) h, fun hr => absurd hr.1 h⟩

theorem wait_success (h : (wait bus s).1 = .success) :
    (wait bus s).2.chip = { s.chip with busy := false } := if_pos h

theorem setLatch_success {enabled : Bool} (h : (setLatch bus enabled s).1 = .success) :
    (setLatch bus enabled s).2.chip = s.chip.setLatch enabled := by
  rw [setLatch] at h ⊢
  split_ifs at h ⊢
  rfl

theorem location_eq (h : addr < 256 ^ cfg.addressSize) :
    wordAddress (targetAddress cfg.addressSize addr) = addr := by
  rw [wordAddress_targetAddress, Nat.mod_eq_of_lt h]

theorem transaction_success (haddr : addr < 256 ^ cfg.addressSize)
    (h : (spiFlashTransaction cfg bus cmd addr s).1 = .success) :
    (spiFlashTransaction cfg bus cmd addr s).2.chip =
      s.chip.execute cmd (cmd.apply cfg addr) := by
  rw [spiFlashTransaction, location_eq haddr] at h ⊢
  cases htransfer : bus.transfers s.uses with
  | ok => rfl
  | notStarted => simp [htransfer] at h
  | failed left => simp [htransfer] at h

theorem command_success (haddr : addr < 256 ^ cfg.addressSize) (hcmd : cmd.changes = true)
    (h : andThen (wait bus s) (fun s => andThen (spiFlashWriteEnable bus s) fun s =>
      andThen (spiFlashTransaction cfg bus cmd addr s) k) = (.success, t)) :
    ∃ u : State, u.chip = ⟨cmd.apply cfg addr s.chip.cells, false, true⟩ ∧
      k u = (.success, t) := by
  obtain ⟨hwait, h⟩ := andThen_eq_success.1 h
  obtain ⟨henable, h⟩ := andThen_eq_success.1 h
  obtain ⟨htransaction, h⟩ := andThen_eq_success.1 h
  refine ⟨_, ?_, h⟩
  rw [transaction_success haddr htransaction, spiFlashWriteEnable, setLatch_success henable,
    wait_success hwait]
  simp [Chip.setLatch, Chip.execute, hcmd]

variable {R : Mem UInt8 → Mem UInt8 → Prop} {m : Mem UInt8}

theorem andThen_rel (htrans : ∀ {a b c}, R a b → R b c → R a c) (h : R m r.2.chip.cells)
    (hk : ∀ u, R u.chip.cells (k u).2.chip.cells) : R m (andThen r k).2.chip.cells := by
  rw [andThen]
  split_ifs
  · exact htrans h (hk _)
  · exact h

theorem cells_wait : (wait bus s).2.chip.cells = s.chip.cells := by
  rw [wait]
  dsimp only
  split_ifs <;> rfl

theorem cells_setLatch {enabled : Bool} :
    (setLatch bus enabled s).2.chip.cells = s.chip.cells := by
  rw [setLatch]
  split_ifs
  · rw [Chip.setLatch]
    split_ifs <;> rfl
  · rfl

theorem execute_rel (hrefl : ∀ a, R a a) {f : Mem UInt8 → Mem UInt8}
    (hf : R s.chip.cells (f s.chip.cells)) :
    R s.chip.cells (s.chip.execute cmd f).cells := by
  rw [Chip.execute]
  split_ifs
  · exact hrefl _
  · exact hf

/-- Whatever the bus does, a command does to the memory what it does when it is carried out or
fails. -/
theorem command_rel (hrefl : ∀ a, R a a) (htrans : ∀ {a b c}, R a b → R b c → R a c)
    (haddr : addr < 256 ^ cfg.addressSize) (happly : ∀ m, R m (cmd.apply cfg addr m))
    (hdisturb : ∀ left m, R m (cmd.disturb cfg addr left m))
    (hk : ∀ u, R u.chip.cells (k u).2.chip.cells) :
    R s.chip.cells (andThen (wait bus s) fun s => andThen (spiFlashWriteEnable bus s) fun s =>
      andThen (spiFlashTransaction cfg bus cmd addr s) k).2.chip.cells := by
  refine andThen_rel htrans (by rw [cells_wait]; exact hrefl _) fun s => ?_
  refine andThen_rel htrans (by rw [spiFlashWriteEnable, cells_setLatch]; exact hrefl _)
    fun s => ?_
  refine andThen_rel htrans ?_ hk
  rw [spiFlashTransaction, location_eq haddr]
  cases bus.transfers s.uses with
  | ok => exact execute_rel hrefl (happly _)
  | notStarted => exact hrefl _
  | failed left => exact execute_rel hrefl (hdisturb left _)

end Steps

section Write

variable {cfg : Config} {bus : Bus} {s t : State} {addr fuel : ℕ} {data : List UInt8}

theorem programPage_eq_program {i : ℕ} {cells : Mem UInt8}
    (h : addr % cfg.pageSize + i + data.length ≤ cfg.pageSize) :
    programPage cfg addr i data cells = cells.program (addr + i) data := by
  induction data generalizing i cells with
  | nil => rw [programPage, program_nil]
  | cons b data ih =>
    rw [List.length_cons] at h
    have hplace : addr / cfg.pageSize * cfg.pageSize + (addr % cfg.pageSize + i) % cfg.pageSize =
        addr + i := by
      rw [Nat.mod_eq_of_lt (by omega), ← Nat.add_assoc, Nat.div_add_mod']
    rw [programPage, hplace, ih (by omega)]
    exact program_append.symm

/-- A block that is written has been programmed at its place, however it lies in the pages. -/
theorem writeLoop_success (hfuel : data.length ≤ fuel)
    (haddr : addr + data.length ≤ 256 ^ cfg.addressSize)
    (h : writeLoop cfg bus fuel addr data s = (.success, t)) :
    t.chip.cells = s.chip.cells.program addr data := by
  induction fuel generalizing addr data s with
  | zero =>
    obtain rfl := List.eq_nil_of_length_eq_zero (Nat.le_zero.1 hfuel)
    rw [program_nil]
    exact congrArg (fun r => r.2.chip.cells) h.symm
  | succ fuel ih =>
    rw [writeLoop] at h
    split_ifs at h with hempty
    · rw [hempty, program_nil]
      exact congrArg (fun r => r.2.chip.cells) h.symm
    · have hpos := List.length_pos_iff.2 hempty
      have hpage := Nat.mod_lt addr cfg.pageSize_pos
      dsimp only at h
      set n := min (cfg.pageSize - addr % cfg.pageSize) data.length with hn
      obtain ⟨u, hu, h⟩ := command_success (by omega) rfl h
      have hcells : u.chip.cells = s.chip.cells.program addr (data.take n) := by
        rw [hu]
        exact programPage_eq_program (by rw [List.length_take]; omega)
      have hlength : (data.take n).length = n := by
        rw [List.length_take]
        omega
      have happend := program_append (m := s.chip.cells) (a := addr) (l := data.take n)
        (k := data.drop n)
      rw [ih (by rw [List.length_drop]; omega) (by rw [List.length_drop]; omega) h, hcells]
      rw [List.take_append_drop, hlength] at happend
      exact happend.symm

/-- A block that the driver takes for written has been programmed, and nothing else has changed. -/
theorem flashWriteBlock_success (haddr : addr + data.length ≤ 256 ^ cfg.addressSize)
    (h : flashWriteBlock cfg bus addr data s = (.success, t)) :
    t.chip = ⟨s.chip.cells.program addr data, false, false⟩ := by
  obtain ⟨hloop, h⟩ := andThen_eq_success.1 h
  obtain ⟨hwait, h⟩ := andThen_eq_success.1 h
  have hcells := writeLoop_success le_rfl haddr (Prod.ext hloop rfl)
  have hchip := setLatch_success (congrArg Prod.fst h)
  rw [wait_success hwait] at hchip
  have ht := congrArg (fun r => r.2.chip) h
  dsimp only at ht
  rw [← ht, spiFlashWriteDisable, hchip, ← hcells]
  rfl

theorem cells_flashWriteBlock_nil :
    (flashWriteBlock cfg bus addr [] s).2.chip.cells = s.chip.cells := by
  refine andThen_rel (R := fun a b => b = a) (fun h h' => h'.trans h) rfl fun t => ?_
  refine andThen_rel (R := fun a b => b = a) (fun h h' => h'.trans h) cells_wait fun u => ?_
  exact cells_setLatch

/-- What programming can do: no bit is set, and the bytes outside of `P` are the same. -/
structure Clears (P : ℕ → Prop) (m m' : Mem UInt8) : Prop where
  and_eq : ∀ x, m' x &&& m x = m' x
  same : ∀ x, ¬ P x → m' x = m x

variable {P : ℕ → Prop}

theorem Clears.refl (m : Mem UInt8) : Clears P m m := ⟨fun _ => UInt8.and_self, fun _ _ => rfl⟩

theorem Clears.trans {m m' m'' : Mem UInt8} (h : Clears P m m') (h' : Clears P m' m'') :
    Clears P m m'' where
  and_eq x := by rw [← h'.and_eq, UInt8.and_assoc, h.and_eq]
  same x hx := (h'.same x hx).trans (h.same x hx)

theorem programPage_clears {i : ℕ} {cells : Mem UInt8}
    (hP : ∀ x, x / cfg.pageSize = addr / cfg.pageSize → P x) :
    Clears P cells (programPage cfg addr i data cells) := by
  induction data generalizing i cells with
  | nil => exact .refl _
  | cons b data ih =>
    refine .trans ⟨program_and _ _ _, fun x hx => ?_⟩ ih
    set place := addr / cfg.pageSize * cfg.pageSize + (addr % cfg.pageSize + i) % cfg.pageSize
      with hplace
    have hne : x ≠ place := by
      rintro rfl
      refine hx (hP _ ?_)
      rw [hplace, Nat.mul_comm, Nat.mul_add_div cfg.pageSize_pos,
        Nat.div_eq_of_lt (Nat.mod_lt _ cfg.pageSize_pos), Nat.add_zero]
    rcases Nat.lt_or_gt_of_ne hne with hlt | hgt
    · exact program_of_lt hlt
    · exact program_of_ge hgt

theorem disturb_clears {left cells : Mem UInt8}
    (hP : ∀ x, x / cfg.pageSize = addr / cfg.pageSize → P x) :
    Clears P cells ((Command.pageProgram data).disturb cfg addr left cells) := by
  constructor
  · intro x
    rw [Command.disturb]
    dsimp only
    split_ifs
    · rw [UInt8.and_assoc, UInt8.and_comm (left x), ← UInt8.and_assoc, UInt8.and_self]
    · exact UInt8.and_self
  · intro x hx
    exact if_neg fun h => hx (hP x h.1)

/-- Whatever the bus does, a write clears bits in the pages of the block only. -/
theorem writeLoop_clears (haddr : addr + data.length ≤ 256 ^ cfg.addressSize)
    (hP : ∀ a x, addr ≤ a → a < addr + data.length → x / cfg.pageSize = a / cfg.pageSize → P x) :
    Clears P s.chip.cells (writeLoop cfg bus fuel addr data s).2.chip.cells := by
  induction fuel generalizing addr data s with
  | zero => exact .refl _
  | succ fuel ih =>
    rw [writeLoop]
    split_ifs with hempty
    · exact .refl _
    · have hpos := List.length_pos_iff.2 hempty
      have hpage := Nat.mod_lt addr cfg.pageSize_pos
      have hfirst := fun x => hP addr x le_rfl (by omega)
      refine command_rel Clears.refl Clears.trans (by omega) (fun _ => programPage_clears hfirst)
        (fun _ _ => disturb_clears hfirst) fun u => ih ?_ fun a x hle hlt => ?_
      · rw [List.length_drop]
        omega
      · rw [List.length_drop] at hlt
        exact hP a x (by omega) (by omega)

def InPages (cfg : Config) (addr len x : ℕ) : Prop :=
  ∃ a, addr ≤ a ∧ a < addr + len ∧ x / cfg.pageSize = a / cfg.pageSize

theorem flashWriteBlock_clears (haddr : addr + data.length ≤ 256 ^ cfg.addressSize) :
    Clears (InPages cfg addr data.length) s.chip.cells
      (flashWriteBlock cfg bus addr data s).2.chip.cells := by
  have hloop : Clears (InPages cfg addr data.length) s.chip.cells
      (writeLoop cfg bus data.length addr data s).2.chip.cells :=
    writeLoop_clears haddr fun a x hle hlt hpage => ⟨a, hle, hlt, hpage⟩
  rw [flashWriteBlock]
  refine andThen_rel Clears.trans hloop fun u => ?_
  refine andThen_rel Clears.trans (by rw [cells_wait]; exact .refl _) fun u => ?_
  rw [spiFlashWriteDisable, cells_setLatch]
  exact .refl _

/-- A block that the driver takes for written has been programmed at its place, however it lies in
the pages. Whatever the bus does, no bit is set, and nothing changes outside of its pages. -/
theorem flashWriteBlock_spec (cfg : Config) (bus : Bus) (s : State) (addr : ℕ) (data : List UInt8)
    (haddr : addr + data.length ≤ 256 ^ cfg.addressSize) :
    let r := flashWriteBlock cfg bus addr data s
    (r.1 = .success → r.2.chip = ⟨s.chip.cells.program addr data, false, false⟩) ∧
      Clears (InPages cfg addr data.length) s.chip.cells r.2.chip.cells :=
  ⟨fun h => flashWriteBlock_success haddr (Prod.ext h rfl), flashWriteBlock_clears haddr⟩

/-- A chip with pages of four bytes, and a bus on which it is never busy. -/
def Config.small : Config := ⟨1, 4, 32, 128, by decide⟩

def Bus.working : Bus where
  starts _ := true
  waits _ := ⟨0, [⟨true, false, 1⟩], .success, rfl⟩
  transfers _ := .ok

theorem flashWriteBlock_spec_small :
    let erased : State := { chip := { cells := fun _ => 0xFF } }
    (flashWriteBlock .small .working 2 [1, 2, 3, 4, 5, 6] erased).2.chip.cells.read 0 12 =
      [0xFF, 0xFF, 1, 2, 3, 4, 5, 6, 0xFF, 0xFF, 0xFF, 0xFF] := by
  intro erased
  have hchip := (flashWriteBlock_spec .small .working erased 2 [1, 2, 3, 4, 5, 6] (by decide)).1 rfl
  have hread : (Mem.program (fun _ => 255) 2 [1, 2, 3, 4, 5, 6]).read 0 12 =
      [255, 255, 1, 2, 3, 4, 5, 6, 255, 255, 255, 255] := by decide
  exact (congrArg (fun chip => chip.cells.read 0 12) hchip).trans hread

structure Bus.Works (bus : Bus) : Prop where
  starts : ∀ n, bus.starts n = true
  waits : ∀ n, (bus.waits n).status = .success
  transfers : ∀ n, bus.transfers n = .ok

theorem Bus.working_works : Bus.working.Works := ⟨fun _ => rfl, fun _ => rfl, fun _ => rfl⟩

theorem andThen_works {r : Status × State} {k : State → Status × State} (h : r.1 = .success)
    (hk : ∀ u, (k u).1 = .success) : (andThen r k).1 = .success := by
  rw [andThen, if_pos h]
  exact hk _

theorem setLatch_works (hbus : bus.Works) (enabled : Bool) (s : State) :
    (setLatch bus enabled s).1 = .success := by
  rw [setLatch, if_pos (hbus.starts _)]

theorem transaction_works (hbus : bus.Works) (cmd : Command) (addr : ℕ) (s : State) :
    (spiFlashTransaction cfg bus cmd addr s).1 = .success := by
  rw [spiFlashTransaction, hbus.transfers]

theorem wait_works (hbus : bus.Works) (s : State) : (wait bus s).1 = .success := hbus.waits _

theorem command_works (hbus : bus.Works) {cmd : Command} {k : State → Status × State}
    (hk : ∀ u, (k u).1 = .success) :
    (andThen (wait bus s) fun s => andThen (spiFlashWriteEnable bus s) fun s =>
      andThen (spiFlashTransaction cfg bus cmd addr s) k).1 = .success :=
  andThen_works (wait_works hbus s) fun _ => andThen_works (setLatch_works hbus _ _) fun _ =>
    andThen_works (transaction_works hbus _ _ _) hk

theorem writeLoop_works (hbus : bus.Works) :
    (writeLoop cfg bus fuel addr data s).1 = .success := by
  induction fuel generalizing addr data s with
  | zero => rfl
  | succ fuel ih =>
    rw [writeLoop]
    split_ifs
    · rfl
    · exact command_works hbus fun u => ih

theorem flashWriteBlock_works (hbus : bus.Works) :
    (flashWriteBlock cfg bus addr data s).1 = .success :=
  andThen_works (writeLoop_works hbus) fun _ => andThen_works (wait_works hbus _) fun _ =>
    setLatch_works hbus _ _

end Write

section Erase

variable {cfg : Config} {bus : Bus} {s t : State} {addr len : ℕ}

theorem flashEraseBlock_cells (hsize : cfg.size ≤ 256 ^ cfg.addressSize)
    (h : flashEraseBlock cfg bus addr s = (.success, t)) :
    t.chip = ⟨s.chip.cells.erase addr cfg.blockSize, false, false⟩ := by
  rw [flashEraseBlock] at h
  split_ifs at h with hlimit
  · simp at h
  · obtain ⟨hlt, hmod⟩ := not_or.1 hlimit
    have hdvd := Nat.dvd_of_mod_eq_zero (not_not.1 hmod)
    obtain ⟨u, hu, h⟩ := command_success (by omega) rfl h
    have ht := wait_success (congrArg Prod.fst h)
    rw [h, hu] at ht
    rw [ht, Command.apply, Nat.div_mul_cancel hdvd]

/-- On a bus that works the driver erases a block if another byte of the chip follows it, so that it
does not erase the last one. -/
theorem flashEraseBlock_works (hbus : bus.Works) :
    (flashEraseBlock cfg bus addr s).1 = .success ↔
      cfg.blockSize ∣ addr ∧ addr + cfg.blockSize < cfg.size := by
  rw [flashEraseBlock, Nat.dvd_iff_mod_eq_zero]
  split_ifs with hlimit
  · simp only [false_iff, not_and, not_lt]
    intro hmod
    exact hlimit.resolve_right (not_not.2 hmod)
  · obtain ⟨hlt, hmod⟩ := not_or.1 hlimit
    exact iff_of_true (command_works hbus fun _ => wait_works hbus _)
      ⟨not_not.1 hmod, not_le.1 hlt⟩

theorem cells_flashReadBlock :
    (flashReadBlock cfg bus addr len s).2.2.chip.cells = s.chip.cells := by
  have hread : ∀ s : State, ∀ f, s.chip.execute (.read len) f = s.chip := fun s f =>
    if_pos (.inr (.inr rfl))
  rw [flashReadBlock]
  refine Eq.symm (andThen_rel (R := Eq) Eq.trans cells_wait.symm fun u => ?_)
  rw [spiFlashTransaction]
  cases bus.transfers u.uses with
  | ok => exact (congrArg Chip.cells (hread u _)).symm
  | notStarted => rfl
  | failed left => exact (congrArg Chip.cells (hread u _)).symm

theorem flashReadBlock_success (haddr : addr < 256 ^ cfg.addressSize)
    (h : (flashReadBlock cfg bus addr len s).1 = .success) :
    (flashReadBlock cfg bus addr len s).2.1 = s.chip.cells.read addr len := by
  have hcells : (flashReadBlock cfg bus addr len s).2.2.chip.cells = _ := cells_flashReadBlock
  rw [flashReadBlock] at h hcells ⊢
  dsimp only at h hcells ⊢
  rw [if_pos h, location_eq haddr, hcells]

theorem flashReadBlock_works (hbus : bus.Works) :
    (flashReadBlock cfg bus addr len s).1 = .success :=
  andThen_works (wait_works hbus s) fun _ => transaction_works hbus _ _ _

end Erase

end Qmk.SpiFlash
