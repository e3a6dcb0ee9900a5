import Qmk.SpiFlash
import Qmk.WearLeveling.WriteOnce

/-! # The backing store on an external flash memory

The bytes of the store are the complements of those in some blocks of the flash memory, so that
erased blocks read as zero. Programming only clears bits. That is enough for the wear leveling,
which writes each word at most once between two erases. Several words are read by one transfer and
written by as few as the buffer allows.
-/

namespace Qmk.WearLeveling.SpiStore

open SpiFlash NorMemory

section Model

/-- The blocks of the store, and `WEAR_LEVELING_EXTERNAL_FLASH_BULK_COUNT`. -/
structure Area where
  flash : SpiFlash.Config
  blockOffset : ℕ
  blockCount : ℕ
  bulkCount : ℕ := 32
  bulkCount_pos : 0 < bulkCount := by decide

variable (area : Area) (bus : Bus)

/-- The address of the store in the flash memory. -/
def Area.base : ℕ := area.blockOffset * area.flash.blockSize

/-- The loop of `backing_store_erase`, from block number `i` on. -/
def eraseLoop : ℕ → ℕ → SpiFlash.State → Bool × SpiFlash.State
  | 0, _, s => (true, s)
  | count + 1, i, s =>
    let (status, s) :=
      flashEraseBlock area.flash bus ((area.blockOffset + i) * area.flash.blockSize) s
    if status = .success then eraseLoop count (i + 1) s else (false, s)

def backingStoreErase (s : SpiFlash.State) : Bool × SpiFlash.State :=
  eraseLoop area bus area.blockCount 0 s

/-- The loop of `backing_store_write_bulk`, which writes the complements of some values at a
time. -/
def writeBulkLoop : ℕ → ℕ → List (List UInt8) → SpiFlash.State → Bool × SpiFlash.State
  | 0, _, _, s => (true, s)
  | fuel + 1, offset, values, s =>
    let temp := (values.take area.bulkCount).flatten
    let (status, s) := flashWriteBlock area.flash bus offset (temp.map (~~~ ·)) s
    if status = .success then
      let values := values.drop area.bulkCount
      if values = [] then (true, s) else writeBulkLoop fuel (offset + temp.length) values s
    else (false, s)

def backingStoreWriteBulk (address : ℕ) (values : List (List UInt8)) (s : SpiFlash.State) :
    Bool × SpiFlash.State :=
  writeBulkLoop area bus (values.length + 1) (area.base + address) values s

def backingStoreWrite (address : ℕ) (value : List UInt8) (s : SpiFlash.State) :
    Bool × SpiFlash.State :=
  backingStoreWriteBulk area bus address [value] s

def backingStoreReadBulk (address len : ℕ) (s : SpiFlash.State) :
    Bool × List UInt8 × SpiFlash.State :=
  let (status, values, s) := flashReadBlock area.flash bus (area.base + address) len s
  if status = .success then (true, values.map (~~~ ·), s) else (false, values, s)

/-- A call of the backing store. This build has bulk functions of its own, which the driver calls
for the cache and for its hash. -/
inductive Call
  | single (c : StoreCall)
  | readBulk (address count : ℕ)
  | writeBulk (address : ℕ) (values : List (List UInt8))
  deriving DecidableEq

/-- The calls of single words that the weak bulk functions make. -/
def Call.words (cfg : WearLeveling.Config) : Call → List StoreCall
  | .single c => [c]
  | .readBulk address count => readCalls cfg address count
  | .writeBulk address values => writeCalls cfg address values

/-- What a call does to the flash memory, where `len` is the length of a word. -/
def call (len : ℕ) (s : SpiFlash.State) : Call → Bool × List UInt8 × SpiFlash.State
  | .single .erase =>
    let (okay, s) := backingStoreErase area bus s
    (okay, [], s)
  | .single (.write address value) =>
    let (okay, s) := backingStoreWrite area bus address value s
    (okay, [], s)
  | .single (.read address) => backingStoreReadBulk area bus address len s
  | .single .init | .single .unlock | .single .lock => (true, [], s)
  | .readBulk address count => backingStoreReadBulk area bus address (len * count) s
  | .writeBulk address values =>
    let (okay, s) := backingStoreWriteBulk area bus address values s
    (okay, [], s)

def afterCalls (len : ℕ) (s : SpiFlash.State) (calls : List Call) : SpiFlash.State :=
  calls.foldl (fun s c => (call area bus len s c).2.2) s

end Model

section Calls

variable {area : Area} {bus : Bus} {s t : SpiFlash.State} {address : ℕ}

/-- The store lies inside the chip. The driver needs a byte of the chip behind a block that it
erases. -/
structure Fits (area : Area) : Prop where
  size_le : area.flash.size ≤ 256 ^ area.flash.addressSize
  lt_size : (area.blockOffset + area.blockCount) * area.flash.blockSize < area.flash.size

theorem eraseLoop_works (hbus : bus.Works) (hsize : area.flash.size ≤ 256 ^ area.flash.addressSize)
    {count i : ℕ} :
    ((eraseLoop area bus count i s).1 = true ↔ ∀ j < count,
        (area.blockOffset + (i + j) + 1) * area.flash.blockSize < area.flash.size) ∧
      ((eraseLoop area bus count i s).1 = true →
        (eraseLoop area bus count i s).2.chip.cells =
          s.chip.cells.erase (area.base + i * area.flash.blockSize)
            (count * area.flash.blockSize)) := by
  induction count generalizing i s with
  | zero => simp [eraseLoop, Mem.erase]
  | succ count ih =>
    set addr := (area.blockOffset + i) * area.flash.blockSize with haddr
    have hfirst : (flashEraseBlock area.flash bus addr s).1 = .success ↔
        (area.blockOffset + i + 1) * area.flash.blockSize < area.flash.size := by
      rw [Nat.succ_mul]
      exact (flashEraseBlock_works hbus).trans (and_iff_right (Nat.dvd_mul_left _ _))
    have hsplit : (∀ j < count + 1,
        (area.blockOffset + (i + j) + 1) * area.flash.blockSize < area.flash.size) ↔
        (area.blockOffset + i + 1) * area.flash.blockSize < area.flash.size ∧ ∀ j < count,
          (area.blockOffset + (i + 1 + j) + 1) * area.flash.blockSize < area.flash.size := by
      rw [Nat.forall_lt_succ_left]
      simp only [Nat.add_zero, Nat.add_right_comm i, ← Nat.add_assoc]
    rw [eraseLoop, hsplit, ← hfirst]
    by_cases hsuccess : (flashEraseBlock area.flash bus addr s).1 = .success
    · have hcells := congrArg Chip.cells (flashEraseBlock_cells hsize (Prod.ext hsuccess rfl))
      obtain ⟨hiff, hrest⟩ := @ih (flashEraseBlock area.flash bus addr s).2 (i + 1)
      simp only [← haddr, hsuccess, if_true, true_and]
      refine ⟨hiff, fun h => ?_⟩
      have hbase : area.base + i * area.flash.blockSize = addr := by
        rw [Area.base, haddr, Nat.add_mul]
      have hnext : area.base + (i + 1) * area.flash.blockSize = addr + area.flash.blockSize := by
        rw [Nat.succ_mul, ← Nat.add_assoc, hbase]
      rw [hrest h, hcells, hnext, erase_add, hbase, Nat.succ_mul, Nat.add_comm]
    · simp [← haddr, hsuccess]

/-- On a bus that works the store is erased if the chip has a byte behind it, so that it cannot be
put at the end of the chip. -/
theorem backingStoreErase_iff (hbus : bus.Works)
    (hsize : area.flash.size ≤ 256 ^ area.flash.addressSize) (hcount : 0 < area.blockCount) :
    (backingStoreErase area bus s).1 = true ↔
      (area.blockOffset + area.blockCount) * area.flash.blockSize < area.flash.size := by
  rw [backingStoreErase, (eraseLoop_works hbus hsize).1]
  constructor
  · intro h
    have hlast := h (area.blockCount - 1) (by omega)
    rwa [Nat.zero_add, Nat.add_assoc, Nat.sub_add_cancel hcount] at hlast
  · intro h j hj
    refine lt_of_le_of_lt (Nat.mul_le_mul_right _ ?_) h
    omega

/-- A block of 64 bytes behind the first one of a chip. -/
def Area.small : Area where
  flash := { SpiFlash.Config.small with blockSize := 64, size := 256 }
  blockOffset := 1
  blockCount := 1

/-- The last block of a chip with four blocks is not erased. -/
theorem backingStoreErase_iff_end :
    (backingStoreErase { Area.small with blockOffset := 3 } .working
      { chip := { cells := fun _ => 0 } }).1 = false := by
  rw [← Bool.not_eq_true, backingStoreErase_iff Bus.working_works (by decide) (by decide)]
  decide

theorem writeBulkLoop_works (hbus : bus.Works) {fuel offset : ℕ} {values : List (List UInt8)}
    (hfuel : values.length < fuel)
    (hoffset : offset + values.flatten.length ≤ 256 ^ area.flash.addressSize) :
    (writeBulkLoop area bus fuel offset values s).1 = true ∧
      (writeBulkLoop area bus fuel offset values s).2.chip.cells =
        s.chip.cells.program offset (values.flatten.map (~~~ ·)) := by
  induction fuel generalizing offset values s with
  | zero => omega
  | succ fuel ih =>
    have hflatten : (values.take area.bulkCount).flatten ++ (values.drop area.bulkCount).flatten =
        values.flatten := by
      rw [← List.flatten_append, List.take_append_drop]
    rw [← hflatten, List.length_append] at hoffset
    set temp := (values.take area.bulkCount).flatten with htemp
    have hsuccess : (flashWriteBlock area.flash bus offset (temp.map (~~~ ·)) s).1 = .success :=
      flashWriteBlock_works hbus
    have hchip := flashWriteBlock_success (by rw [List.length_map]; omega)
      (Prod.ext hsuccess rfl)
    rw [writeBulkLoop]
    simp only [← htemp, hsuccess, if_true]
    split_ifs with hdone
    · rw [← hflatten, hdone, List.flatten_nil, List.append_nil]
      exact ⟨rfl, congrArg Chip.cells hchip⟩
    · have hpos := area.bulkCount_pos
      have hlt : (values.drop area.bulkCount).length < fuel := by
        rw [List.length_drop]
        have hne := List.length_pos_iff.2 hdone
        rw [List.length_drop] at hne
        omega
      obtain ⟨hokay, hcells⟩ := @ih
        (flashWriteBlock area.flash bus offset (temp.map (~~~ ·)) s).2 (offset + temp.length) _ hlt
        (by omega)
      refine ⟨hokay, hcells.trans ?_⟩
      have happend := program_append (m := s.chip.cells) (a := offset) (l := temp.map (~~~ ·))
        (k := (values.drop area.bulkCount).flatten.map (~~~ ·))
      rw [hchip, ← hflatten, List.map_append, happend, List.length_map]

theorem backingStoreWriteBulk_works (hbus : bus.Works) {values : List (List UInt8)}
    (hfits : values ≠ [] →
      area.base + address + values.flatten.length ≤ 256 ^ area.flash.addressSize) :
    (backingStoreWriteBulk area bus address values s).1 = true ∧
      (backingStoreWriteBulk area bus address values s).2.chip.cells =
        s.chip.cells.program (area.base + address) (values.flatten.map (~~~ ·)) := by
  by_cases hnone : values = []
  · have hsuccess : (flashWriteBlock area.flash bus (area.base + address) [] s).1 = .success :=
      flashWriteBlock_works hbus
    simp [hnone, backingStoreWriteBulk, writeBulkLoop, hsuccess, cells_flashWriteBlock_nil]
  · exact writeBulkLoop_works hbus (Nat.lt_succ_self _) (hfits hnone)

theorem backingStoreReadBulk_works (hbus : bus.Works) (address len : ℕ) (s : SpiFlash.State) :
    (backingStoreReadBulk area bus address len s).1 = true ∧
      (backingStoreReadBulk area bus address len s).2.2.chip.cells = s.chip.cells ∧
      (area.base + address < 256 ^ area.flash.addressSize →
        (backingStoreReadBulk area bus address len s).2.1 =
          (s.chip.cells.read (area.base + address) len).map (~~~ ·)) := by
  have hsuccess : (flashReadBlock area.flash bus (area.base + address) len s).1 = .success :=
    flashReadBlock_works hbus
  rw [backingStoreReadBulk]
  simp only [hsuccess, if_true, cells_flashReadBlock, true_and]
  intro hfits
  rw [flashReadBlock_success hfits hsuccess]

end Calls

section Replay

variable {env : Env} {cfg : Config}

def StoreCall.apply (cfg : Config) (m : Mem UInt8) : StoreCall → Mem UInt8
  | .erase => m.write 0 (List.replicate cfg.backingSize 0)
  | .write address value => m.write address value
  | _ => m

def storeAfter (cfg : Config) (m : Mem UInt8) (calls : List StoreCall) : Mem UInt8 :=
  calls.foldl (StoreCall.apply cfg) m

theorem storeAfter_append (m : Mem UInt8) (cs ds : List StoreCall) :
    storeAfter cfg m (cs ++ ds) = storeAfter cfg (storeAfter cfg m cs) ds := List.foldl_append

theorem storeAfter_passive {m : Mem UInt8} {cs : List StoreCall} (h : ∀ c ∈ cs, c.Passive) :
    storeAfter cfg m cs = m := by
  induction cs with
  | nil => rfl
  | cons c cs ih =>
    obtain ⟨hc, hcs⟩ := List.forall_mem_cons.1 h
    cases c <;> first | exact ih hcs | exact hc.elim

theorem storeAfter_writeCalls {ws : List (List UInt8)} (hw : ∀ w ∈ ws, w.length = cfg.wordBytes)
    {m : Mem UInt8} {x : ℕ} :
    storeAfter cfg m (writeCalls cfg x ws) = m.write x ws.flatten := by
  induction ws generalizing m x with
  | nil => exact (Mem.write_nil m x).symm
  | cons w ws ih =>
    obtain ⟨hword, hw⟩ := List.forall_mem_cons.1 hw
    rw [List.flatten_cons, Mem.write_append, hword]
    exact ih hw

theorem storeAfter_consolidationCalls {c m : Mem UInt8} :
    storeAfter cfg m (consolidationCalls env cfg c) = consolidatedStore env cfg c m := by
  have hcache (m : Mem UInt8) : storeAfter cfg m (writeCalls cfg 0 (cacheWords cfg c)) =
      m.write 0 (c.read 0 cfg.logicalSize) := by
    rw [storeAfter_writeCalls length_of_mem_cacheWords, flatten_cacheWords]
  have hhash (m : Mem UInt8) :
      storeAfter cfg m (writeCalls cfg cfg.logicalSize (hashWords env cfg c)) =
        m.write cfg.logicalSize (env.fnv64aBuf (c.read 0 cfg.logicalSize)).toList := by
    rw [storeAfter_writeCalls length_of_mem_hashWords, flatten_hashWords]
  rw [consolidatedStore, ← hcache, ← hhash]
  exact storeAfter_append _ (writeCalls cfg 0 (cacheWords cfg c)) _

/-- The store is what its calls have made of the first one. -/
def Logged (cfg : Config) (m : Mem UInt8) (s : State) : Prop := s.store = storeAfter cfg m s.calls

variable {m : Mem UInt8} {s t : State}

theorem Logged.calls (h : Logged cfg m s) {cs : List StoreCall} (ht : t.calls = s.calls ++ cs)
    (hstore : t.store = storeAfter cfg s.store cs) : Logged cfg m t := by
  rw [Logged, hstore, ht, storeAfter_append, ← h]

theorem Logged.passive (h : Logged cfg m s) (cs : List StoreCall) (hcs : ∀ c ∈ cs, c.Passive)
    (ht : t.calls = s.calls ++ cs) (hstore : t.store = s.store) : Logged cfg m t :=
  h.calls ht (by rw [hstore, storeAfter_passive hcs])

theorem Logged.beginWrite (h : Logged cfg m s) (a : ℕ) (v : List UInt8) :
    Logged cfg m (s.beginWrite a v) := by
  refine h.passive (if s.unlocked then [] else [.unlock]) ?_ rfl rfl
  cases s.unlocked <;> simp [StoreCall.Passive]

theorem Logged.endWrite (h : Logged cfg m t) (s : State) : Logged cfg m (s.endWrite t) := by
  refine h.passive (if s.unlocked then [] else [.lock]) ?_ rfl rfl
  cases s.unlocked <;> simp [StoreCall.Passive]

theorem Logged.appended (h : Logged cfg m s) {ws : List (List UInt8)}
    (hw : ∀ w ∈ ws, w.length = cfg.wordBytes) : Logged cfg m (appended cfg s ws) :=
  h.calls rfl (storeAfter_writeCalls hw).symm

theorem Logged.consolidated (h : Logged cfg m s) : Logged cfg m (consolidated env cfg s) :=
  h.calls rfl storeAfter_consolidationCalls.symm

theorem Logged.write (hlog : cfg.logStart < cfg.backingSize) (hU : cfg.logicalSize ≤ 2 ^ 19)
    (hf : env.NeverFails) (hr : LogReady env cfg s s.cache) (h : Logged cfg m s) (a : ℕ)
    (v : List UInt8) : Logged cfg m (wearLevelingWrite env cfg a v s).2 := by
  rcases Nat.lt_or_ge cfg.logicalSize (a + v.length) with hin | hin
  · simpa [wearLevelingWrite, hin] using h
  by_cases hne : s.cache.read a v.length = v
  · simpa [wearLevelingWrite, Nat.not_lt.mpr hin, hne] using h
  have hword := length_of_mem_writeWords hU hin
  rcases write_of_ok hlog hU hr.lt hr.dvd hin hne (write_neverFails hf hin s) with
    ⟨-, he⟩ | ⟨ws₁, ws₂, hws, -, he⟩
  · rw [he]
    exact ((h.beginWrite a v).appended hword).endWrite s
  · rw [he]
    rw [hws] at hword
    have hword₁ : ∀ w ∈ ws₁, w.length = cfg.wordBytes :=
      fun w hw => hword w (List.mem_append_left _ hw)
    exact (((h.beginWrite a v).appended hword₁).consolidated).endWrite s

theorem Logged.erase (hf : env.NeverFails) (h : Logged cfg m s) :
    Logged cfg m (wearLevelingErase env cfg s).2 := by
  rw [erase_of_ok (erase_neverFails hf s)]
  refine h.calls rfl ?_
  cases s.unlocked <;> rfl

theorem Logged.step (hlog : cfg.logStart < cfg.backingSize) (hU : cfg.logicalSize ≤ 2 ^ 19)
    (hf : env.NeverFails) (hr : LogReady env cfg s s.cache) (h : Logged cfg m s) (o : Op) :
    Logged cfg m (step env cfg s o) := by
  cases o with
  | init =>
    obtain ⟨rs, hrs, he⟩ := hr.init_eq hf.reads (hf _ _)
    refine h.passive (.init :: rs) ?_ (by simp only [WearLeveling.step, he])
      (by simp only [WearLeveling.step, he])
    rintro c (_ | ⟨_, hc⟩)
    · trivial
    · exact hrs.passive c hc
  | erase => exact h.erase hf
  | write a v => exact h.write hlog hU hf hr a v
  | read a n => exact h

theorem Logged.run (hlog : cfg.logStart < cfg.backingSize) (hU : cfg.logicalSize ≤ 2 ^ 19)
    (hf : env.NeverFails) (ops : List Op) (hr : LogReady env cfg s s.cache) (h : Logged cfg m s) :
    Logged cfg m (run env cfg s ops) := by
  induction ops generalizing s with
  | nil => exact h
  | cons o ops ih => exact ih (ready_step hlog hU hf hr o) (h.step hlog hU hf hr o)

theorem logged_boot (hlog : cfg.logStart < cfg.backingSize) (hf : env.NeverFails)
    (hs : ∀ x < cfg.backingSize, s.store x = 0) (hc : s.calls = []) {boot : Op}
    (hb : boot = .init ∨ boot = .erase) :
    Logged cfg s.store (WearLeveling.step env cfg s boot) := by
  have h₀ : Logged cfg s.store s := by rw [Logged, hc]; rfl
  rcases hb with rfl | rfl
  · obtain ⟨d, rs, hrs, -, he, -⟩ :=
      (logReady_clearCache hlog hs).reboot hf.reads (t := s) rfl (hf _ _)
    refine h₀.passive (.init :: rs) ?_ (by simp only [WearLeveling.step, he])
      (by simp only [WearLeveling.step, he])
    rintro c (_ | ⟨_, hmem⟩)
    · trivial
    · exact hrs.passive c hmem
  · exact h₀.erase hf

end Replay

section Mirrors

variable {env : Env} {cfg : Config} {area : Area} {bus : Bus} {q : List ℕ} {m : Mem UInt8}
  {flash s : SpiFlash.State}

/-- A flash memory with these cells has the store `m`, where the words at other addresses than `q`
are zero. Outside of the area it is as `flash` was. -/
structure Mirrors (cfg : Config) (area : Area) (flash : SpiFlash.State) (q : List ℕ)
    (m cells : Mem UInt8) : Prop where
  blank : ∀ a, cfg.wordBytes ∣ a → a + cfg.wordBytes ≤ cfg.backingSize → a ∉ q →
    ∀ x, a ≤ x → x < a + cfg.wordBytes → m x = 0
  represents : Represents area.base cfg.backingSize cells m
  outside : ∀ x, x < area.base ∨ area.base + area.blockCount * area.flash.blockSize ≤ x →
    cells x = flash.chip.cells x

theorem word_disjoint {w a b x : ℕ} (ha : w ∣ a) (hb : w ∣ b) (hax : a ≤ x) (hxa : x < a + w)
    (hbx : b ≤ x) (hxb : x < b + w) : a = b := by
  obtain ⟨i, rfl⟩ := ha
  obtain ⟨j, rfl⟩ := hb
  have hi : i < j + 1 := lt_of_mul_lt_mul_left (Nat.mul_succ w j ▸ hax.trans_lt hxb) (Nat.zero_le w)
  have hj : j < i + 1 := lt_of_mul_lt_mul_left (Nat.mul_succ w i ▸ hbx.trans_lt hxa) (Nat.zero_le w)
  rw [show i = j by omega]

theorem Mirrors.erase (hbus : bus.Works) (hfits : Fits area)
    (hsize : cfg.backingSize ≤ area.blockCount * area.flash.blockSize)
    (h : Mirrors cfg area flash q m s.chip.cells) :
    (backingStoreErase area bus s).1 = true ∧
      Mirrors cfg area flash [] (m.write 0 (List.replicate cfg.backingSize 0))
        (backingStoreErase area bus s).2.chip.cells := by
  have hokay : (backingStoreErase area bus s).1 = true := by
    refine (eraseLoop_works hbus hfits.size_le).1.2 fun j hj => ?_
    refine lt_of_le_of_lt (Nat.mul_le_mul_right _ ?_) hfits.lt_size
    omega
  have hcells := (eraseLoop_works hbus hfits.size_le).2 hokay
  rw [Nat.zero_mul, Nat.add_zero] at hcells
  refine ⟨hokay, fun a _ ha _ x _ hx => ?_, ?_, fun x hx => ?_⟩
  · rw [Mem.write_of_mem _ (Nat.zero_le x) (by rw [List.length_replicate]; omega),
      List.getElem_replicate]
  · rw [backingStoreErase, hcells]
    exact .erase hsize
  · rw [backingStoreErase, hcells, ← h.outside x hx, Mem.erase]
    obtain hlt | hge := hx
    · exact Mem.write_of_lt _ _ hlt
    · exact Mem.write_of_ge _ _ (by rwa [List.length_replicate])

theorem Mirrors.program (hsize : cfg.backingSize ≤ area.blockCount * area.flash.blockSize)
    {cells : Mem UInt8} (h : Mirrors cfg area flash q m cells) {address : ℕ} {value : List UInt8}
    (hfresh : WritesFreshWord cfg q (.write address value)) :
    Mirrors cfg area flash (address :: q) (m.write address value)
      (cells.program (area.base + address) (value.map (~~~ ·))) := by
  obtain ⟨hlength, hdvd, hle, hnew⟩ := hfresh
  refine ⟨fun a ha hword hnot x hax hxa => ?_, ?_, fun x hx => ?_⟩
  · rw [List.mem_cons, not_or] at hnot
    obtain ⟨hne, hnot⟩ := hnot
    have hold := h.blank a ha hword hnot x hax hxa
    rcases Nat.lt_or_ge x address with hlt | hge
    · rwa [Mem.write_of_lt _ _ hlt]
    rcases Nat.lt_or_ge x (address + value.length) with hlt | hge'
    · exact absurd (word_disjoint ha hdvd hax hxa hge (hlength ▸ hlt)) hne
    · rwa [Mem.write_of_ge _ _ hge']
  · refine h.represents.program fun x hx hlt => ?_
    exact h.blank address hdvd hle hnew x hx (hlength ▸ hlt)
  · rw [← h.outside x hx]
    obtain hlt | hge := hx
    · exact program_of_lt (by omega)
    · exact program_of_ge (by rw [List.length_map]; omega)

theorem Mirrors.programAll (hsize : cfg.backingSize ≤ area.blockCount * area.flash.blockSize)
    {cells : Mem UInt8} (h : Mirrors cfg area flash q m cells) {address : ℕ}
    {values : List (List UInt8)}
    (hacc : (writeOnce cfg).Accepts q (writeCalls cfg address values)) :
    Mirrors cfg area flash ((writeOnce cfg).after q (writeCalls cfg address values))
      (storeAfter cfg m (writeCalls cfg address values))
      (cells.program (area.base + address) (values.flatten.map (~~~ ·))) := by
  induction values generalizing q m cells address with
  | nil =>
    rw [List.flatten_nil, List.map_nil, program_nil]
    exact h
  | cons value values ih =>
    obtain ⟨hfresh, hrest⟩ := hacc
    have hlength : value.length = cfg.wordBytes := hfresh.1
    rw [List.flatten_cons, List.map_append, program_append, List.length_map, Nat.add_assoc,
      hlength]
    exact ih (h.program hsize hfresh) hrest

theorem end_le_of_accepts {address : ℕ} {values : List (List UInt8)}
    (hacc : (writeOnce cfg).Accepts q (writeCalls cfg address values)) (hsome : values ≠ []) :
    address + values.flatten.length ≤ cfg.backingSize := by
  induction values generalizing q address with
  | nil => exact absurd rfl hsome
  | cons value values ih =>
    obtain ⟨⟨hlength, -, hle, -⟩, hrest⟩ := hacc
    by_cases hlast : values = []
    · simpa [hlast, hlength] using hle
    · have hend := ih hrest hlast
      rw [List.flatten_cons, List.length_append, hlength]
      omega

theorem Fits.end_lt (hfits : Fits area) :
    area.base + area.blockCount * area.flash.blockSize < 256 ^ area.flash.addressSize := by
  rw [Area.base, ← Nat.add_mul]
  exact hfits.lt_size.trans_le hfits.size_le

theorem Mirrors.writeBulk (hbus : bus.Works) (hfits : Fits area)
    (hsize : cfg.backingSize ≤ area.blockCount * area.flash.blockSize)
    (h : Mirrors cfg area flash q m s.chip.cells) {address : ℕ} {values : List (List UInt8)}
    (hacc : (writeOnce cfg).Accepts q (writeCalls cfg address values)) :
    (backingStoreWriteBulk area bus address values s).1 = true ∧
      Mirrors cfg area flash ((writeOnce cfg).after q (writeCalls cfg address values))
        (storeAfter cfg m (writeCalls cfg address values))
        (backingStoreWriteBulk area bus address values s).2.chip.cells := by
  have harea := hfits.end_lt
  obtain ⟨hokay, hcells⟩ := @backingStoreWriteBulk_works area bus s address hbus values fun hsome =>
    have hend := end_le_of_accepts hacc hsome
    by omega
  rw [hcells]
  exact ⟨hokay, h.programAll hsize hacc⟩

def Answers (cfg : Config) (m : Mem UInt8) (r : Bool × List UInt8 × SpiFlash.State) : Call → Prop
  | .single (.read address) => r.1 = true ∧ Reads address cfg.wordBytes
  | .readBulk address count => r.1 = true ∧ Reads address (cfg.wordBytes * count)
  | _ => r.1 = true
where
  Reads (address len : ℕ) : Prop :=
    address + len ≤ cfg.backingSize → r.2.1 = m.read address len

theorem Mirrors.readBulk (hbus : bus.Works) (hfits : Fits area)
    (hsize : cfg.backingSize ≤ area.blockCount * area.flash.blockSize)
    (h : Mirrors cfg area flash q m s.chip.cells) (address len : ℕ) :
    ((backingStoreReadBulk area bus address len s).1 = true ∧
        Answers.Reads cfg m (backingStoreReadBulk area bus address len s) address len) ∧
      Mirrors cfg area flash q m (backingStoreReadBulk area bus address len s).2.2.chip.cells := by
  have harea := hfits.end_lt
  obtain ⟨hokay, hcells, hvalues⟩ := @backingStoreReadBulk_works area bus hbus address len s
  rw [hcells]
  exact ⟨⟨hokay, fun hle => (hvalues (by omega)).trans (h.represents.read hle)⟩, h⟩

theorem passive_readCalls {address count : ℕ} :
    ∀ c ∈ readCalls cfg address count, c.Passive :=
  (onlyReads_readCalls address count).passive

/-- A call that writes fresh words or none does to the flash memory what its words do to the
store. -/
theorem Mirrors.call (hbus : bus.Works) (hfits : Fits area)
    (hsize : cfg.backingSize ≤ area.blockCount * area.flash.blockSize)
    (h : Mirrors cfg area flash q m s.chip.cells) {c : Call}
    (hacc : (writeOnce cfg).Accepts q (c.words cfg)) :
    Answers cfg m (call area bus cfg.wordBytes s c) c ∧
      Mirrors cfg area flash ((writeOnce cfg).after q (c.words cfg))
        (storeAfter cfg m (c.words cfg)) (call area bus cfg.wordBytes s c).2.2.chip.cells := by
  cases c with
  | single c =>
    cases c with
    | init => exact ⟨rfl, h⟩
    | unlock => exact ⟨rfl, h⟩
    | lock => exact ⟨rfl, h⟩
    | erase => exact h.erase hbus hfits hsize
    | write address value =>
      exact @Mirrors.writeBulk cfg area bus q m flash s hbus hfits hsize h address [value] hacc
    | read address => exact h.readBulk hbus hfits hsize address cfg.wordBytes
  | readBulk address count =>
    obtain ⟨-, hafter⟩ := writeOnce_passive cfg (@passive_readCalls cfg address count) q
    rw [Call.words, hafter, storeAfter_passive passive_readCalls]
    exact h.readBulk hbus hfits hsize address _
  | writeBulk address values => exact h.writeBulk hbus hfits hsize hacc

theorem Mirrors.calls (hbus : bus.Works) (hfits : Fits area)
    (hsize : cfg.backingSize ≤ area.blockCount * area.flash.blockSize) {cs : List Call}
    (hacc : (writeOnce cfg).Accepts q (cs.flatMap (Call.words cfg)))
    (h : Mirrors cfg area flash q m s.chip.cells) :
    Mirrors cfg area flash ((writeOnce cfg).after q (cs.flatMap (Call.words cfg)))
      (storeAfter cfg m (cs.flatMap (Call.words cfg)))
      (afterCalls area bus cfg.wordBytes s cs).chip.cells := by
  induction cs generalizing q m s with
  | nil => exact h
  | cons c cs ih =>
    rw [List.flatMap_cons] at hacc ⊢
    obtain ⟨hfirst, hrest⟩ := ((writeOnce cfg).accepts_append _ _ _).1 hacc
    rw [Monitor.after_append, storeAfter_append]
    exact ih hrest (h.call hbus hfits hsize hfirst).2

/-- The initialisation reads the cache and its hash by one bulk call each. -/
theorem consolidatedReads_eq : consolidatedReads cfg =
    [Call.readBulk 0 (cfg.logicalSize / cfg.wordBytes),
      .readBulk cfg.logicalSize (8 / cfg.wordBytes)].flatMap (Call.words cfg) := by
  simp [consolidatedReads, Call.words]

/-- A consolidation erases the store and writes the cache and its hash by one bulk call each. -/
theorem consolidationCalls_eq (c : Mem UInt8) : consolidationCalls env cfg c =
    [Call.single .erase, .writeBulk 0 (cacheWords cfg c),
      .writeBulk cfg.logicalSize (hashWords env cfg c)].flatMap (Call.words cfg) := by
  simp [consolidationCalls, Call.words]

/-- In every run of the driver on an erased store, whichever of the words are read and written in
bulk, an external flash memory with an erased area answers each call as the store does, has the
store at the end, and is the same outside of the area. -/
theorem spi_store (h8 : 8 < cfg.logicalSize) (hU : cfg.logicalSize ≤ 2 ^ 19)
    (hf : env.NeverFails) {s₀ : State} (hs : ∀ x < cfg.backingSize, s₀.store x = 0)
    (hc : s₀.calls = []) {boot : Op} (hb : boot = .init ∨ boot = .erase) (ops : List Op)
    (hbus : bus.Works) (hfits : Fits area)
    (hsize : cfg.backingSize ≤ area.blockCount * area.flash.blockSize)
    (herased : ∀ x < cfg.backingSize, flash.chip.cells (area.base + x) = 0xFF) {calls : List Call}
    (hcalls : calls.flatMap (Call.words cfg) = (run env cfg s₀ (boot :: ops)).calls) :
    let after := afterCalls area bus cfg.wordBytes flash
    (∀ pre c post, calls = pre ++ c :: post →
      Answers cfg (storeAfter cfg s₀.store (pre.flatMap (Call.words cfg)))
        (call area bus cfg.wordBytes (after pre) c) c) ∧
      Represents area.base cfg.backingSize (after calls).chip.cells
        (run env cfg s₀ (boot :: ops)).store ∧
      ∀ x, x < area.base ∨ area.base + area.blockCount * area.flash.blockSize ≤ x →
        (after calls).chip.cells x = flash.chip.cells x := by
  intro after
  have hlog := cfg.logStart_lt h8
  have hr := (refines_boot hlog hf hs hb).ready
  have hacc : (writeOnce cfg).Accepts [] (run env cfg s₀ (boot :: ops)).calls :=
    ((wroteOnce_boot hlog hf hs hc hb).run hlog hU hf ops hr).1
  have hlogged : Logged cfg s₀.store (run env cfg s₀ (boot :: ops)) :=
    (logged_boot hlog hf hs hc hb).run hlog hU hf ops hr
  have hmirrors : Mirrors cfg area flash [] s₀.store flash.chip.cells := by
    refine ⟨fun a _ ha _ x _ hx => hs x (by omega), fun x hx => ?_, fun _ _ => rfl⟩
    rw [herased x hx, hs x hx]
    rfl
  rw [← hcalls] at hacc
  have hlast := hmirrors.calls hbus hfits hsize hacc
  refine ⟨fun pre c post hsplit => ?_, ?_, hlast.outside⟩
  · rw [hsplit, List.flatMap_append, List.flatMap_cons] at hacc
    obtain ⟨hpre, hrest⟩ := ((writeOnce cfg).accepts_append _ _ _).1 hacc
    have hcall := (((writeOnce cfg).accepts_append _ _ _).1 hrest).1
    exact ((hmirrors.calls hbus hfits hsize hpre).call hbus hfits hsize hcall).1
  · rw [hlogged, ← hcalls]
    exact hlast.represents

/-- The third write fills the log, and the cache is written in bulk. -/
def fillingRun : List Op :=
  [.init, .write 0 [1, 2], .write 0 [3, 4], .write 0 [5, 6], .write 2 [7, 8]]

def fillingCalls : List Call :=
  let entry (address : ℕ) (first second : List UInt8) : List Call :=
    [.single .unlock, .single (.write address first), .single (.write (address + 4) second)]
  [.single .init, .readBulk 0 4, .readBulk 16 2, .single (.read 24)] ++
    entry 24 [16, 0, 0, 1] [2, 0, 0, 0] ++ [.single .lock] ++
    entry 32 [16, 0, 0, 3] [4, 0, 0, 0] ++ [.single .lock] ++
    entry 40 [16, 0, 0, 5] [6, 0, 0, 0] ++ [.single .erase,
      .writeBulk 0 [[5, 6, 0, 0], [0, 0, 0, 0], [0, 0, 0, 0], [0, 0, 0, 0]],
      .writeBulk 16 [[130, 212, 220, 31], [224, 15, 137, 200]], .single .lock] ++
    entry 24 [16, 0, 2, 7] [8, 0, 0, 0] ++ [.single .lock]

theorem spi_store_small :
    let flash : SpiFlash.State := { chip := { cells := fun _ => 0xFF } }
    ((afterCalls .small .working 4 flash fillingCalls).chip.cells.read 64 8).map (~~~ ·) =
        [5, 6, 0, 0, 0, 0, 0, 0] ∧
      ((afterCalls .small .working 4 flash fillingCalls).chip.cells.read (64 + 24) 8).map
        (~~~ ·) = [16, 0, 2, 7, 8, 0, 0, 0] := by
  intro flash
  have hcalls : fillingCalls.flatMap (Call.words .small) =
      (run .working .small .blank fillingRun).calls := by
    decide
  have h := @spi_store .working .small .small .working flash (by decide) (by decide)
    Env.working_neverFails .blank (fun _ _ => rfl) rfl .init (.inl rfl) fillingRun.tail
    Bus.working_works ⟨by decide, by decide⟩ (by decide) (fun _ _ => rfl) fillingCalls hcalls
  have hcache : (run .working .small .blank fillingRun).store.read 0 8 =
      [5, 6, 0, 0, 0, 0, 0, 0] := by
    decide
  have hentry : (run .working .small .blank fillingRun).store.read 24 8 =
      [16, 0, 2, 7, 8, 0, 0, 0] := by
    decide
  exact ⟨(h.2.1.read (a := 0) (by decide)).trans hcache, (h.2.1.read (by decide)).trans hentry⟩

end Mirrors

end Qmk.WearLeveling.SpiStore
