import Mathlib.Algebra.Group.Nat.Defs
import Mathlib.Tactic.IntervalCases
import Qmk.Memory

/-! # An external EEPROM

A block is written in transactions, each of which stays in a page of the EEPROM. All of them are
sent to the device address of the begin of the block, and an index of eight bits counts the bytes of
each, so that a block is stored as it is unless one of these does not fit.
-/

namespace Qmk.I2cEeprom

/-- The build. The device address stands for what the bytes of a word address have no place for. -/
structure Config where
  byteCount : ℕ
  pageSize : ℕ
  addressSize : ℕ
  i2cAddress : ℕ → BitVec 8
  pageSize_pos : 0 < pageSize
  i2cAddress_eq_iff : ∀ a < byteCount, ∀ b < byteCount,
    i2cAddress a = i2cAddress b ↔ a / 256 ^ addressSize = b / 256 ^ addressSize

def Config.blockSize (cfg : Config) : ℕ := 256 ^ cfg.addressSize

/-- A call of `i2c_transmit`. -/
structure Transaction where
  device : BitVec 8
  packet : List (BitVec 8)
  deriving DecidableEq

section Driver

/-- `fill_target_address`, the lowest byte goes to the end. -/
def targetAddress : ℕ → ℕ → List (BitVec 8)
  | 0, _ => []
  | size + 1, p => targetAddress size (p / 256) ++ [.ofNat 8 p]

/-- The loop that copies `writeLength` bytes to the packet, with an index of eight bits. -/
def copyBytes (readBuf : List (BitVec 8)) (writeLength : ℕ) :
    ℕ → BitVec 8 → List (BitVec 8) → Option (List (BitVec 8))
  | 0, _, _ => none
  | fuel + 1, i, packet =>
    if i.toNat < writeLength then
      copyBytes readBuf writeLength fuel (i + 1) (packet ++ [readBuf.getD i.toNat 0])
    else some packet

def writeLength (cfg : Config) (target len : ℕ) : ℕ :=
  min (cfg.pageSize - target % cfg.pageSize) len

/-- The loop of `eeprom_write_block` over the pages, each call of which begins with `fuel`. -/
def writePages (cfg : Config) (addr fuel : ℕ) :
    ℕ → ℕ → List (BitVec 8) → Option (List Transaction)
  | 0, _, _ => none
  | rounds + 1, target, readBuf =>
    if readBuf = [] then some []
    else
      let n := writeLength cfg target readBuf.length
      (copyBytes readBuf n fuel 0 (targetAddress cfg.addressSize target)).bind fun packet =>
        (writePages cfg addr fuel rounds (target + n) (readBuf.drop n)).map
          ({ device := cfg.i2cAddress addr, packet := packet } :: ·)

/-- `eeprom_write_block`, which has no value if it does not end within `fuel` rounds. -/
def writeBlock (cfg : Config) (addr : ℕ) (readBuf : List (BitVec 8)) (fuel : ℕ) :
    Option (List Transaction) :=
  writePages cfg addr fuel fuel addr readBuf

end Driver

section Device

def wordAddress (bytes : List (BitVec 8)) : ℕ := bytes.foldl (fun p b => p * 256 + b.toNat) 0

def select (cfg : Config) (device : BitVec 8) (word : ℕ) : Option ℕ :=
  (List.range cfg.byteCount).find? fun loc =>
    cfg.i2cAddress loc = device ∧ loc % cfg.blockSize = word

/-- The bytes from number `i` on of those that are stored at `loc`, inside its page. -/
def storePage (cfg : Config) (loc : ℕ) : ℕ → List (BitVec 8) → Mem (BitVec 8) → Mem (BitVec 8)
  | _, [], mem => mem
  | i, b :: bytes, mem =>
    storePage cfg loc (i + 1) bytes (Function.update mem
      (loc / cfg.pageSize * cfg.pageSize + (loc % cfg.pageSize + i) % cfg.pageSize) b)

def Transaction.location (cfg : Config) (t : Transaction) : Option ℕ :=
  select cfg t.device (wordAddress (t.packet.take cfg.addressSize))

def Transaction.data (cfg : Config) (t : Transaction) : List (BitVec 8) :=
  t.packet.drop cfg.addressSize

/-- What a transaction does to the EEPROM, which ignores those for another device. -/
def receive (cfg : Config) (mem : Mem (BitVec 8)) (t : Transaction) : Mem (BitVec 8) :=
  match t.location cfg with
  | none => mem
  | some loc => storePage cfg loc 0 (t.data cfg) mem

end Device

/-- What is promised of a block: the call ends, each transaction stays in a page, and the bytes are
stored in place of what was there. -/
def Exact (cfg : Config) (addr : ℕ) (readBuf : List (BitVec 8)) : Prop :=
  ∃ fuel ts, writeBlock cfg addr readBuf fuel = some ts ∧
    (∀ t ∈ ts, ∀ loc ∈ t.location cfg,
      loc % cfg.pageSize + (t.data cfg).length ≤ cfg.pageSize) ∧
    ∀ mem, ts.foldl (receive cfg) mem = mem.write addr readBuf

/-- A block fits if no 256 of its bytes lie in one page one after the other, and if no other page of
it begins behind the device address of its begin. -/
structure Fits (cfg : Config) (addr len : ℕ) : Prop where
  short : ∀ a, addr ≤ a → a + 256 ≤ addr + len → cfg.pageSize < a % cfg.pageSize + 256
  oneDevice : ∀ p, addr < p → p < addr + len → cfg.pageSize ∣ p →
    p / cfg.blockSize = addr / cfg.blockSize

section Device

variable {cfg : Config}

theorem wordAddress_append (bytes : List (BitVec 8)) (b : BitVec 8) :
    wordAddress (bytes ++ [b]) = wordAddress bytes * 256 + b.toNat := by
  simp [wordAddress]

@[simp] theorem length_targetAddress (size p : ℕ) : (targetAddress size p).length = size := by
  induction size generalizing p with
  | zero => rfl
  | succ size ih => simp [targetAddress, ih]

theorem wordAddress_targetAddress (size p : ℕ) :
    wordAddress (targetAddress size p) = p % 256 ^ size := by
  induction size generalizing p with
  | zero => simp [targetAddress, wordAddress, Nat.mod_one]
  | succ size ih =>
    have hpow : 256 ^ (size + 1) = 256 * 256 ^ size := by rw [pow_succ, Nat.mul_comm]
    rw [targetAddress, wordAddress_append, ih, BitVec.toNat_ofNat, hpow, Nat.mod_mul]
    omega

/-- The bytes behind one device address are told apart by their word addresses. -/
theorem select_eq_some {loc addr : ℕ} (hloc : loc < cfg.byteCount) (haddr : addr < cfg.byteCount)
    (hblock : loc / cfg.blockSize = addr / cfg.blockSize) :
    select cfg (cfg.i2cAddress addr) (loc % cfg.blockSize) = some loc := by
  rw [select, List.find?_range_eq_some]
  refine ⟨?_, List.mem_range.mpr hloc, fun j hj => ?_⟩
  · simpa using (cfg.i2cAddress_eq_iff loc hloc addr haddr).mpr hblock
  · simp only [Bool.not_eq_eq_eq_not, Bool.not_true, decide_eq_false_iff_not, not_and]
    intro hdevice hword
    have hj' := (cfg.i2cAddress_eq_iff j (hj.trans hloc) addr haddr).mp hdevice
    have hsame : j / cfg.blockSize = loc / cfg.blockSize := hj'.trans hblock.symm
    have hjmod := Nat.div_add_mod j cfg.blockSize
    have hlocmod := Nat.div_add_mod loc cfg.blockSize
    rw [hsame, hword] at hjmod
    omega

theorem select_block {loc addr word : ℕ} (haddr : addr < cfg.byteCount)
    (h : select cfg (cfg.i2cAddress addr) word = some loc) :
    loc / cfg.blockSize = addr / cfg.blockSize := by
  rw [select, List.find?_range_eq_some] at h
  have hloc := List.mem_range.mp h.2.1
  have hdevice : cfg.i2cAddress loc = cfg.i2cAddress addr := (of_decide_eq_true h.1).1
  exact (cfg.i2cAddress_eq_iff loc hloc addr haddr).mp hdevice

theorem storePage_eq_write {loc i : ℕ} (bytes : List (BitVec 8)) (mem : Mem (BitVec 8))
    (h : loc % cfg.pageSize + i + bytes.length ≤ cfg.pageSize) :
    storePage cfg loc i bytes mem = mem.write (loc + i) bytes := by
  induction bytes generalizing i mem with
  | nil => simp [storePage]
  | cons b bytes ih =>
    rw [List.length_cons] at h
    have hplace : loc / cfg.pageSize * cfg.pageSize + (loc % cfg.pageSize + i) % cfg.pageSize =
        loc + i := by
      rw [Nat.mod_eq_of_lt (by omega : loc % cfg.pageSize + i < cfg.pageSize)]
      have hdiv := Nat.div_add_mod' loc cfg.pageSize
      omega
    have hone : Function.update mem (loc + i) b = mem.write (loc + i) [b] := by
      funext x
      by_cases hx : x = loc + i
      · subst hx
        rw [Function.update_self, Mem.write_of_mem _ (Nat.le_refl _) (by simp)]
        simp
      · rw [Function.update_of_ne hx]
        rcases Nat.lt_or_ge x (loc + i) with hlt | hge
        · rw [Mem.write_of_lt _ _ hlt]
        · rw [Mem.write_of_ge _ _ (by simp; omega)]
    rw [storePage, hplace, ih _ (by omega), hone]
    exact (Mem.write_append mem (loc + i) [b] bytes).symm

theorem storePage_outside {loc x : ℕ} (i : ℕ) (bytes : List (BitVec 8)) (mem : Mem (BitVec 8))
    (h : x / cfg.pageSize ≠ loc / cfg.pageSize) : storePage cfg loc i bytes mem x = mem x := by
  induction bytes generalizing i mem with
  | nil => rfl
  | cons b bytes ih =>
    rw [storePage, ih, Function.update_of_ne]
    rintro rfl
    refine h ?_
    rw [Nat.mul_comm, Nat.mul_add_div cfg.pageSize_pos,
      Nat.div_eq_of_lt (Nat.mod_lt _ cfg.pageSize_pos), Nat.add_zero]

/-- A transaction that stays in a page of its device stores the bytes at their place. -/
theorem receive_eq_write {target addr : ℕ} {bytes : List (BitVec 8)}
    (htarget : target < cfg.byteCount) (haddr : addr < cfg.byteCount)
    (hblock : target / cfg.blockSize = addr / cfg.blockSize)
    (hpage : target % cfg.pageSize + bytes.length ≤ cfg.pageSize) :
    let t : Transaction := ⟨cfg.i2cAddress addr, targetAddress cfg.addressSize target ++ bytes⟩
    t.location cfg = some target ∧ t.data cfg = bytes ∧
      ∀ mem, receive cfg mem t = mem.write target bytes := by
  intro t
  have hlocation : t.location cfg = some target := by
    have htake : t.packet.take cfg.addressSize = targetAddress cfg.addressSize target :=
      List.take_left' (length_targetAddress _ _)
    rw [Transaction.location, htake, wordAddress_targetAddress]
    exact select_eq_some htarget haddr hblock
  have hdata : t.data cfg = bytes := List.drop_left' (length_targetAddress _ _)
  refine ⟨hlocation, hdata, fun mem => ?_⟩
  rw [receive, hlocation, hdata]
  exact storePage_eq_write bytes mem (by simpa using hpage)

theorem receive_outside {t : Transaction} {addr p : ℕ} (haddr : addr < cfg.byteCount)
    (hdevice : t.device = cfg.i2cAddress addr) (hp : addr < p) (hpage : cfg.pageSize ∣ p)
    (hblock : p / cfg.blockSize ≠ addr / cfg.blockSize) (mem : Mem (BitVec 8)) :
    receive cfg mem t p = mem p := by
  rw [receive]
  cases hlocation : t.location cfg with
  | none => rfl
  | some loc =>
    rw [Transaction.location, hdevice] at hlocation
    have hloc := select_block haddr hlocation
    have hlt : loc < p := by
      have hle : addr / cfg.blockSize ≤ p / cfg.blockSize := Nat.div_le_div_right hp.le
      exact lt_of_not_ge fun h =>
        hblock (le_antisymm (hloc ▸ Nat.div_le_div_right h) hle)
    refine storePage_outside 0 _ mem fun hsame => ?_
    obtain ⟨k, rfl⟩ := hpage
    rw [Nat.mul_div_cancel_left _ cfg.pageSize_pos] at hsame
    have hdiv := Nat.div_add_mod loc cfg.pageSize
    rw [← hsame] at hdiv
    omega

end Device

section Loops

variable {cfg : Config}

theorem copyBytes_eq_some {readBuf : List (BitVec 8)} {n fuel : ℕ} {i : BitVec 8}
    (packet : List (BitVec 8)) (hn : n < 256) (hi : i.toNat ≤ n) (hlen : n ≤ readBuf.length)
    (hfuel : n < i.toNat + fuel) :
    copyBytes readBuf n fuel i packet =
      some (packet ++ (readBuf.drop i.toNat).take (n - i.toNat)) := by
  induction fuel generalizing i packet with
  | zero => omega
  | succ fuel ih =>
    rw [copyBytes]
    split_ifs with hlt
    · have hnext : (i + 1).toNat = i.toNat + 1 := by
        rw [BitVec.toNat_add]
        exact Nat.mod_eq_of_lt (by simp; omega)
      have hget : readBuf.getD i.toNat 0 = readBuf[i.toNat] := List.getD_eq_getElem _ _ (by omega)
      have hsplit : n - i.toNat = n - (i.toNat + 1) + 1 := by omega
      rw [ih _ (by omega) (by omega), hnext, hget, hsplit,
        List.drop_eq_getElem_cons (by omega : i.toNat < readBuf.length), List.take_succ_cons,
        List.append_assoc]
      rfl
    · have hzero : n - i.toNat = 0 := by omega
      simp [hzero]

/-- An index of eight bits does not get up to 256. -/
theorem copyBytes_eq_none {readBuf : List (BitVec 8)} {n : ℕ} (hn : 256 ≤ n) (fuel : ℕ)
    (i : BitVec 8) (packet : List (BitVec 8)) : copyBytes readBuf n fuel i packet = none := by
  induction fuel generalizing i packet with
  | zero => rfl
  | succ fuel ih =>
    have hi := i.isLt
    rw [copyBytes, if_pos (by omega), ih]

theorem writeLength_le (cfg : Config) (target len : ℕ) :
    writeLength cfg target len ≤ len ∧
      target % cfg.pageSize + writeLength cfg target len ≤ cfg.pageSize := by
  have hlt := Nat.mod_lt target cfg.pageSize_pos
  rw [writeLength]
  omega

theorem writeLength_pos (cfg : Config) (target : ℕ) {len : ℕ} (h : 0 < len) :
    0 < writeLength cfg target len := by
  have hlt := Nat.mod_lt target cfg.pageSize_pos
  rw [writeLength]
  omega

/-- A page ends where the bytes of a transaction do, unless they are the last ones. -/
theorem dvd_add_writeLength {target len : ℕ} (h : writeLength cfg target len ≠ len) :
    cfg.pageSize ∣ target + writeLength cfg target len := by
  have hlt := Nat.mod_lt target cfg.pageSize_pos
  have hdiv := Nat.div_add_mod target cfg.pageSize
  refine ⟨target / cfg.pageSize + 1, ?_⟩
  rw [Nat.mul_add, Nat.mul_one]
  rw [writeLength] at h ⊢
  omega

theorem le_writeLength {target len a : ℕ} (ha : target ≤ a)
    (hlt : a < target + writeLength cfg target len) (hlen : a + 256 ≤ target + len)
    (hpage : a % cfg.pageSize + 256 ≤ cfg.pageSize) : 256 ≤ writeLength cfg target len := by
  have hle := (writeLength_le cfg target len).2
  have hdiv := Nat.div_add_mod target cfg.pageSize
  have hdiv' := Nat.div_add_mod a cfg.pageSize
  have hsame : a / cfg.pageSize = target / cfg.pageSize := by
    refine le_antisymm (Nat.lt_succ_iff.mp ?_) (Nat.div_le_div_right ha)
    rw [Nat.div_lt_iff_lt_mul cfg.pageSize_pos, Nat.succ_mul, Nat.mul_comm]
    omega
  rw [hsame] at hdiv'
  rw [writeLength]
  omega

/-- What a call that ends has done: its transactions are for one device, and none of them was
longer than the index can count. -/
theorem writePages_some {addr fuel rounds target : ℕ} {readBuf : List (BitVec 8)}
    {ts : List Transaction} (h : writePages cfg addr fuel rounds target readBuf = some ts) :
    (∀ t ∈ ts, t.device = cfg.i2cAddress addr) ∧
      ∀ a, target ≤ a → a + 256 ≤ target + readBuf.length →
        cfg.pageSize < a % cfg.pageSize + 256 := by
  induction rounds generalizing target readBuf ts with
  | zero => simp [writePages] at h
  | succ rounds ih =>
    rw [writePages] at h
    split_ifs at h with hempty
    · obtain rfl : [] = ts := Option.some.inj h
      subst hempty
      exact ⟨by simp, fun a ha hlen => by simp at hlen; omega⟩
    obtain ⟨packet, hpacket, h⟩ := Option.bind_eq_some_iff.mp h
    obtain ⟨rest, hrest, rfl⟩ := Option.map_eq_some_iff.mp h
    obtain ⟨hdevices, hshort⟩ := ih hrest
    refine ⟨List.forall_mem_cons.mpr ⟨rfl, hdevices⟩, fun a ha hlen => ?_⟩
    have hn : writeLength cfg target readBuf.length < 256 :=
      lt_of_not_ge fun hn => by simp [copyBytes_eq_none hn] at hpacket
    rcases Nat.lt_or_ge a (target + writeLength cfg target readBuf.length) with hlt | hge
    · exact lt_of_not_ge fun hpage => Nat.not_le.mpr hn (le_writeLength ha hlt hlen hpage)
    · have hle := (writeLength_le cfg target readBuf.length).1
      exact hshort a hge (by rw [List.length_drop]; omega)

theorem writePages_fits {addr len fuel rounds target : ℕ} {readBuf : List (BitVec 8)}
    (hfits : Fits cfg addr len) (haddr : addr < cfg.byteCount)
    (hcount : addr + len ≤ cfg.byteCount) (hfuel : 256 ≤ fuel) (hle : addr ≤ target)
    (hlen : target + readBuf.length = addr + len) (hrounds : readBuf.length < rounds)
    (hpage : readBuf = [] ∨ target = addr ∨ cfg.pageSize ∣ target) :
    ∃ ts, writePages cfg addr fuel rounds target readBuf = some ts ∧
      (∀ t ∈ ts, ∀ loc ∈ t.location cfg,
        loc % cfg.pageSize + (t.data cfg).length ≤ cfg.pageSize) ∧
      ∀ mem, ts.foldl (receive cfg) mem = mem.write target readBuf := by
  induction rounds generalizing target readBuf with
  | zero => omega
  | succ rounds ih =>
    by_cases hempty : readBuf = []
    · subst hempty
      exact ⟨[], by simp [writePages], by simp, fun mem => by simp⟩
    have hpos : 0 < readBuf.length := List.length_pos_of_ne_nil hempty
    set n := writeLength cfg target readBuf.length with hn
    obtain ⟨hnle, hnpage⟩ := writeLength_le cfg target readBuf.length
    have hnpos := writeLength_pos cfg target hpos
    rw [← hn] at hnle hnpage hnpos
    have hshort : n < 256 := by
      refine lt_of_not_ge fun hbig => ?_
      have h := hfits.short target hle (by omega)
      omega
    have hblock : target / cfg.blockSize = addr / cfg.blockSize := by
      rcases hpage.resolve_left hempty with rfl | hdvd
      · rfl
      rcases hle.eq_or_lt with rfl | hlt
      · rfl
      exact hfits.oneDevice target hlt (by omega) hdvd
    have hcopy : copyBytes readBuf n fuel 0 (targetAddress cfg.addressSize target) =
        some (targetAddress cfg.addressSize target ++ readBuf.take n) := by
      simpa using copyBytes_eq_some (i := 0) (targetAddress cfg.addressSize target) hshort
        (Nat.zero_le n) hnle (by simp; omega)
    have htake : (readBuf.take n).length = n := by rw [List.length_take]; omega
    obtain ⟨hlocation, hdata, hreceive⟩ := @receive_eq_write cfg target addr (readBuf.take n)
      (by omega) haddr hblock (by rw [htake]; exact hnpage)
    have hnext : readBuf.drop n = [] ∨ target + n = addr ∨ cfg.pageSize ∣ target + n := by
      by_cases hlast : n = readBuf.length
      · exact .inl (by rw [hlast, List.drop_length])
      · exact .inr (.inr (dvd_add_writeLength hlast))
    obtain ⟨ts, hts, hbounded, hwrite⟩ := @ih (target + n) (readBuf.drop n)
      (by omega) (by rw [List.length_drop]; omega) (by rw [List.length_drop]; omega) hnext
    let t : Transaction :=
      ⟨cfg.i2cAddress addr, targetAddress cfg.addressSize target ++ readBuf.take n⟩
    refine ⟨t :: ts, ?_, List.forall_mem_cons.mpr ⟨?_, hbounded⟩, fun mem => ?_⟩
    · rw [writePages, if_neg hempty, ← hn]
      simp only [hcopy, Option.bind_some, hts, Option.map_some, t]
    · rintro loc hloc
      obtain rfl : target = loc := Option.some.inj (hlocation.symm.trans hloc)
      rw [hdata, htake]
      exact hnpage
    · rw [List.foldl_cons, hreceive, hwrite]
      have happend := Mem.write_append mem target (readBuf.take n) (readBuf.drop n)
      rw [List.take_append_drop, htake] at happend
      exact happend.symm

end Loops

section Blocks

variable {cfg : Config}

/-- A page behind the device address is as it was, and not every memory has the byte there. -/
theorem Exact.oneDevice {addr : ℕ} {readBuf : List (BitVec 8)} (h : Exact cfg addr readBuf)
    (hcount : addr + readBuf.length ≤ cfg.byteCount) {p : ℕ} (hp : addr < p)
    (hlt : p < addr + readBuf.length) (hpage : cfg.pageSize ∣ p) :
    p / cfg.blockSize = addr / cfg.blockSize := by
  obtain ⟨fuel, ts, hts, -, hwrite⟩ := h
  by_contra hblock
  have hdevices := (writePages_some hts).1
  have hkeep (mem : Mem (BitVec 8)) : ts.foldl (receive cfg) mem p = mem p := by
    clear hts hwrite
    induction ts generalizing mem with
    | nil => rfl
    | cons t ts ih =>
      rw [List.forall_mem_cons] at hdevices
      rw [List.foldl_cons, ih hdevices.2,
        receive_outside (by omega) hdevices.1 hp hpage hblock]
  have hmem := congrFun (hwrite fun _ => readBuf[p - addr] + 1) p
  rw [hkeep, Mem.write_of_mem _ hp.le (by omega)] at hmem
  have hne : readBuf[p - addr] + 1 ≠ readBuf[p - addr] := by
    generalize readBuf[p - addr] = b
    bv_omega
  exact hne hmem

/-- A block is exact just if it fits. -/
theorem exact_iff (cfg : Config) {addr : ℕ} {readBuf : List (BitVec 8)}
    (hcount : addr + readBuf.length ≤ cfg.byteCount) :
    Exact cfg addr readBuf ↔ Fits cfg addr readBuf.length := by
  constructor
  · intro h
    refine ⟨?_, fun p hp hlt hpage => h.oneDevice hcount hp hlt hpage⟩
    obtain ⟨fuel, ts, hts, -⟩ := h
    exact (writePages_some hts).2
  · intro hfits
    by_cases hempty : readBuf = []
    · subst hempty
      exact ⟨1, [], rfl, by simp, fun mem => by simp⟩
    have hpos : 0 < readBuf.length := List.length_pos_of_ne_nil hempty
    obtain ⟨ts, hts, hbounded, hwrite⟩ := @writePages_fits cfg addr readBuf.length
      (readBuf.length + 256) (readBuf.length + 256) addr readBuf hfits (by omega) hcount
      (by omega) le_rfl rfl (by omega) (.inr (.inl rfl))
    exact ⟨readBuf.length + 256, ts, hts, hbounded, hwrite⟩

/-- The chip of the documentation, with 256 KiB in four blocks. -/
def at24m02 : Config where
  byteCount := 262144
  pageSize := 256
  addressSize := 2
  i2cAddress := fun loc => 0b10100000#8 ||| (BitVec.ofNat 8 (loc / 65536) &&& 7#8) <<< 1
  pageSize_pos := by decide
  i2cAddress_eq_iff := by
    intro a ha b hb
    have ha' : a / 256 ^ 2 < 4 := by omega
    have hb' : b / 256 ^ 2 < 4 := by omega
    rw [show 65536 = 256 ^ 2 by decide]
    generalize a / 256 ^ 2 = i at ha' ⊢
    generalize b / 256 ^ 2 = j at hb' ⊢
    interval_cases i <;> interval_cases j <;> decide

/-- Two bytes over the end of a page. -/
theorem exact_at24m02 : Exact at24m02 255 [1, 2] ↔ Fits at24m02 255 2 :=
  exact_iff at24m02 (by decide)

/-- Two bytes over the end of the first block: the second one goes to the begin of the first
block. -/
theorem at24m02_not_exact : ¬ Exact at24m02 65535 [1, 2] := by
  intro h
  exact absurd (h.oneDevice (p := 65536) (by decide) (by decide) (by decide) (by decide))
    (by decide)

end Blocks

end Qmk.I2cEeprom
