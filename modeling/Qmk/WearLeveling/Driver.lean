import Qmk.WearLeveling.LogEntry

/-! # The backing store and the wear-leveling driver

The backing store is a byte memory together with the list of calls made to it.
An environment decides which calls fail and what a failed erase or write leaves
behind. The driver functions follow `wear_leveling.c`, with the cache, the write
address and the lock flag as explicit state.
-/

namespace Qmk.WearLeveling

/-- The calls of the backing store API. -/
inductive StoreCall
  | init | unlock | lock | erase
  | write (address : ℕ) (value : List UInt8)
  | read (address : ℕ)
  deriving DecidableEq, Repr

/-- What the driver runs against. The number given to `fails` and `leftover` is the number of
store calls made before; `stack` gives the bytes of a log entry that no read has filled. -/
structure Env where
  fnv64aBuf : List UInt8 → Vector UInt8 8
  fails : ℕ → StoreCall → Bool
  leftover : ℕ → Mem UInt8
  stack : ℕ → ℕ → UInt8

/-- The `wear_leveling` structure, the contents of the backing store and the calls made to it,
oldest first. -/
structure State where
  cache : Mem UInt8
  writeAddress : ℕ
  unlocked : Bool
  store : Mem UInt8
  calls : List StoreCall

/-- `fnv_64a_buf` started with `FNV1A_64_INIT`, as the bytes of its little-endian result. -/
def fnv64aBuf (buf : List UInt8) : Vector UInt8 8 :=
  let hval := buf.foldl (fun hval b => (hval ^^^ b.toUInt64) * 0x100000001b3)
    (0xcbf29ce484222325 : UInt64)
  Vector.ofFn fun i => (hval >>> (8 * i.val).toUInt64).toUInt8

/-- A store that never fails, with the hash of the firmware. -/
def Env.working : Env where
  fnv64aBuf := WearLeveling.fnv64aBuf
  fails _ _ := false
  leftover _ _ := 0
  stack _ _ := 0

/-- Zero-initialised RAM over an erased store. -/
def State.blank : State where
  cache _ := 0
  writeAddress := 0
  unlocked := false
  store _ := 0
  calls := []

/-- Sixteen logical bytes over 4-byte words, with room for six words in the log. -/
def Config.small : Config where
  writeSize := .four
  backingSize := 48
  logicalSize := 16
  backing_ge := by decide
  logical_mod := by decide
  backing_mod := by decide

inductive Status | failed | success | consolidated
  deriving DecidableEq, Repr

inductive LockStatus | failure | success | unchanged
  deriving DecidableEq, Repr

/-- `if (status != WEAR_LEVELING_SUCCESS) return status;` before the rest of a function. -/
def andThen (r : Status × State) (k : State → Status × State) : Status × State :=
  if r.1 = .success then k r.2 else r

section BackingStore

variable (env : Env) (cfg : Config)

def State.record (s : State) (c : StoreCall) : State := { s with calls := s.calls ++ [c] }

def backingStoreInit (s : State) : Bool × State :=
  (!env.fails s.calls.length .init, s.record .init)

def backingStoreUnlock (s : State) : Bool × State :=
  (!env.fails s.calls.length .unlock, s.record .unlock)

def backingStoreLock (s : State) : Bool × State :=
  (!env.fails s.calls.length .lock, s.record .lock)

/-- An erased store reads as zero; a failed erase leaves anything behind. -/
def backingStoreErase (s : State) : Bool × State :=
  let n := s.calls.length
  if env.fails n .erase then
    (false, { s.record .erase with
      store := s.store.write 0 ((env.leftover n).read 0 cfg.backingSize) })
  else
    (true, { s.record .erase with store := s.store.write 0 (List.replicate cfg.backingSize 0) })

/-- A failed write leaves anything behind in the word it was aimed at. -/
def backingStoreWrite (address : ℕ) (value : List UInt8) (s : State) : Bool × State :=
  let n := s.calls.length
  if env.fails n (.write address value) then
    (false, { s.record (.write address value) with
      store := s.store.write address ((env.leftover n).read address value.length) })
  else
    (true, { s.record (.write address value) with store := s.store.write address value })

def backingStoreRead (address : ℕ) (s : State) : Option (List UInt8) × State :=
  (if env.fails s.calls.length (.read address) then none
    else some (s.store.read address cfg.wordBytes), s.record (.read address))

def backingStoreWriteBulk (address : ℕ) : List (List UInt8) → State → Bool × State
  | [], s => (true, s)
  | v :: vs, s =>
    let r := backingStoreWrite env address v s
    if r.1 then backingStoreWriteBulk (address + cfg.wordBytes) vs r.2 else (false, r.2)

def backingStoreReadBulk (address : ℕ) : ℕ → State → Bool × List UInt8 × State
  | 0, s => (true, [], s)
  | count + 1, s =>
    match backingStoreRead env cfg address s with
    | (none, s) => (false, [], s)
    | (some v, s) =>
      let r := backingStoreReadBulk (address + cfg.wordBytes) count s
      (r.1, v ++ r.2.1, r.2.2)

end BackingStore

section Locking

variable (env : Env)

def wearLevelingUnlock (s : State) : LockStatus × State :=
  if s.unlocked then (.unchanged, s)
  else
    let r := backingStoreUnlock env s
    if r.1 then (.success, { r.2 with unlocked := true }) else (.failure, r.2)

def wearLevelingLock (s : State) : LockStatus × State :=
  if s.unlocked then
    let r := backingStoreLock env s
    if r.1 then (.success, { r.2 with unlocked := false }) else (.failure, r.2)
  else (.unchanged, s)

end Locking

section Consolidation

variable (env : Env) (cfg : Config)

def wearLevelingClearCache (s : State) : State :=
  { s with
    cache := s.cache.write 0 (List.replicate cfg.logicalSize 0)
    writeAddress := cfg.logStart }

/-- The `raw8` view of an entry of which `bytes` have been read. -/
def rawEntry (s : State) (bytes : List UInt8) : Raw8 :=
  fun i => bytes.getD i (env.stack s.calls.length i)

def wearLevelingReadConsolidated (s : State) : Status × State :=
  let r := backingStoreReadBulk env cfg 0 (cfg.logicalSize / cfg.wordBytes) s
  let s := { r.2.2 with cache := r.2.2.cache.write 0 r.2.1 }
  if r.1 then
    let expected := env.fnv64aBuf (s.cache.read 0 cfg.logicalSize)
    let h := backingStoreReadBulk env cfg cfg.logicalSize (8 / cfg.wordBytes) s
    if Mem.read (rawEntry env h.2.2 h.2.1) 0 8 = expected.toList then (.success, h.2.2)
    else (.success, wearLevelingClearCache cfg h.2.2)
  else (.failed, wearLevelingClearCache cfg s)

/-- The `n` words of a memory starting at address 0. -/
def wordsOf (m : Mem UInt8) (n : ℕ) : List (List UInt8) :=
  (List.range n).map fun i => m.read (i * cfg.wordBytes) cfg.wordBytes

/-- The `i`th backing store word of a log entry. -/
def rawWord (log : List UInt8) (i : ℕ) : List UInt8 :=
  (log.drop (i * cfg.wordBytes)).take cfg.wordBytes

def wearLevelingWriteConsolidated (s : State) : Status × State :=
  let lock := wearLevelingUnlock env s
  let w := backingStoreWriteBulk env cfg 0
    (wordsOf cfg lock.2.cache (cfg.logicalSize / cfg.wordBytes)) lock.2
  let entry := (env.fnv64aBuf (w.2.cache.read 0 cfg.logicalSize)).toList
  let h := if w.1 then
      backingStoreWriteBulk env cfg cfg.logicalSize
        ((List.range (8 / cfg.wordBytes)).map (rawWord cfg entry)) w.2
    else w
  let s := if lock.1 = .success then (wearLevelingLock env h.2).2 else h.2
  (if h.1 then .consolidated else .failed, s)

def wearLevelingConsolidateForce (s : State) : Status × State :=
  let e := backingStoreErase env cfg s
  if e.1 then
    let r := wearLevelingWriteConsolidated env cfg e.2
    (r.1, { r.2 with writeAddress := cfg.logStart })
  else (.failed, e.2)

def wearLevelingConsolidateIfNeeded (s : State) : Status × State :=
  if cfg.backingSize ≤ s.writeAddress then wearLevelingConsolidateForce env cfg s
  else (.success, s)

end Consolidation

section WriteLog

variable (env : Env) (cfg : Config)

def wearLevelingAppendRaw (value : List UInt8) (s : State) : Status × State :=
  let r := backingStoreWrite env s.writeAddress value s
  if r.1 then
    wearLevelingConsolidateIfNeeded env cfg
      { r.2 with writeAddress := r.2.writeAddress + cfg.wordBytes }
  else (.failed, r.2)

/-- The entry of a multi-byte write: the header and the payload copied behind it. -/
def multibyteEntry (address : ℕ) (value : List UInt8) : List UInt8 :=
  let log := logEntryMakeMultibyte address value.length
  log.take 3 ++ value ++ log.drop (3 + value.length)

def wearLevelingWriteRawMultibyte (address : ℕ) (value : List UInt8) (s : State) :
    Status × State :=
  let log := multibyteEntry address value
  let append i := wearLevelingAppendRaw env cfg (rawWord cfg log i)
  match cfg.writeSize with
  | .two =>
    andThen (append 0 s) fun s => andThen (append 1 s) fun s =>
      andThen (if 1 < value.length then append 2 s else (.success, s)) fun s =>
        if 3 < value.length then append 3 s else (.success, s)
  | .four =>
    andThen (append 0 s) fun s => if 1 < value.length then append 1 s else (.success, s)
  | .eight => append 0 s

/-- The value of the 16-bit word optimisation, where it applies to the remaining bytes. -/
def word01Value? (address : ℕ) : List UInt8 → Option ℕ
  | b0 :: b1 :: _ =>
    let v := b1.toNat <<< 8 ||| b0.toNat
    if address % 2 = 0 ∧ address < 16384 ∧ (v = 0 ∨ v = 1) then some v else none
  | _ => none

/-- The write loop; every pass consumes at least one byte, so the number of bytes is enough
fuel. -/
def writeRawLoop : ℕ → ℕ → List UInt8 → State → Status × State
  | 0, _, _, s => (.success, s)
  | _ + 1, _, [], s => (.success, s)
  | fuel + 1, address, b :: p, s =>
    let multibyte := fun s =>
      let length := if logEntryMultibyteMaxBytes ≤ (b :: p).length
        then logEntryMultibyteMaxBytes else (b :: p).length
      andThen (wearLevelingWriteRawMultibyte env cfg address ((b :: p).take length) s)
        (writeRawLoop fuel (address + length) ((b :: p).drop length))
    if cfg.writeSize = .two then
      match word01Value? address (b :: p) with
      | some v =>
        andThen (wearLevelingAppendRaw env cfg (rawWord cfg (logEntryMakeWord01 address v) 0) s)
          (writeRawLoop fuel (address + 2) ((b :: p).drop 2))
      | none =>
        if address < 64 then
          andThen
            (wearLevelingAppendRaw env cfg (rawWord cfg (logEntryMakeOptimized64 address b) 0) s)
            (writeRawLoop fuel (address + 1) p)
        else multibyte s
    else multibyte s

def wearLevelingWriteRaw (address : ℕ) (value : List UInt8) (s : State) : Status × State :=
  writeRawLoop env cfg value.length address value s

end WriteLog

section Playback

variable (env : Env) (cfg : Config)

structure Playback where
  cancel : Bool
  status : Status
  address : ℕ
  deriving DecidableEq, Repr

/-- Read one more word of an entry when `wanted`. -/
def readMore (wanted : Bool) (log : List UInt8) (address : ℕ) (s : State) :
    Bool × List UInt8 × ℕ × State :=
  if wanted then
    match backingStoreRead env cfg address s with
    | (none, s) => (false, log, address, s)
    | (some v, s) => (true, log ++ v, address + cfg.wordBytes, s)
  else (true, log, address, s)

/-- The multi-byte case of the switch. The second word of a 4-byte entry and the third word of
a 2-byte entry are both wanted exactly when there is more than one byte of payload. -/
def playbackMultibyte (log : List UInt8) (address : ℕ) (s : State) : Playback × State :=
  match readMore env cfg (cfg.writeSize = .two) log address s with
  | (false, _, address, s) => (⟨true, .failed, address⟩, s)
  | (true, log, address, s) =>
    let a := logEntryMultibyteGetAddress (rawEntry env s log)
    let l := logEntryMultibyteGetLength (rawEntry env s log)
    if cfg.logicalSize < a + l then (⟨true, .failed, address⟩, s)
    else
      match readMore env cfg (cfg.writeSize ≠ .eight ∧ 1 < l) log address s with
      | (false, _, address, s) => (⟨true, .failed, address⟩, s)
      | (true, log, address, s) =>
        match readMore env cfg (cfg.writeSize = .two ∧ 3 < l) log address s with
        | (false, _, address, s) => (⟨true, .failed, address⟩, s)
        | (true, log, address, s) =>
          (⟨false, .success, address⟩,
            { s with cache := s.cache.write a (Mem.read (rawEntry env s log) 3 l) })

def playbackEntry (address : ℕ) (s : State) : Playback × State :=
  match backingStoreRead env cfg address s with
  | (none, s) => (⟨true, .failed, address⟩, s)
  | (some value, s) =>
    if value = List.replicate cfg.wordBytes 0 then (⟨true, .success, address⟩, s)
    else
      let address := address + cfg.wordBytes
      let log := rawEntry env s value
      if logEntryGetType log = LogEntryType.multibyte.code then
        playbackMultibyte env cfg value address s
      else if cfg.writeSize = .two ∧ logEntryGetType log = LogEntryType.optimized64.code then
        let a := logEntryOptimized64GetAddress log
        if cfg.logicalSize ≤ a then (⟨true, .failed, address⟩, s)
        else (⟨false, .success, address⟩,
          { s with cache := s.cache.write a [logEntryOptimized64GetValue log] })
      else if cfg.writeSize = .two ∧ logEntryGetType log = LogEntryType.word01.code then
        let a := logEntryWord01GetAddress log
        if cfg.logicalSize ≤ a + 1 then (⟨true, .failed, address⟩, s)
        else (⟨false, .success, address⟩,
          { s with cache := s.cache.write a [UInt8.ofNat (logEntryWord01GetValue log), 0] })
      else (⟨true, .failed, address⟩, s)

/-- The playback loop; every pass that goes on advances the address, so the backing size is
enough fuel. -/
def playbackLoop : ℕ → ℕ → State → Playback × State
  | 0, address, s => (⟨false, .success, address⟩, s)
  | fuel + 1, address, s =>
    if address < cfg.backingSize then
      let r := playbackEntry env cfg address s
      if r.1.cancel then r else playbackLoop fuel r.1.address r.2
    else (⟨false, .success, address⟩, s)

def wearLevelingPlaybackLog (s : State) : Status × State :=
  let r := playbackLoop env cfg cfg.backingSize cfg.logStart s
  let s := { r.2 with writeAddress := r.1.address }
  if r.1.status = .failed then wearLevelingConsolidateForce env cfg s
  else wearLevelingConsolidateIfNeeded env cfg s

end Playback

section PublicApi

variable (env : Env) (cfg : Config)

def wearLevelingInit (s : State) : Status × State :=
  let b := backingStoreInit env (wearLevelingClearCache cfg s)
  if b.1 then
    let r := wearLevelingReadConsolidated env cfg b.2
    if r.1 = .failed then (.failed, wearLevelingClearCache cfg r.2)
    else
      let p := wearLevelingPlaybackLog env cfg r.2
      if p.1 = .failed then (.failed, wearLevelingClearCache cfg p.2) else p
  else (.failed, wearLevelingClearCache cfg b.2)

def wearLevelingErase (s : State) : Status × State :=
  let lock := wearLevelingUnlock env s
  if lock.1 = .failure then (.failed, (wearLevelingLock env lock.2).2)
  else
    let e := backingStoreErase env cfg lock.2
    let s := wearLevelingClearCache cfg e.2
    if lock.1 = .success then
      let l := wearLevelingLock env s
      (if e.1 ∧ l.1 ≠ .failure then .success else .failed, l.2)
    else (if e.1 then .success else .failed, s)

/-- The range check of the source adds in 32 bits and is this one under `Op.NoWrap`. -/
def wearLevelingWrite (address : ℕ) (value : List UInt8) (s : State) : Status × State :=
  if cfg.logicalSize < address + value.length then (.failed, s)
  else if s.cache.read address value.length = value then (.success, s)
  else
    let s := { s with cache := s.cache.write address value }
    let lock := wearLevelingUnlock env s
    if lock.1 = .failure then (.failed, (wearLevelingLock env lock.2).2)
    else
      let r := wearLevelingWriteRaw env cfg address value lock.2
      let r := if r.1 = .success then wearLevelingConsolidateIfNeeded env cfg r.2 else r
      if lock.1 = .success then
        let l := wearLevelingLock env r.2
        (if l.1 = .failure then .failed else r.1, l.2)
      else r

/-- Reads come from the cache only; no bytes are returned for a range outside it. The range check
is that of `wearLevelingWrite`. -/
def wearLevelingRead (address length : ℕ) (s : State) : Status × List UInt8 :=
  if cfg.logicalSize < address + length then (.failed, [])
  else (.success, s.cache.read address length)

/-- The public calls that a client can make. -/
inductive Op
  | init | erase
  | write (address : ℕ) (value : List UInt8)
  | read (address length : ℕ)
  deriving DecidableEq, Repr

def step (s : State) : Op → State
  | .init => (wearLevelingInit env cfg s).2
  | .erase => (wearLevelingErase env cfg s).2
  | .write address value => (wearLevelingWrite env cfg address value s).2
  | .read _ _ => s

def run (s : State) (ops : List Op) : State := ops.foldl (step env cfg) s

def Op.status (s : State) : Op → Status
  | .init => (wearLevelingInit env cfg s).1
  | .erase => (wearLevelingErase env cfg s).1
  | .write address value => (wearLevelingWrite env cfg address value s).1
  | .read address length => (wearLevelingRead cfg address length s).1

/-- The arguments of a call stay inside the logical data. -/
def Op.InRange : Op → Prop
  | .write address value => address + value.length ≤ cfg.logicalSize
  | .read address length => address + length ≤ cfg.logicalSize
  | _ => True

/-- `address + length` is a sum of 32-bit numbers that does not wrap for the arguments of the
call. -/
def Op.NoWrap : Op → Prop
  | .write address value => address + value.length < 2 ^ 32
  | .read address length => address + length < 2 ^ 32
  | _ => True

end PublicApi

end Qmk.WearLeveling
