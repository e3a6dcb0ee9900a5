import Qmk.Memory

/-! # Unicode characters by name

`ucis.c` and `process_ucis.c`. The text that is typed in a session is the first `count` characters
of `input`. What is left there from before is still behind it.
-/

namespace Qmk.Ucis

/-- An entry of `ucis_symbol_table`, with its code points. -/
structure Symbol where
  mnemonic : List (BitVec 8)
  codePoints : List (BitVec 32)
  nul_not_mem : 0 ∉ mnemonic

/-- The table, `UCIS_MAX_INPUT_LENGTH` and `UCIS_MAX_CODE_POINTS`. `count` is a byte, and so are the
indices of the loops up to it. -/
structure Config where
  table : List Symbol
  maxInputLength : ℕ := 32
  maxCodePoints : ℕ := 3
  maxInputLength_le : maxInputLength ≤ 254 := by decide

inductive Call
  | registerUnicode (codePoint : BitVec 32)
  | tapBackspace
  | registerUcis (index : ℕ)
  deriving DecidableEq

/-- The statics of `ucis.c`, with the memory at `input` and behind it, the calls so far, and the
indices of `input` that have been read. -/
structure State where
  count : ℕ := 0
  active : Bool := false
  input : Mem (BitVec 8)
  calls : List Call := []
  reads : List ℕ := []

section Keycodes

abbrev Keycode := BitVec 16

def kcA : Keycode := 0x04

def kcZ : Keycode := 0x1D

def kc1 : Keycode := 0x1E

def kc9 : Keycode := 0x26

def kc0 : Keycode := 0x27

def kcEnter : Keycode := 0x28

def kcEscape : Keycode := 0x29

def kcBackspace : Keycode := 0x2A

def kcSpace : Keycode := 0x2C

end Keycodes

section Ucis

variable (cfg : Config)

def ucisStart (s : State) : State :=
  { s with count := 0, active := true, calls := s.calls ++ [.registerUnicode 0x2328] }

def keycodeToChar (keycode : Keycode) : BitVec 8 :=
  if kcA ≤ keycode ∧ keycode ≤ kcZ then 97 + (keycode - kcA).setWidth 8
  else if kc1 ≤ keycode ∧ keycode ≤ kc9 then 49 + (keycode - kc1).setWidth 8
  else if keycode = kc0 then 48
  else 0

def ucisAdd (keycode : Keycode) (s : State) : Bool × State :=
  let c := keycodeToChar keycode
  if c ≠ 0 then
    (true, { s with input := s.input.write s.count [c], count := (s.count + 1) % 256 })
  else (false, s)

def ucisRemoveLast (s : State) : Bool × State :=
  if s.count ≠ 0 then (true, { s with count := s.count - 1 }) else (false, s)

/-- The loop of `match_mnemonic` from an index on, with the indices of `input` that it reads. It
ends before the fuel does if that reaches behind `count`. -/
def matchFrom (input : Mem (BitVec 8)) (count : ℕ) (mnemonic : List (BitVec 8)) :
    ℕ → ℕ → Bool × List ℕ
  | 0, _ => (false, [])
  | fuel + 1, i =>
    if input i = 0 then (true, [i])
    else if count < i ∨ input i ≠ mnemonic.getD i 0 then (false, [i])
    else
      let (found, reads) := matchFrom input count mnemonic fuel (i + 1)
      (found, i :: reads)

def matchMnemonic (s : State) (mnemonic : List (BitVec 8)) : Bool × List ℕ :=
  matchFrom s.input s.count mnemonic (s.count + 2) 0

/-- The entry that the loop of `ucis_finish` finds, and what it reads. -/
structure Search where
  found : Option ℕ
  reads : List ℕ
  deriving DecidableEq

/-- The loop of `ucis_finish` from an index on, which is a byte, with no value if it does not end in
`fuel` rounds. -/
def findSymbol (s : State) : ℕ → ℕ → Option Search
  | 0, _ => none
  | fuel + 1, i =>
    match cfg.table[i]? with
    | none => some ⟨none, []⟩
    | some symbol =>
      let (found, reads) := matchMnemonic s symbol.mnemonic
      if found then some ⟨some i, reads⟩
      else (findSymbol s fuel ((i + 1) % 256)).map fun r => ⟨r.found, reads ++ r.reads⟩

def registered (index : ℕ) : List (BitVec 32) :=
  match cfg.table[index]? with
  | none => []
  | some symbol => (symbol.codePoints.take cfg.maxCodePoints).takeWhile (· ≠ 0)

def registerUcis (index : ℕ) : List Call :=
  .registerUcis index :: (registered cfg index).map .registerUnicode

def ucisFinish (fuel : ℕ) (s : State) : Option State :=
  (findSymbol cfg s fuel 0).map fun r =>
    let calls :=
      match r.found with
      | some i => List.replicate (s.count + 1) .tapBackspace ++ registerUcis cfg i
      | none => []
    { s with active := false, calls := s.calls ++ calls, reads := s.reads ++ r.reads }

def ucisCancel (s : State) : State := { s with count := 0, active := false }

/-- `process_ucis`, with whether the key is processed further. -/
def processUcis (fuel : ℕ) (keycode : Keycode) (pressed : Bool) (s : State) :
    Option (Bool × State) :=
  if s.active ∧ pressed then
    let special := keycode = kcSpace ∨ keycode = kcEnter ∨ keycode = kcEscape ∨
      keycode = kcBackspace
    if cfg.maxInputLength ≤ s.count ∧ ¬ special then some (false, s)
    else
      let (added, s) := ucisAdd keycode s
      if added then some (true, s)
      else if keycode = kcBackspace then some (ucisRemoveLast s)
      else if keycode = kcEscape then some (false, ucisCancel s)
      else if keycode = kcSpace ∨ keycode = kcEnter then
        (ucisFinish cfg fuel s).map fun s => (false, s)
      else some (true, s)
  else some (true, s)

end Ucis

section Runs

/-- A call of `ucis_start`, or a key that `process_ucis` sees. -/
inductive Event
  | start
  | key (keycode : Keycode) (pressed : Bool)
  deriving DecidableEq

variable (cfg : Config)

def step (fuel : ℕ) (s : State) : Event → Option State
  | .start => some (ucisStart s)
  | .key keycode pressed => (processUcis cfg fuel keycode pressed s).map Prod.snd

/-- A run, with no value if a loop in it does not end in `fuel` rounds. -/
def run (fuel : ℕ) (s : State) (events : List Event) : Option State :=
  events.foldlM (step cfg fuel) s

end Runs

end Qmk.Ucis
