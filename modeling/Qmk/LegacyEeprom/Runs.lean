import Qmk.LegacyEeprom.Synced

/-! # Runs of the driver

A block write is a sequence of byte and word writes, so every call is a sequence
of these, an initialisation or an erase.
-/

namespace Qmk.LegacyEeprom

variable (cfg : Config)

inductive Write
  | byte (address : ℕ) (value : BitVec 8)
  | word (address : ℕ) (value : BitVec 16)
  deriving DecidableEq, Repr

def Write.run (s : State) : Write → State
  | .byte a v => (eepromWriteDataByte cfg a v s).2
  | .word a w => (eepromWriteDataWord cfg a w s).2

def Write.apply (m : Mem (BitVec 8)) : Write → Mem (BitVec 8)
  | .byte a v => m.write a [v]
  | .word a w => storeHalfWord m a w

def Write.Covers (x : ℕ) : Write → Prop
  | .byte a _ => x = a
  | .word a _ => x = a ∨ x = a + 1

/-- The write does not zero a full log. -/
def Write.Safe (s : State) : Write → Prop
  | .byte _ _ => True
  | .word a w => ¬ ZeroesFullLog cfg a w s

instance (s : State) : ∀ w : Write, Decidable (w.Safe cfg s)
  | .byte _ _ => isTrue trivial
  | .word a w => inferInstanceAs (Decidable (¬ ZeroesFullLog cfg a w s))

inductive Call
  | init
  | erase
  | write (w : Write)
  | block (address : ℕ) (value : List (BitVec 8))
  deriving DecidableEq, Repr

def step (s : State) : Call → State
  | .init => eepromInit cfg s
  | .erase => eepromErase cfg s
  | .write w => w.run cfg s
  | .block a v => eepromWriteBlock cfg v a s

def run (s : State) (calls : List Call) : State := calls.foldl (step cfg) s

def wordWrites : List (BitVec 8) → ℕ → List Write
  | [], _ => []
  | [b], dest => [.byte (toAddress dest) b]
  | b₀ :: b₁ :: buf, dest => .word (toAddress dest) (b₁ ++ b₀) :: wordWrites buf (dest + 2)

def blockWrites (buf : List (BitVec 8)) (dest : ℕ) : List Write :=
  match buf with
  | [] => []
  | b :: bs =>
    if dest % 2 = 1 then .byte (toAddress dest) b :: wordWrites bs (dest + 1)
    else wordWrites (b :: bs) dest

def Call.writes : Call → List Write
  | .init | .erase => []
  | .write w => [w]
  | .block a v => blockWrites v a

/-- Every write is safe in the state in which it is made. -/
def writeGuard : Monitor Write State where
  next := Write.run cfg
  ok s w := w.Safe cfg s

instance : ∀ s w, Decidable ((writeGuard cfg).ok s w) :=
  fun s w => inferInstanceAs (Decidable (w.Safe cfg s))

def callGuard : Monitor Call State where
  next := step cfg
  ok s c := (writeGuard cfg).Accepts s c.writes

instance : ∀ s c, Decidable ((callGuard cfg).ok s c) :=
  fun s c => inferInstanceAs (Decidable ((writeGuard cfg).Accepts s c.writes))

variable {cfg}

theorem writeWords_eq (buf : List (BitVec 8)) (dest : ℕ) (s : State) :
    writeWords cfg buf dest s = (writeGuard cfg).after s (wordWrites buf dest) := by
  fun_induction writeWords cfg buf dest s with
  | case1 _ _ => rfl
  | case2 _ _ _ => rfl
  | case3 b₀ b₁ buf dest s ih => exact ih

theorem writeBlock_eq (buf : List (BitVec 8)) (dest : ℕ) (s : State) :
    eepromWriteBlock cfg buf dest s = (writeGuard cfg).after s (blockWrites buf dest) := by
  cases buf with
  | nil => rfl
  | cons b bs =>
    simp only [eepromWriteBlock, blockWrites]
    split_ifs
    · exact writeWords_eq _ _ _
    · exact writeWords_eq _ _ _

namespace Synced

variable {s : State}

/-- A safe write takes the flash from the old array to the new one. -/
theorem wrote (h : Synced cfg s) {w : Write} (hw : w.Safe cfg s) :
    Wrote cfg s (w.run cfg s) s.dataBuf (w.apply s.dataBuf) ∧
    ∀ x < cfg.densityBytes, (w.run cfg s).dataBuf x = w.apply s.dataBuf x := by
  cases w with
  | byte a v => exact h.writeDataByte a v
  | word a w => exact h.writeDataWord hw

theorem write (h : Synced cfg s) {w : Write} (hw : w.Safe cfg s) : Synced cfg (w.run cfg s) := by
  obtain ⟨hwr, hb⟩ := h.wrote hw
  exact hwr.holds.congr fun x hx => (hb x hx).symm

theorem init_eq (h : Synced cfg s) : eepromInit cfg s = s := by
  obtain ⟨hk, hin, hout⟩ := h.init (s := s) rfl
  have hb : (eepromInit cfg s).dataBuf = s.dataBuf := by
    funext x
    rcases Nat.lt_or_ge x cfg.densityBytes with hx | hx
    · exact hin x hx
    · exact hout x hx
  exact State.ext rfl hb hk rfl

theorem of_init {k : ℕ} {b : Mem (BitVec 8)} (h : Holds cfg s.flash k b) :
    Synced cfg (eepromInit cfg s) := by
  obtain ⟨hk, hin, -⟩ := h.init rfl
  rw [Synced, hk]
  exact Holds.congr h fun x hx => (hin x hx).symm

theorem writes {ws : List Write} (h : Synced cfg s) (hw : (writeGuard cfg).Accepts s ws) :
    Synced cfg ((writeGuard cfg).after s ws) :=
  hw.invariant (fun _ _ hs hok => hs.write hok) h

/-- Every safe call keeps the flash and RAM in agreement. -/
theorem step (h : Synced cfg s) {c : Call} (hc : (callGuard cfg).ok s c) :
    Synced cfg (step cfg s c) := by
  cases c with
  | init =>
    change Synced cfg (eepromInit cfg s)
    rwa [h.init_eq]
  | erase => exact .of_init (.erased fun _ _ => rfl)
  | write w => exact h.write hc.1
  | block a v =>
    change Synced cfg (eepromWriteBlock cfg v a s)
    rw [writeBlock_eq]
    exact h.writes hc

end Synced

end Qmk.LegacyEeprom
