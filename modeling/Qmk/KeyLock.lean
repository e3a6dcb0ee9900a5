import Mathlib.Data.List.Induction
import Mathlib.Logic.Function.Basic
import Mathlib.Tactic.IntervalCases

/-! # Key lock

`process_key_lock.c`: a lock bit for each of the standard keycodes, in four words. The release of a
locked key is kept from the host, and so is the press that unlocks it.
-/

namespace Qmk.KeyLock

section Model

structure KeyState where
  word0 : BitVec 64 := 0
  word1 : BitVec 64 := 0
  word2 : BitVec 64 := 0
  word3 : BitVec 64 := 0
  deriving DecidableEq, Repr

def bv64 (shift : ℕ) : BitVec 64 := 1 <<< shift

def getKeyArray (s : KeyState) (code : UInt16) : BitVec 64 :=
  if code < 0x40 then s.word0
  else if code < 0x80 then s.word1
  else if code < 0xC0 then s.word2
  else s.word3

def getCodeIndex (code : UInt16) : ℕ :=
  if code < 0x40 then code.toNat
  else if code < 0x80 then (code - 0x40).toNat
  else if code < 0xC0 then (code - 0x80).toNat
  else (code - 0xC0).toNat

def keyState (s : KeyState) (code : UInt16) : Bool :=
  getKeyArray s code &&& bv64 (getCodeIndex code) = bv64 (getCodeIndex code)

def setKeyArrayState (s : KeyState) (code : UInt16) (val : BitVec 64) : KeyState :=
  if code ≤ 0x3F then { s with word0 := val }
  else if 0x40 ≤ code ∧ code ≤ 0x7F then { s with word1 := val }
  else if 0x80 ≤ code ∧ code ≤ 0xBF then { s with word2 := val }
  else if 0xC0 ≤ code ∧ code ≤ 0xFF then { s with word3 := val }
  else s

def setKeyState (s : KeyState) (code : UInt16) : KeyState :=
  setKeyArrayState s code (getKeyArray s code ||| bv64 (getCodeIndex code))

def unsetKeyState (s : KeyState) (code : UInt16) : KeyState :=
  setKeyArrayState s code (getKeyArray s code &&& ~~~bv64 (getCodeIndex code))

def isStandardKeycode (code : UInt16) : Bool := code ≤ 0xFF

def QK_LOCK : UInt16 := 0x7C59

/-- One-shot keys stand for the keys in their lower bits. -/
def translateKeycode (keycode : UInt16) : UInt16 :=
  if 0x52A0 < keycode ∧ keycode ≤ 0x52BF then keycode ^^^ 0x52A0 else keycode

structure State where
  keyState : KeyState := {}
  watching : Bool := false
  deriving DecidableEq, Repr

structure Event where
  keycode : UInt16
  pressed : Bool
  deriving DecidableEq, Repr

/-- Whether the event is passed on, the keycode that it then has, and the state. -/
structure Outcome where
  passed : Bool
  keycode : UInt16
  state : State
  deriving DecidableEq, Repr

def processKeyLock (s : State) (e : Event) : Outcome :=
  let code := translateKeycode e.keycode
  if e.pressed then
    if ¬ (isStandardKeycode code ∨ code = QK_LOCK) then
      ⟨true, e.keycode, { s with watching := false }⟩
    else if code = QK_LOCK then ⟨false, e.keycode, { s with watching := !s.watching }⟩
    else if s.watching then ⟨true, code, ⟨setKeyState s.keyState code, false⟩⟩
    else if keyState s.keyState code then
      ⟨false, e.keycode, { s with keyState := unsetKeyState s.keyState code }⟩
    else ⟨true, e.keycode, s⟩
  else ⟨!(isStandardKeycode code && keyState s.keyState code), e.keycode, s⟩

end Model

section Words

def KeyState.word (s : KeyState) : ℕ → BitVec 64
  | 0 => s.word0
  | 1 => s.word1
  | 2 => s.word2
  | _ => s.word3

variable {s : KeyState} {code key : UInt16} {val : BitVec 64}

theorem word_default (i : ℕ) : KeyState.word {} i = 0 := by
  unfold KeyState.word
  split <;> rfl

theorem getKeyArray_eq (hcode : code ≤ 0xFF) : getKeyArray s code = s.word (code.toNat / 64) := by
  have hlt : code.toNat ≤ 255 := UInt16.le_iff_toNat_le.mp hcode
  have hword : ∀ i, code.toNat / 64 = i → s.word (code.toNat / 64) = s.word i := fun _ =>
    congrArg s.word
  simp only [getKeyArray, UInt16.lt_iff_toNat_lt, UInt16.toNat_ofNat]
  split_ifs with h0 h1 h2
  · exact (hword 0 (by omega)).symm
  · exact (hword 1 (by omega)).symm
  · exact (hword 2 (by omega)).symm
  · exact (hword 3 (by omega)).symm

theorem getCodeIndex_eq (hcode : code ≤ 0xFF) : getCodeIndex code = code.toNat % 64 := by
  have hlt : code.toNat ≤ 255 := UInt16.le_iff_toNat_le.mp hcode
  have hsub : ∀ base : UInt16, ¬ code < base → (code - base).toNat = code.toNat - base.toNat :=
    fun base h => UInt16.toNat_sub_of_le _ _ (UInt16.not_lt.mp h)
  unfold getCodeIndex
  split_ifs with h0 h1 h2
  · have h : code.toNat < 64 := UInt16.lt_iff_toNat_lt.mp h0
    omega
  · have h : code.toNat < 128 := UInt16.lt_iff_toNat_lt.mp h1
    rw [hsub _ h0]
    simp only [UInt16.lt_iff_toNat_lt, UInt16.toNat_ofNat] at h0 ⊢
    omega
  · have h : code.toNat < 192 := UInt16.lt_iff_toNat_lt.mp h2
    rw [hsub _ h1]
    simp only [UInt16.lt_iff_toNat_lt, UInt16.toNat_ofNat] at h1 ⊢
    omega
  · rw [hsub _ h2]
    simp only [UInt16.lt_iff_toNat_lt, UInt16.toNat_ofNat] at h2 ⊢
    omega

theorem word_setKeyArrayState (hcode : code ≤ 0xFF) {i : ℕ} (hi : i < 4) :
    (setKeyArrayState s code val).word i = if code.toNat / 64 = i then val else s.word i := by
  have hlt : code.toNat ≤ 255 := UInt16.le_iff_toNat_le.mp hcode
  simp only [setKeyArrayState, UInt16.le_iff_toNat_le, UInt16.toNat_ofNat]
  interval_cases i <;> split_ifs <;> first | rfl | omega

theorem getLsbD_bv64 {i : ℕ} (hi : i < 64) (j : ℕ) : (bv64 i).getLsbD j = decide (i = j) := by
  have hone : bv64 i = BitVec.twoPow 64 i := (BitVec.twoPow_eq 64 i).symm
  rw [hone, BitVec.getLsbD_twoPow, decide_eq_true hi, Bool.true_and]

theorem keyState_eq (hcode : code ≤ 0xFF) :
    keyState s code = (s.word (code.toNat / 64)).getLsbD (code.toNat % 64) := by
  have hindex : code.toNat % 64 < 64 := Nat.mod_lt _ (by decide)
  rw [keyState, getKeyArray_eq hcode, getCodeIndex_eq hcode]
  generalize s.word (code.toNat / 64) = x
  have hone : bv64 (code.toNat % 64) = BitVec.twoPow 64 (code.toNat % 64) :=
    (BitVec.twoPow_eq 64 _).symm
  have hne : BitVec.twoPow 64 (code.toNat % 64) ≠ 0#64 := by
    intro h
    have hbit := congrArg (fun y => y.getLsbD (code.toNat % 64)) h
    simp [hindex] at hbit
  rw [hone, BitVec.and_twoPow]
  cases x.getLsbD (code.toNat % 64)
  · simp [hne.symm]
  · simp

theorem place_inj :
    code = key ↔ code.toNat / 64 = key.toNat / 64 ∧ code.toNat % 64 = key.toNat % 64 := by
  rw [← UInt16.toNat_inj]
  omega

theorem keyState_setKeyArrayState (hcode : code ≤ 0xFF) (hkey : key ≤ 0xFF) :
    keyState (setKeyArrayState s code val) key =
      if code.toNat / 64 = key.toNat / 64 then val.getLsbD (key.toNat % 64)
      else keyState s key := by
  have hlt : key.toNat ≤ 255 := UInt16.le_iff_toNat_le.mp hkey
  rw [keyState_eq hkey, word_setKeyArrayState hcode (by omega), keyState_eq hkey]
  split_ifs <;> rfl

theorem keyState_setKeyState (hcode : code ≤ 0xFF) (hkey : key ≤ 0xFF) :
    keyState (setKeyState s code) key ↔ code = key ∨ keyState s key := by
  rw [setKeyState, keyState_setKeyArrayState hcode hkey, place_inj, BitVec.getLsbD_or,
    getCodeIndex_eq hcode, getLsbD_bv64 (Nat.mod_lt _ (by decide)), getKeyArray_eq hcode,
    keyState_eq hkey]
  split_ifs with h
  · simp [h, or_comm]
  · simp [h]

theorem keyState_unsetKeyState (hcode : code ≤ 0xFF) (hkey : key ≤ 0xFF) :
    keyState (unsetKeyState s code) key ↔ code ≠ key ∧ keyState s key := by
  have hindex : key.toNat % 64 < 64 := Nat.mod_lt _ (by decide)
  rw [unsetKeyState, keyState_setKeyArrayState hcode hkey, ne_eq, place_inj, BitVec.getLsbD_and,
    BitVec.getLsbD_not, getCodeIndex_eq hcode, getLsbD_bv64 (Nat.mod_lt _ (by decide)),
    getKeyArray_eq hcode, keyState_eq hkey]
  split_ifs with h
  · simp [h, hindex, and_comm]
  · simp [h]

end Words

section Hold

/-- The lock, what the host sees, and the keys that are down. -/
structure System where
  lock : State := {}
  host : UInt16 → Bool := fun _ => false
  down : UInt16 → Bool := fun _ => false

def System.step (s : System) (e : Event) : System where
  lock := (processKeyLock s.lock e).state
  host :=
    if (processKeyLock s.lock e).passed then
      Function.update s.host (processKeyLock s.lock e).keycode e.pressed
    else s.host
  down := Function.update s.down e.keycode e.pressed

def run (es : List Event) : System := es.foldl System.step {}

@[simp] theorem run_concat (es : List Event) (e : Event) : run (es ++ [e]) = (run es).step e :=
  List.foldl_append

/-- The lock key has been pressed an odd number of times since the last press of another key. -/
def armed (es : List Event) : Bool :=
  ((es.filter Event.pressed).reverse.takeWhile fun e => e.keycode = QK_LOCK).length % 2 = 1

theorem armed_concat (es : List Event) (e : Event) :
    armed (es ++ [e]) =
      if e.pressed then decide (e.keycode = QK_LOCK) && !armed es else armed es := by
  unfold armed
  rw [List.filter_append, List.reverse_append]
  cases hp : e.pressed
  · simp [hp]
  · by_cases hk : e.keycode = QK_LOCK
    · simp only [hp, hk, List.filter_cons_of_pos, List.filter_nil, List.reverse_singleton,
        List.singleton_append, decide_true, List.takeWhile_cons_of_pos, List.length_cons, if_true,
        Nat.succ_mod_two_eq_one_iff, ← Nat.mod_two_ne_one, Bool.true_and, decide_not]
    · simp [hp, hk]

/-- Events of the lock key and of standard keys. -/
def Event.IsKey (e : Event) : Prop := e.keycode ≤ 0xFF ∨ e.keycode = QK_LOCK

instance (e : Event) : Decidable e.IsKey := inferInstanceAs (Decidable (_ ∨ _))

theorem translateKeycode_key {e : Event} (he : e.IsKey) :
    translateKeycode e.keycode = e.keycode := by
  apply if_neg
  rintro ⟨hlow, hhigh⟩
  rcases he with he | he
  · exact absurd (UInt16.lt_of_lt_of_le hlow he) (by decide)
  · rw [he] at hhigh
    exact absurd hhigh (by decide)

theorem ne_lock {code : UInt16} (hcode : code ≤ 0xFF) : code ≠ QK_LOCK := by
  rintro rfl
  exact absurd hcode (by decide)

theorem processKeyLock_lock {s : State} {e : Event} (he : e.keycode = QK_LOCK) :
    processKeyLock s e = ⟨!e.pressed, QK_LOCK, { s with watching := e.pressed ^^ s.watching }⟩ := by
  have hcode := translateKeycode_key (Or.inr he)
  have hstandard : isStandardKeycode QK_LOCK = false := by decide
  rw [he] at hcode
  simp only [processKeyLock, he, hcode, hstandard]
  cases e.pressed <;> simp

theorem processKeyLock_key {s : State} {e : Event} (he : e.keycode ≤ 0xFF) :
    processKeyLock s e =
      if e.pressed then
        if s.watching then ⟨true, e.keycode, ⟨setKeyState s.keyState e.keycode, false⟩⟩
        else if keyState s.keyState e.keycode then
          ⟨false, e.keycode, { s with keyState := unsetKeyState s.keyState e.keycode }⟩
        else ⟨true, e.keycode, s⟩
      else ⟨!keyState s.keyState e.keycode, e.keycode, s⟩ := by
  have hstandard : isStandardKeycode e.keycode = true := decide_eq_true he
  simp only [processKeyLock, translateKeycode_key (Or.inl he), hstandard, ne_lock he]
  simp

variable {s : System} {e : Event} {es : List Event} {key : UInt16}

theorem watching_step (he : e.IsKey) : (s.step e).lock.watching =
    if e.pressed then decide (e.keycode = QK_LOCK) && !s.lock.watching else s.lock.watching := by
  unfold System.step
  rcases he with he | he
  · rw [processKeyLock_key he]
    dsimp only
    have hne := ne_lock he
    split_ifs <;> simp_all
  · rw [processKeyLock_lock he]
    cases hp : e.pressed <;> simp [he]

theorem eq_press_iff : e = ⟨key, true⟩ ↔ e.keycode = key ∧ e.pressed = true :=
  Event.mk.injEq _ _ _ _ ▸ Iff.rfl

theorem keyState_step (he : e.IsKey) (hkey : key ≤ 0xFF) :
    keyState (s.step e).lock.keyState key =
      if e = ⟨key, true⟩ then s.lock.watching else keyState s.lock.keyState key := by
  rw [if_congr eq_press_iff rfl rfl]
  unfold System.step
  rcases he with he | he
  · rw [processKeyLock_key he]
    cases e.pressed
    · simp
    · cases hwatch : s.lock.watching
      · cases hbit : keyState s.lock.keyState e.keycode
        · aesop
        · have hunset := keyState_unsetKeyState (s := s.lock.keyState) he hkey
          by_cases hk : e.keycode = key <;> simp_all
      · have hset := keyState_setKeyState (s := s.lock.keyState) he hkey
        by_cases hk : e.keycode = key <;> simp_all
  · rw [processKeyLock_lock he, he]
    exact (if_neg fun hlock => ne_lock hkey hlock.1.symm).symm

theorem keycode_processKeyLock {s : State} (he : e.IsKey) :
    (processKeyLock s e).keycode = e.keycode := by
  rcases he with he | he
  · rw [processKeyLock_key he]
    split_ifs <;> rfl
  · rw [processKeyLock_lock he, he]

theorem host_step_of_ne (he : e.IsKey) (hk : e.keycode ≠ key) :
    (s.step e).host key = s.host key := by
  rw [System.step, keycode_processKeyLock he]
  dsimp only
  split_ifs with h
  · exact Function.update_of_ne hk.symm _ _
  · rfl

theorem host_step (he : e.IsKey) (hkey : key ≤ 0xFF)
    (h : s.host key ↔ s.down key ∨ keyState s.lock.keyState key) :
    (s.step e).host key ↔ (s.step e).down key ∨ keyState (s.step e).lock.keyState key := by
  rw [keyState_step he hkey, if_congr eq_press_iff rfl rfl]
  by_cases hk : e.keycode = key
  · rw [System.step, processKeyLock_key (hk ▸ hkey)]
    subst hk
    cases e.pressed <;> cases s.lock.watching <;>
      cases hbit : keyState s.lock.keyState e.keycode <;> simp_all
  · have hdown : (s.step e).down key = s.down key := Function.update_of_ne (Ne.symm hk) _ _
    rw [host_step_of_ne he hk, hdown, if_neg fun hpress => hk hpress.1]
    exact h

theorem watching_run (hes : ∀ e ∈ es, e.IsKey) : (run es).lock.watching = armed es := by
  induction es using List.reverseRecOn with
  | nil => rfl
  | append_singleton es e ih =>
    obtain ⟨hes, he⟩ := List.forall_mem_append.mp hes
    rw [run_concat, watching_step (he e List.mem_cons_self), ih hes, armed_concat]

theorem host_run (hes : ∀ e ∈ es, e.IsKey) (hkey : key ≤ 0xFF) :
    (run es).host key ↔ (run es).down key ∨ keyState (run es).lock.keyState key := by
  induction es using List.reverseRecOn with
  | nil =>
    have hbit : keyState {} key = false := by
      rw [keyState_eq hkey, word_default]
      exact BitVec.getLsbD_zero
    change false = true ↔ false = true ∨ keyState {} key = true
    rw [hbit, or_self]
  | append_singleton es e ih =>
    obtain ⟨hes, he⟩ := List.forall_mem_append.mp hes
    rw [run_concat]
    exact host_step (he e List.mem_cons_self) hkey (ih hes)

/-- The host sees the keys that are down or locked. A press locks its key when the lock is armed,
and unlocks it otherwise. -/
theorem holds_locked_keys (hes : ∀ e ∈ es, e.IsKey) (hkey : key ≤ 0xFF) :
    ((run es).host key ↔ (run es).down key ∨ keyState (run es).lock.keyState key) ∧
      ∀ e : Event, e.IsKey → keyState (run (es ++ [e])).lock.keyState key =
        if e = ⟨key, true⟩ then armed es else keyState (run es).lock.keyState key := by
  refine ⟨host_run hes hkey, ?_⟩
  intro e he
  rw [run_concat, keyState_step he hkey, watching_run hes]

def lockA : List Event := [⟨QK_LOCK, true⟩, ⟨QK_LOCK, false⟩, ⟨0x04, true⟩, ⟨0x04, false⟩]

theorem holds_locked_a : ((run lockA).host 0x04 ∧ ¬ (run lockA).down 0x04) ∧
    ((run lockA).host 0x04 ↔ (run lockA).down 0x04 ∨ keyState (run lockA).lock.keyState 0x04) ∧
      ∀ e : Event, e.IsKey → keyState (run (lockA ++ [e])).lock.keyState 0x04 =
        if e = ⟨0x04, true⟩ then armed lockA else keyState (run lockA).lock.keyState 0x04 := by
  have hkeys : ∀ e ∈ lockA, e.IsKey := by decide
  exact ⟨by decide, holds_locked_keys hkeys (by decide)⟩

end Hold

end Qmk.KeyLock
