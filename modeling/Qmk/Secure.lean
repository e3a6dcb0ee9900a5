import Qmk.Monitor
import Qmk.Tapping.Engine

/-! # The secure unlock sequence

`secure.c` with the key processing of `process_secure.c`. The device is locked,
waits for the unlock sequence, or is unlocked. The position in the sequence is
kept apart from the status.
-/

namespace Qmk.Secure

open Tapping (Keypos)

inductive Status
  | locked | pending | unlocked
  deriving DecidableEq, Repr

/-- `SECURE_UNLOCK_SEQUENCE`, the two timeouts in milliseconds, where `0` turns one off, and
`SECURE_DISABLE_KEYCODES`. -/
structure Config where
  sequence : List Keypos
  unlockTimeout : ℕ := 5000
  idleTimeout : ℕ := 60000
  disableKeycodes : Bool := false

/-- The static variables of `secure.c`, with the one inside `secure_keypress_event`. -/
structure State where
  status : Status := .locked
  unlockTime : UInt32 := 0
  idleTime : UInt32 := 0
  offset : UInt8 := 0
  deriving DecidableEq, Repr

def secureLock (s : State) : State := { s with status := .locked }

def secureUnlock (now : UInt32) (s : State) : State :=
  { s with status := .unlocked, idleTime := now }

def secureRequestUnlock (now : UInt32) (s : State) : State :=
  if s.status = .locked then { s with status := .pending, unlockTime := now } else s

def secureActivityEvent (now : UInt32) (s : State) : State :=
  if s.status = .unlocked then { s with idleTime := now } else s

variable (cfg : Config)

def sequenceLen : UInt8 := UInt8.ofNat cfg.sequence.length

def secureKeypressEvent (key : Keypos) (now : UInt32) (s : State) : State :=
  if cfg.sequence[s.offset.toNat]? = some key then
    let s := { s with offset := s.offset + 1 }
    if s.offset = sequenceLen cfg then secureUnlock now { s with offset := 0 } else s
  else secureLock { s with offset := 0 }

/-- The first half of `secure_task`. -/
def unlockTimeoutTask (now : UInt32) (s : State) : State :=
  if cfg.unlockTimeout ≠ 0 ∧ s.status = .pending ∧
      cfg.unlockTimeout ≤ (now - s.unlockTime).toNat then secureLock s
  else s

/-- The second half of `secure_task`. -/
def idleTimeoutTask (now : UInt32) (s : State) : State :=
  if cfg.idleTimeout ≠ 0 ∧ s.status = .unlocked ∧
      cfg.idleTimeout ≤ (now - s.idleTime).toNat then secureLock s
  else s

def secureTask (now : UInt32) (s : State) : State :=
  idleTimeoutTask cfg now (unlockTimeoutTask cfg now s)

def qkSecureLock : UInt16 := 0x7C60

def qkSecureUnlock : UInt16 := 0x7C61

def qkSecureToggle : UInt16 := 0x7C62

def qkSecureRequest : UInt16 := 0x7C63

/-- `preprocess_secure`; the result tells whether the event is processed further. Releases are
swallowed while the sequence is awaited, but do not count. -/
def preprocessSecure (key : Keypos) (pressed : Bool) (now : UInt32) (s : State) : Bool × State :=
  if s.status = .pending then
    (false, if pressed then secureKeypressEvent cfg key now s else s)
  else (true, s)

def processSecure (keycode : UInt16) (pressed : Bool) (now : UInt32) (s : State) : State :=
  if cfg.disableKeycodes = false ∧ pressed = false then
    if keycode = qkSecureLock then secureLock s
    else if keycode = qkSecureUnlock then secureUnlock now s
    else if keycode = qkSecureToggle then
      if s.status = .locked then secureUnlock now s else secureLock s
    else if keycode = qkSecureRequest then secureRequestUnlock now s
    else s
  else s

/-! ### Runs -/

/-- What happens to the subsystem: a call of one of its functions, or an event of a key with the
keycode that it stands for. -/
inductive Action
  | lock
  | unlock (now : UInt32)
  | requestUnlock (now : UInt32)
  | activity (now : UInt32)
  | task (now : UInt32)
  | keyEvent (key : Keypos) (keycode : UInt16) (pressed : Bool) (now : UInt32)
  deriving DecidableEq, Repr

/-- One action. A key event is first preprocessed, as in `process_record_quantum`. -/
def step (s : State) : Action → State
  | .lock => secureLock s
  | .unlock now => secureUnlock now s
  | .requestUnlock now => secureRequestUnlock now s
  | .activity now => secureActivityEvent now s
  | .task now => secureTask cfg now s
  | .keyEvent key keycode pressed now =>
    let p := preprocessSecure cfg key pressed now s
    if p.1 then processSecure cfg keycode pressed now p.2 else p.2

def Action.isRequest : Action → Bool
  | .requestUnlock _ => true
  | .keyEvent _ keycode pressed _ => !cfg.disableKeycodes && !pressed && keycode = qkSecureRequest
  | _ => false

def Action.presses : Action → List Keypos
  | .keyEvent key _ true _ => [key]
  | _ => []

/-- The subsystem, with the presses since the device last turned from locked to pending. -/
structure Watched where
  state : State := {}
  presses : List Keypos := []

/-- A run, in which a locked device is only asked to unlock while no part of the sequence is
counted as entered. -/
def freshRequests : Monitor Action Watched where
  next q a :=
    { state := step cfg q.state a
      presses := if q.state.status = .locked ∧ (step cfg q.state a).status = .pending then []
        else q.presses ++ a.presses }
  ok q a := a.isRequest cfg = true → q.state.status = .locked → q.state.offset = 0

instance (q : Watched) (a : Action) : Decidable ((freshRequests cfg).ok q a) :=
  inferInstanceAs (Decidable (_ → _ → _))

/-! ### The sequence is entered as a whole -/

variable {cfg}

/-- What a key press can do: complete the sequence, get one key further, or lock the device. -/
theorem secureKeypressEvent_cases (h256 : cfg.sequence.length ≤ 256) {s : State}
    (hs : s.offset.toNat < cfg.sequence.length) (key : Keypos) (now : UInt32) :
    (cfg.sequence = cfg.sequence.take s.offset.toNat ++ [key] ∧
      secureKeypressEvent cfg key now s =
        { s with status := .unlocked, idleTime := now, offset := 0 }) ∨
    (cfg.sequence.take (s.offset + 1).toNat = cfg.sequence.take s.offset.toNat ++ [key] ∧
      (s.offset + 1).toNat < cfg.sequence.length ∧
      secureKeypressEvent cfg key now s = { s with offset := s.offset + 1 }) ∨
    secureKeypressEvent cfg key now s = { s with status := .locked, offset := 0 } := by
  have hlen : s.offset + 1 = sequenceLen cfg ↔ s.offset.toNat + 1 = cfg.sequence.length := by
    have := s.offset.toNat_lt
    rw [← UInt8.toNat_inj, sequenceLen, UInt8.toNat_add, UInt8.toNat_ofNat']
    simp only [UInt8.toNat_one]
    omega
  by_cases hkey : cfg.sequence[s.offset.toNat]? = some key
  · have htake : cfg.sequence.take (s.offset.toNat + 1) =
        cfg.sequence.take s.offset.toNat ++ [key] := by
      rw [List.take_add_one, hkey]
      rfl
    by_cases hend : s.offset.toNat + 1 = cfg.sequence.length
    · left
      constructor
      · rw [← htake, hend, List.take_length]
      · simp [secureKeypressEvent, hkey, hlen.mpr hend, secureUnlock]
    · right
      left
      have hnat : (s.offset + 1).toNat = s.offset.toNat + 1 := by
        rw [UInt8.toNat_add]
        simp only [UInt8.toNat_one]
        omega
      refine ⟨by rw [hnat, htake], by omega, ?_⟩
      simp [secureKeypressEvent, hkey, mt hlen.mp hend]
  · right
    right
    simp [secureKeypressEvent, hkey, secureLock]

/-- Everything but a key press that is checked against the sequence keeps the offset, and leaves
the device waiting only if it was waiting before, or was locked and is asked to unlock. -/
theorem step_cases (cfg : Config) (s : State) (a : Action) :
    (∃ key keycode now, s.status = .pending ∧ a = .keyEvent key keycode true now ∧
      step cfg s a = secureKeypressEvent cfg key now s) ∨
    ((step cfg s a).offset = s.offset ∧
      ((step cfg s a).status = .pending →
        (s.status = .pending ∧ a.presses = []) ∨
          (s.status = .locked ∧ a.isRequest cfg = true))) := by
  cases a with
  | lock => right; simp [step, secureLock]
  | unlock now => right; simp [step, secureUnlock]
  | requestUnlock now =>
    right
    simp only [step, secureRequestUnlock, Action.isRequest, Action.presses]
    split_ifs with h <;> simp [h]
  | activity now =>
    right
    simp only [step, secureActivityEvent, Action.presses]
    split_ifs with h <;> simp [h]
    exact Or.inl
  | task now =>
    right
    simp only [step, secureTask, idleTimeoutTask, unlockTimeoutTask, secureLock, Action.presses]
    split_ifs with h <;> simp_all
  | keyEvent key keycode pressed now =>
    simp only [step, preprocessSecure, processSecure]
    by_cases hs : s.status = .pending
    · cases pressed with
      | true => left; exact ⟨key, keycode, now, hs, rfl, by simp [hs]⟩
      | false => right; simp [hs, Action.presses]
    · right
      simp only [hs, if_false, if_true]
      split_ifs with hoff hlock hunlock htoggle hlocked hrequest
      · simp [secureLock]
      · simp [secureUnlock]
      · simp [secureUnlock]
      · simp [secureLock]
      · simp only [secureRequestUnlock]
        split_ifs with hl
        · simp [hl, Action.isRequest, hoff, hrequest]
        · simp [hs]
      · simp [hs]
      · simp [hs]

/-- While the device waits, the presses received are the part of the sequence entered so far. -/
structure Entered (cfg : Config) (q : Watched) : Prop where
  inside : q.state.offset.toNat < cfg.sequence.length
  entered : q.state.status = .pending → q.presses = cfg.sequence.take q.state.offset.toNat

theorem Entered.step (h256 : cfg.sequence.length ≤ 256) {q : Watched} (h : Entered cfg q)
    {a : Action} (hok : (freshRequests cfg).ok q a) :
    Entered cfg ((freshRequests cfg).next q a) := by
  have hpos : 0 < cfg.sequence.length := Nat.lt_of_le_of_lt (Nat.zero_le _) h.inside
  rcases step_cases cfg q.state a with ⟨key, keycode, now, hs, rfl, hstep⟩ | ⟨hoffset, hpending⟩
  · rcases secureKeypressEvent_cases h256 h.inside key now with
      ⟨-, heq⟩ | ⟨htake, hlt, heq⟩ | heq
    · constructor
      · simpa [freshRequests, hstep, heq] using hpos
      · simp [freshRequests, hstep, heq]
    · constructor
      · simpa [freshRequests, hstep, heq] using hlt
      · intro _
        simp only [freshRequests, hstep, heq, hs, reduceCtorEq, false_and, if_false,
          Action.presses]
        rw [htake, h.entered hs]
    · constructor
      · simpa [freshRequests, hstep, heq] using hpos
      · simp [freshRequests, hstep, heq]
  · constructor
    · simpa [freshRequests, hoffset] using h.inside
    · intro hs
      rcases hpending hs with ⟨hwas, hno⟩ | ⟨hwas, hreq⟩
      · have hnot : ¬ (q.state.status = .locked ∧
            (Secure.step cfg q.state a).status = .pending) := by simp [hwas]
        simp only [freshRequests, hnot, if_false, hoffset, hno, List.append_nil]
        exact h.entered hwas
      · have hzero := hok hreq hwas
        have hyes : q.state.status = .locked ∧
            (Secure.step cfg q.state a).status = .pending := ⟨hwas, hs⟩
        simp [freshRequests, hyes, hoffset, hzero]

/-- In a run whose requests all find the sequence unbegun, the presses that unlock the device are
the whole sequence. -/
theorem unlock_takes_sequence (h0 : 0 < cfg.sequence.length) (h256 : cfg.sequence.length ≤ 256)
    {as : List Action} {key : Keypos} {keycode : UInt16} {now : UInt32}
    (h : (freshRequests cfg).Accepts {} (as ++ [.keyEvent key keycode true now]))
    (hpending : ((freshRequests cfg).after {} as).state.status = .pending)
    (hunlocked : ((freshRequests cfg).after {}
      (as ++ [.keyEvent key keycode true now])).state.status = .unlocked) :
    ((freshRequests cfg).after {} (as ++ [.keyEvent key keycode true now])).presses =
      cfg.sequence := by
  have hstart : Entered cfg {} := ⟨h0, fun hs => by simp at hs⟩
  have hinv : Entered cfg ((freshRequests cfg).after {} as) :=
    Monitor.Accepts.invariant (fun q a hq hok => Entered.step h256 hq hok) hstart
      (((freshRequests cfg).accepts_append {} as _).mp h).1
  rw [Monitor.after_append] at hunlocked ⊢
  generalize (freshRequests cfg).after {} as = q at *
  have hstep : step cfg q.state (.keyEvent key keycode true now) =
      secureKeypressEvent cfg key now q.state := by
    simp [step, preprocessSecure, hpending]
  simp only [Monitor.after_cons, Monitor.after_nil, freshRequests, hstep, hpending] at hunlocked ⊢
  rcases secureKeypressEvent_cases h256 hinv.inside key now with
    ⟨htake, -⟩ | ⟨-, -, heq⟩ | heq
  · simp only [reduceCtorEq, false_and, if_false, Action.presses]
    rw [hinv.entered hpending, ← htake]
  · simp [heq, hpending] at hunlocked
  · simp [heq] at hunlocked

theorem unlock_takes_sequence_two :
    ((freshRequests { sequence := [⟨0, 0⟩, ⟨1, 0⟩] }).after {}
      ([.requestUnlock 0, .keyEvent ⟨0, 0⟩ 4 true 1, .keyEvent ⟨0, 0⟩ 4 false 2] ++
        [.keyEvent ⟨1, 0⟩ 5 true 3])).presses = [⟨0, 0⟩, ⟨1, 0⟩] :=
  unlock_takes_sequence (by decide) (by decide) (by decide) (by decide) (by decide)

/-- An attempt is given up after its first key; the next one needs only the second key. -/
theorem unlock_takes_half_sequence :
    ((freshRequests { sequence := [⟨0, 0⟩, ⟨1, 0⟩] }).after {}
        [.requestUnlock 0, .keyEvent ⟨0, 0⟩ 4 true 1, .task 5000,
          .requestUnlock 5001]).state.status = .pending ∧
      ((freshRequests { sequence := [⟨0, 0⟩, ⟨1, 0⟩] }).after {}
        [.requestUnlock 0, .keyEvent ⟨0, 0⟩ 4 true 1, .task 5000, .requestUnlock 5001,
          .keyEvent ⟨1, 0⟩ 5 true 5002]).state.status = .unlocked ∧
      ((freshRequests { sequence := [⟨0, 0⟩, ⟨1, 0⟩] }).after {}
        [.requestUnlock 0, .keyEvent ⟨0, 0⟩ 4 true 1, .task 5000, .requestUnlock 5001,
          .keyEvent ⟨1, 0⟩ 5 true 5002]).presses ≠ [⟨0, 0⟩, ⟨1, 0⟩] := by
  decide

end Qmk.Secure
