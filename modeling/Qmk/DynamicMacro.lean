import Qmk.BothEnds

/-! # Dynamic macros

Two macros are recorded at run time, one upwards from the beginning of a buffer and the other one
downwards from its end. A macro is played out of the buffer, and `process_record` gets the stored
records themselves. The two macros store what was recorded, as long as `process_record` does not
write to the records that it is handed.
-/

namespace Qmk.DynamicMacro

open BothEnds

inductive Macro
  | one
  | two
  deriving DecidableEq

namespace Macro

def other : Macro → Macro
  | one => two
  | two => one

def direction : Macro → ℤ
  | one => 1
  | two => -1

end Macro

inductive Keycode
  | recordStart (m : Macro)
  | recordStop
  | play (m : Macro)
  | other
  deriving DecidableEq

/-- A `keyrecord_t`. The key stands for the fields that nothing here writes to. -/
structure KeyRecord (κ : Type*) where
  key : κ
  pressed : Bool
  tapCount : ℕ := 0
  deriving DecidableEq

/-- The ways in which `process_action` leaves a record. It clears the count of a tap that it
cancels, and it makes a press a release after a one-shot layer. That one is processed again, with
the layer on. -/
inductive Handled (σ : Type*)
  | done (env : σ)
  | untap (env : σ)
  | release (env : σ) (layerOff : σ → σ)

def Handled.leaves {σ : Type*} : Handled σ → Bool
  | .done _ => true
  | _ => false

/-- A build, and the code around the macros with its state `σ`. `handle` is the rest of
`process_record` after the macros, and `refuse` what it does when they have taken a record. -/
structure Firmware (κ σ : Type*) where
  /-- `DYNAMIC_MACRO_SIZE` -/
  size : ℕ
  /-- `DYNAMIC_MACRO_NO_NESTING` -/
  noNesting : Bool
  keycode : κ → Keycode
  validKey : σ → KeyRecord κ → Bool
  /-- `clear_keyboard` and `layer_clear` -/
  clear : σ → σ
  /-- `clear_keyboard` and `layer_state_set` with the layers of the first state -/
  restore : σ → σ → σ
  handle : σ → KeyRecord κ → Handled σ
  refuse : σ → KeyRecord κ → σ
  pressed_of_release : ∀ {e r e' f}, handle e r = .release e' f → r.pressed = true

inductive Event (κ σ : Type*)
  | start (m : Macro)
  | record (r : KeyRecord κ)
  | stop
  /-- A stored record has gone through `handle`. -/
  | handled (env : σ) (r : KeyRecord κ)

/-- The variables of the macros, the state of the code around them, and the history. -/
structure State (κ σ : Type*) where
  macroBuffer : ℤ → KeyRecord κ
  /-- `macro_end` and `r_macro_end` -/
  macroEnd : Macro → ℤ
  macroPointer : ℤ
  macroId : Option Macro
  env : σ
  trace : List (Event κ σ)

section Model

variable {κ σ : Type*} (fw : Firmware κ σ)

/-- `macro_buffer` and `r_macro_buffer`. -/
def Firmware.begin : Macro → ℤ
  | .one => 0
  | .two => fw.size - 1

def State.log (e : Event κ σ) (s : State κ σ) : State κ σ := { s with trace := s.trace ++ [e] }

/-- `dynamic_macro_record_start`, and the number of the macro. -/
def recordStart (m : Macro) (s : State κ σ) : State κ σ :=
  { s.log (.start m) with
    macroPointer := fw.begin m
    macroId := some m
    env := fw.clear s.env }

def recordKey (m : Macro) (r : KeyRecord κ) (s : State κ σ) : State κ σ :=
  let s := s.log (.record r)
  if r.pressed = false ∧ s.macroPointer = fw.begin m then s
  else if s.macroPointer - m.direction ≠ s.macroEnd m.other then
    { s with
      macroBuffer := Function.update s.macroBuffer s.macroPointer r
      macroPointer := s.macroPointer + m.direction }
  else s

/-- The loop that takes the pointer back over the presses at the end. -/
def trim (m : Macro) (buffer : ℤ → KeyRecord κ) : ℕ → ℤ → ℤ
  | 0, pointer => pointer
  | n + 1, pointer =>
    if pointer ≠ fw.begin m ∧ (buffer (pointer - m.direction)).pressed then
      trim m buffer n (pointer - m.direction)
    else pointer

/-- `dynamic_macro_record_end`. The loop ends at the beginning of the macro. -/
def recordEnd (m : Macro) (s : State κ σ) : State κ σ :=
  { s with
    macroEnd := Function.update s.macroEnd m
      (trim fw m s.macroBuffer (s.macroPointer - fw.begin m).natAbs s.macroPointer) }

def stopRecording (s : State κ σ) : State κ σ :=
  match s.macroId with
  | some m => { (recordEnd fw m s).log .stop with macroId := none }
  | none => s.log .stop

/-- A function that processes the record at a place of the buffer, or one from elsewhere. It gives
the records that it has played, if it returns. -/
abbrev Process (κ σ : Type*) :=
  Option ℤ → KeyRecord κ → State κ σ → Option (List (KeyRecord κ) × State κ σ)

/-- The loop of `dynamic_macro_play`, with at most `n` rounds. -/
def playFrom (process : Process κ σ) (direction finish : ℤ) :
    ℕ → ℤ → State κ σ → Option (List (KeyRecord κ) × State κ σ)
  | 0, _, _ => none
  | n + 1, cursor, s =>
    if cursor = finish then some ([], s)
    else do
      let (_, s') ← process (some cursor) (s.macroBuffer cursor) s
      let (fed, s'') ← playFrom process direction finish n (cursor + direction) s'
      some (s.macroBuffer cursor :: fed, s'')

def play (process : Process κ σ) (n : ℕ) (m : Macro) (s : State κ σ) :
    Option (List (KeyRecord κ) × State κ σ) := do
  let (fed, s') ← playFrom process m.direction (s.macroEnd m) n (fw.begin m)
    { s with env := fw.clear s.env }
  some (fed, { s' with env := fw.restore s.env s'.env })

/-- The `default` of the switch while a macro is recorded. -/
def recordValid (m : Macro) (r : KeyRecord κ) (s : State κ σ) : State κ σ :=
  if fw.validKey s.env r then recordKey fw m r s else s

/-- `process_dynamic_macro`: whether the record goes on, the records played, and the new state. -/
def processDynamicMacro (process : Process κ σ) (n : ℕ) (r : KeyRecord κ) (s : State κ σ) :
    Option (Bool × List (KeyRecord κ) × State κ σ) :=
  match s.macroId with
  | none =>
    if r.pressed then some (true, [], s)
    else
      match fw.keycode r.key with
      | .recordStart m => some (false, [], recordStart fw m s)
      | .play m => (play fw process n m s).map fun out => (false, out)
      | _ => some (true, [], s)
  | some m =>
    match fw.keycode r.key with
    | .recordStart _ | .recordStop =>
      some (false, [], if xor r.pressed (fw.keycode r.key ≠ .recordStop) then stopRecording fw s
        else s)
    | .play _ =>
      if fw.noNesting then some (false, [], s) else some (true, [], recordValid fw m r s)
    | .other => some (true, [], recordValid fw m r s)

/-- A record of the buffer goes on to `handle`. -/
def State.handOn (home : Option ℤ) (r : KeyRecord κ) (s : State κ σ) : State κ σ :=
  if home.isSome then s.log (.handled s.env r) else s

def State.write (home : Option ℤ) (r : KeyRecord κ) (s : State κ σ) : State κ σ :=
  match home with
  | some p => { s with macroBuffer := Function.update s.macroBuffer p r }
  | none => s

/-- `process_record`, in calls that are nested at most `n` deep. -/
def processRecord : ℕ → Process κ σ
  | 0, _, _, _ => none
  | n + 1, home, r, s => do
    let (goesOn, fed, s) ← processDynamicMacro fw (processRecord n) n r s
    if goesOn then
      let s' := s.handOn home r
      match fw.handle s.env r with
      | .done env => some (fed, { s' with env := env })
      | .untap env => some (fed, { s'.write home { r with tapCount := 0 } with env := env })
      | .release env layerOff => do
        let (fed', s'') ← processRecord n home { r with pressed := false }
          { s'.write home { r with pressed := false } with env := env }
        some (fed ++ fed', { s'' with env := layerOff s''.env })
    else some (fed, { s with env := fw.refuse s.env r })

/-- A record comes from outside of the buffer, the recording is stopped by a call, or the code
around the macros does something else. -/
inductive Op (κ σ : Type*)
  | record (r : KeyRecord κ)
  | stopRecording
  | task (env : σ)

def step (n : ℕ) (s : State κ σ) : Op κ σ → Option (State κ σ)
  | .record r => (processRecord fw n none r s).map Prod.snd
  | .stopRecording => some (stopRecording fw s)
  | .task env => some { s with env := env }

def start (buffer : ℤ → KeyRecord κ) (env : σ) : State κ σ where
  macroBuffer := buffer
  macroEnd := fw.begin
  macroPointer := 0
  macroId := none
  env := env
  trace := []

def run (n : ℕ) (ops : List (Op κ σ)) (s : State κ σ) : Option (State κ σ) :=
  ops.foldlM (step fw n) s

end Model

section Specification

variable {κ σ : Type*}

def kept (room : ℕ) (events : List (KeyRecord κ)) : List (KeyRecord κ) :=
  ((events.dropWhile fun r => !r.pressed).take room).rdropWhile KeyRecord.pressed

/-- The events of the two macros, and of the recording that has not ended. -/
structure Spec (κ : Type*) where
  stored : Macro → List (KeyRecord κ) := fun _ => []
  recording : Option (Macro × List (KeyRecord κ)) := none

def Spec.next (size : ℕ) (spec : Spec κ) : Event κ σ → Spec κ
  | .start m => { spec with recording := some (m, []) }
  | .record r =>
    { spec with recording := spec.recording.map fun p => (p.1, p.2 ++ [r]) }
  | .stop =>
    match spec.recording with
    | some (m, events) =>
      { stored := Function.update spec.stored m
          (kept (size - (spec.stored m.other).length) events) }
    | none => spec
  | .handled _ _ => spec

def Spec.after (size : ℕ) (trace : List (Event κ σ)) : Spec κ := trace.foldl (Spec.next size) {}

variable (fw : Firmware κ σ)

def recorded (s : State κ σ) (m : Macro) : List (KeyRecord κ) :=
  (Spec.after fw.size s.trace).stored m

/-- The first place after the events of a macro, or of its recording. -/
def tip (s : State κ σ) (m : Macro) : ℤ :=
  if s.macroId = some m then s.macroPointer else s.macroEnd m

def region (s : State κ σ) (m : Macro) : Set ℤ :=
  span m.direction (fw.begin m) (m.direction * (tip s m - fw.begin m)).toNat

def places : Set ℤ := {p | 0 ≤ p ∧ p < fw.size}

def contents (s : State κ σ) (m : Macro) : List (KeyRecord κ) :=
  readFrom s.macroBuffer m.direction (fw.begin m)
    (m.direction * (s.macroEnd m - fw.begin m)).toNat

/-- The macros do not meet and stay in the buffer, a recording does not change the other macro, and
a macro without play keys plays what was recorded. -/
structure SharesBuffer (buffer : ℤ → KeyRecord κ) (s : State κ σ) : Prop where
  disjoint : region fw s .one ∩ region fw s .two = ∅
  within : ∀ m, region fw s m ⊆ places fw
  outside : ∀ p ∉ places fw, s.macroBuffer p = buffer p
  other : ∀ m n op s', s.macroId = some m → step fw n s op = some s' →
    contents fw s' m.other = contents fw s m.other
  plays : ∀ m r n, s.macroId = none → fw.keycode r.key = .play m → r.pressed = false →
    (∀ x ∈ recorded fw s m, ∀ m', fw.keycode x.key ≠ .play m') →
    (recorded fw s m).length + 3 ≤ n →
    ∃ s', processRecord fw n none r s = some (recorded fw s m, s')

/-- `process_record` leaves the records that are played as they are. -/
def Calm (trace : List (Event κ σ)) : Prop :=
  ∀ e r, Event.handled e r ∈ trace → (fw.handle e r).leaves

end Specification

end Qmk.DynamicMacro
