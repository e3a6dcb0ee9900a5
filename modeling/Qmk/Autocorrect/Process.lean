import Qmk.Autocorrect.Generator

/-! # Autocorrection of typed text

`process_autocorrect`, with the accesses to its arrays in the order in which they are made.
-/

namespace Qmk.Autocorrect

/-- An access to a cell of an array; the target of the replacement is a difference of lengths. -/
inductive Access
  | typoBuffer (i : ℕ)
  | autocorrectData (i : ℕ)
  | typo (i : ℕ)
  | correct (i : ℤ)
  deriving DecidableEq

/-- The bounds that the arrays are declared with. -/
def Access.InBounds (h : Header) : Access → Prop
  | typoBuffer i => i < h.maxLength
  | autocorrectData i => i < h.data.length
  | typo i => i < h.maxLength + 1
  | correct i => 0 ≤ i ∧ i < h.maxLength + 10

instance (h : Header) : DecidablePred (Access.InBounds h)
  | .typoBuffer _ => inferInstanceAs (Decidable (_ < _))
  | .autocorrectData _ => inferInstanceAs (Decidable (_ < _))
  | .typo _ => inferInstanceAs (Decidable (_ < _))
  | .correct _ => inferInstanceAs (Decidable (_ ∧ _))

section Handler

/-- `NO_ACTION_TAPPING`, `NO_ACTION_LAYER`, `SWAP_HANDS_ENABLE`, `SENDSTRING_BELL` with audio and
`TAP_CODE_DELAY`. -/
structure Features where
  noActionTapping : Bool := false
  noActionLayer : Bool := false
  swapHands : Bool := false
  sendstringBell : Bool := false
  tapCodeDelay : ℕ := 0

/-- A key event with its keycode and the modifiers that are active when it comes. The handler does
not look at the weak ones. -/
structure Event where
  keycode : ℕ
  pressed : Bool := true
  tapCount : ℕ := 0
  mods : ℕ := 0
  oneshotMods : ℕ := 0
  weakMods : ℕ := 0
  deriving DecidableEq

def modMaskShift : ℕ := 0x22

/-- `Shift`, `Caps Lock` and the keys that change layers or hold a one-shot modifier. -/
def isExcluded (keycode : ℕ) : Bool :=
  keycode = 0xE1 ∨ keycode = 0xE5 ∨ keycode = 0x39 ∨
    (0x5200 ≤ keycode ∧ keycode ≤ 0x529F) ∨ (0x52C0 ≤ keycode ∧ keycode ≤ 0x52DF) ∨
    (0x5000 ≤ keycode ∧ keycode ≤ 0x51FF) ∨ (0x52A0 ≤ keycode ∧ keycode ≤ 0x52BF)

/-- The tap keycode of a key that is tapped; other tap-hold keys are excluded. -/
def tappedKeycode (f : Features) (keycode tapCount : ℕ) : Option ℕ :=
  if 0x4000 ≤ keycode ∧ keycode ≤ 0x4FFF then
    if f.noActionTapping ∨ f.noActionLayer ∨ tapCount = 0 then none else some (keycode &&& 0xFF)
  else if 0x2000 ≤ keycode ∧ keycode ≤ 0x3FFF then
    if f.noActionTapping ∨ tapCount = 0 then none else some (keycode &&& 0xFF)
  else if 0x5600 ≤ keycode ∧ keycode ≤ 0x56FF then
    if ¬ f.swapHands ∨ (0x56F0 ≤ keycode ∧ keycode ≤ 0x56F6) ∨
        (¬ f.noActionTapping ∧ tapCount = 0) then none
    else some (keycode &&& 0xFF)
  else some keycode

/-- The outcome of the handler: the keycode and the modifiers to go on with. -/
inductive Handled
  | escape
  | reset
  | goOn (keycode mods : ℕ)

def defaultHandler (f : Features) (e : Event) : Handled :=
  let mods := e.mods ||| e.oneshotMods
  if isExcluded e.keycode then .escape
  else if 0x0200 ≤ e.keycode ∧ e.keycode ≤ 0x02FF then .goOn (e.keycode &&& 0xFF) (mods ||| 0x02)
  else if 0x1200 ≤ e.keycode ∧ e.keycode ≤ 0x12FF then .goOn (e.keycode &&& 0xFF) (mods ||| 0x12)
  else
    match tappedKeycode f e.keycode e.tapCount with
    | none => .escape
    | some keycode =>
      -- another modifier than Shift is active
      if mods ||| modMaskShift ≠ modMaskShift then .reset else .goOn keycode mods

end Handler

section State

/-- `keymap_config.autocorrect_enable`, and the part of `typo_buffer` that is in use. -/
structure State where
  enabled : Bool := true
  typoBuffer : List ℕ := [kcSpc]
  deriving DecidableEq

/-- What a key does to the buffer before the search: the key that is appended, and the part of the
buffer in front of it. -/
inductive Typed
  | ignored (buffer : List ℕ)
  | appended (buffer : List ℕ) (key : ℕ)

def bufferCheck (keycode mods : ℕ) (buffer : List ℕ) : Typed :=
  if kcA ≤ keycode ∧ keycode ≤ 0x1D then .appended buffer keycode
  else if (0x1E ≤ keycode ∧ keycode ≤ 0x27) ∨ (0x2B ≤ keycode ∧ keycode ≤ 0x33) ∨
      (0x35 ≤ keycode ∧ keycode ≤ 0x38) then .appended buffer kcSpc
  else if keycode = 0x28 then .appended [] kcSpc
  else if keycode = 0x2A then .ignored buffer.dropLast
  else if keycode = kcQuot then
    .appended buffer (if mods &&& modMaskShift ≠ 0 then kcSpc else kcQuot)
  else .ignored []

/-- What the event does to the buffer while autocorrection is on. -/
def typed (f : Features) (e : Event) (buffer : List ℕ) : Typed :=
  if ¬ e.pressed then .ignored buffer
  else
    match defaultHandler f e with
    | .escape => .ignored buffer
    | .reset => .ignored []
    | .goOn keycode mods => bufferCheck keycode mods buffer

/-- Append the key, after dropping the oldest one from a full buffer. -/
def append (h : Header) (buffer : List ℕ) (key : ℕ) : List Access × List ℕ :=
  if h.maxLength ≤ buffer.length then
    ((List.range (h.maxLength - 1)).flatMap (fun i => [.typoBuffer (i + 1), .typoBuffer i]) ++
      [.typoBuffer (h.maxLength - 1)], (buffer.drop 1).take (h.maxLength - 1) ++ [key])
  else ([.typoBuffer buffer.length], buffer ++ [key])

end State

section Search

/-- `autocorrect_data[state]`; the states are offsets into the table, which has less than 2 ^ 16
bytes. -/
def read (data : List ℕ) (state : ℕ) : ℕ := data.getD state 0

/-- The loop over the letters of a node with multiple children; `fuel` bounds the passes. -/
def findLink (data : List ℕ) (key : ℕ) : ℕ → ℕ → ℕ → List Access × Option ℕ
  | 0, _, _ => ([], none)
  | fuel + 1, code, state =>
    if code = key then ([], some state)
    else if code = 0 then ([], none)
    else
      let r := findLink data key fuel (read data (state + 3)) (state + 3)
      (.autocorrectData (state + 3) :: r.1, r.2)

/-- The next state, if the key matches. -/
def follow (data : List ℕ) (key state code : ℕ) : List Access × Option ℕ :=
  if code &&& 64 ≠ 0 then
    match findLink data key data.length (code &&& 63) state with
    | (accesses, none) => (accesses, none)
    | (accesses, some state) =>
      (accesses ++ [.autocorrectData (state + 1), .autocorrectData (state + 2)],
        some (read data (state + 1) ||| read data (state + 2) <<< 8))
  else if code ≠ key then ([], none)
  else if read data (state + 1) = 0 then ([.autocorrectData (state + 1)], some (state + 2))
  else ([.autocorrectData (state + 1)], some (state + 1))

/-- The loop over the keys, last one first, with the state of the typo that it finds. -/
def search (data : List ℕ) : List ℕ → ℕ → ℕ → List Access × Option ℕ
  | [], _, _ => ([], none)
  | key :: keys, state, code =>
    match follow data key state code with
    | (accesses, none) => (.typoBuffer keys.length :: accesses, none)
    | (accesses, some state) =>
      if data.length ≤ state then (.typoBuffer keys.length :: accesses, none)
      else
        let accesses := .typoBuffer keys.length :: accesses ++ [.autocorrectData state]
        if read data state &&& 128 ≠ 0 then (accesses, some state)
        else
          let r := search data keys state (read data state)
          (accesses ++ r.1, r.2)

end Search

section Replace

/-- The loop that finds the start and the length of the last word, from `i` down. -/
def scanWord (buffer : List ℕ) : ℕ → ℕ → List Access × ℕ × ℕ
  | 0, typoLen => ([], 0, typoLen)
  | i + 1, typoLen =>
    if buffer.getD i 0 = kcSpc ∧ i + 1 ≠ buffer.length then ([.typoBuffer i], i + 1, typoLen)
    else
      let r := scanWord buffer i (typoLen + 1)
      (.typoBuffer i :: r.1, r.2)

def strLen (chars : List ℕ) : ℕ := (chars.takeWhile (· ≠ 0)).length

/-- The accesses that build the strings `typo` and `correct`, when the leaf at `state` has been
found. -/
def buildStrings (data buffer : List ℕ) (state : ℕ) : List Access :=
  let backspaces := read data state &&& 63
  let spaceLast : Bool := buffer.getLast? = some kcSpc
  let r := scanWord buffer buffer.length 0
  let typoStart := r.2.1
  let typoLen := if spaceLast then r.2.2 - 1 else r.2.2
  let typo := ((buffer.drop typoStart).take typoLen).map fun key => (key - kcA + 'a'.toNat) % 256
  let offset := if spaceLast then backspaces else backspaces + 1
  let changes := data.drop (state + 1)
  .typoBuffer (buffer.length - 1) :: r.1 ++
    (List.range typoLen).flatMap (fun i => [.typoBuffer (typoStart + i), .typo i]) ++
    (List.range (strLen typo + 1)).flatMap (fun i => [.typo i, .correct i]) ++
    (List.range (strLen changes + 1)).flatMap fun i =>
      [.autocorrectData (state + 1 + i), .correct ((typoLen : ℤ) - offset + i)]

end Replace

/-- The outcome of a call; `sent` are the backspaces and the text that are sent. -/
structure Outcome where
  accesses : List Access := []
  state : State
  continues : Bool := true
  sent : Option (ℕ × List ℕ) := none

def readString (data : List ℕ) (state : ℕ) : List ℕ := (data.drop state).takeWhile (· ≠ 0)

/-- The second half of `process_autocorrect`, for a key that is appended to the buffer. -/
def autocorrect (h : Header) (s : State) (buffer : List ℕ) (key : ℕ) : Outcome :=
  let a := append h buffer key
  if a.2.length < h.minLength then { accesses := a.1, state := { s with typoBuffer := a.2 } }
  else
    let r := search h.data a.2.reverse 0 (read h.data 0)
    let accesses := a.1 ++ .autocorrectData 0 :: r.1
    match r.2 with
    | none => { accesses, state := { s with typoBuffer := a.2 } }
    | some state =>
      let accesses := accesses ++ buildStrings h.data a.2 state
      let sent := some (read h.data state &&& 63, readString h.data (state + 1))
      if key = kcSpc then
        { accesses := accesses ++ [.typoBuffer 0], state := { s with typoBuffer := [kcSpc] }, sent }
      else { accesses, state := { s with typoBuffer := [] }, continues := false, sent }

def processAutocorrect (f : Features) (h : Header) (s : State) (e : Event) : Outcome :=
  if (0x7C74 ≤ e.keycode ∧ e.keycode ≤ 0x7C76) ∧ e.pressed then
    let enabled := e.keycode = 0x7C74 ∨ (e.keycode = 0x7C76 ∧ ¬ s.enabled)
    let typoBuffer := if e.keycode = 0x7C74 then s.typoBuffer else []
    { state := { enabled, typoBuffer }, continues := false }
  else if ¬ s.enabled then { state := { s with typoBuffer := [] } }
  else
    match typed f e s.typoBuffer with
    | .ignored buffer => { state := { s with typoBuffer := buffer } }
    | .appended buffer key => autocorrect h s buffer key

end Qmk.Autocorrect
