import Mathlib.Data.List.Basic
import Mathlib.Tactic.Linarith

/-! # Sending a string

A string is sent character by character. Some characters begin a sequence that taps, presses or
releases a key, or that waits. Pieces of a string are sent one after the other if each of them ends
where a character may follow, as it does behind a bar.
-/

namespace Qmk.SendString

def qmkPrefix : BitVec 8 := 1

def tapCode : BitVec 8 := 1

def downCode : BitVec 8 := 2

def upCode : BitVec 8 := 3

def delayCode : BitVec 8 := 4

/-- The tables of the characters, and `SENDSTRING_BELL` with audio. A table has 128 characters, for
others it is what lies behind the table. -/
structure Tables where
  bell : Bool
  keycode : BitVec 8 → BitVec 8
  shifted : BitVec 8 → Bool
  altgred : BitVec 8 → Bool
  dead : BitVec 8 → Bool

inductive Effect
  | tapCode (code : BitVec 8)
  | tapCodeDelay (code : BitVec 8) (delay : ℕ)
  | registerCode (code : BitVec 8)
  | unregisterCode (code : BitVec 8)
  | wait (ms : ℕ)
  | playSong
  deriving DecidableEq

def kcSpace : BitVec 8 := 0x2C

def kcLeftShift : BitVec 8 := 0xE1

def kcRightAlt : BitVec 8 := 0xE6

/-- `if (flag) { f(code); wait_ms(interval); }`. -/
def whenSet (flag : Bool) (effect : Effect) (interval : ℕ) : List Effect :=
  if flag then [effect, .wait interval] else []

def sendChar (tables : Tables) (interval : ℕ) (c : BitVec 8) : List Effect :=
  if tables.bell ∧ c = 7 then [.playSong]
  else
    whenSet (tables.shifted c) (.registerCode kcLeftShift) interval ++
    whenSet (tables.altgred c) (.registerCode kcRightAlt) interval ++
    [.tapCodeDelay (tables.keycode c) interval, .wait interval] ++
    whenSet (tables.altgred c) (.unregisterCode kcRightAlt) interval ++
    whenSet (tables.shifted c) (.unregisterCode kcLeftShift) interval ++
    whenSet (tables.dead c) (.tapCode kcSpace) interval

/-- What a tap, a press or a release does with its keycode. -/
inductive KeyAction | tap | down | up
  deriving DecidableEq

namespace KeyAction

def code : KeyAction → BitVec 8
  | tap => tapCode
  | down => downCode
  | up => upCode

def effect : KeyAction → BitVec 8 → Effect
  | tap => .tapCode
  | down => .registerCode
  | up => .unregisterCode

def ofCode (c : BitVec 8) : Option KeyAction :=
  if c = tapCode then some tap
  else if c = downCode then some down
  else if c = upCode then some up
  else none

theorem code_of_ofCode {c : BitVec 8} {action : KeyAction} (h : ofCode c = some action) :
    action.code = c := by
  simp only [ofCode] at h
  split_ifs at h with htap hdown hup <;> cases h
  · exact htap.symm
  · exact hdown.symm
  · exact hup.symm

end KeyAction

/-- Where in the string the loop is: at a character, behind the prefix, at a keycode, or at a digit
behind those that give `ms`. -/
inductive Mode
  | text
  | code
  | key (action : KeyAction)
  | delay (ms : ℕ)
  deriving DecidableEq

def isDigit (b : BitVec 8) : Bool := 48 ≤ b.toNat ∧ b.toNat ≤ 57

/-- `|`, which ends the digits of a wait. -/
def bar : BitVec 8 := 124

/-- `send_string_with_delay`, which has no value if it reads behind the bytes. -/
def sendString (tables : Tables) (interval : ℕ) : Mode → List (BitVec 8) → Option (List Effect)
  | _, [] => none
  | .text, b :: bytes =>
    if b = 0 then some []
    else if b = qmkPrefix then sendString tables interval .code bytes
    else (sendString tables interval .text bytes).map (sendChar tables interval b ++ ·)
  | .code, c :: bytes =>
    if c = delayCode then sendString tables interval (.delay 0) bytes
    else
      match KeyAction.ofCode c with
      | some action => sendString tables interval (.key action) bytes
      | none => (sendString tables interval .text bytes).map (.wait interval :: ·)
  | .key action, k :: bytes =>
    (sendString tables interval .text bytes).map ([action.effect k, .wait interval] ++ ·)
  | .delay ms, d :: bytes =>
    if isDigit d then sendString tables interval (.delay (ms * 10 + (d.toNat - 48))) bytes
    else (sendString tables interval .text bytes).map ([.wait ms, .wait interval] ++ ·)

/-- The mode behind bytes that do not end the string, and what is sent until then. -/
def sendPart (tables : Tables) (interval : ℕ) : Mode → List (BitVec 8) → List Effect × Mode
  | mode, [] => ([], mode)
  | .text, b :: bytes =>
    if b = qmkPrefix then sendPart tables interval .code bytes
    else
      let (sent, mode) := sendPart tables interval .text bytes
      (sendChar tables interval b ++ sent, mode)
  | .code, c :: bytes =>
    if c = delayCode then sendPart tables interval (.delay 0) bytes
    else
      match KeyAction.ofCode c with
      | some action => sendPart tables interval (.key action) bytes
      | none =>
        let (sent, mode) := sendPart tables interval .text bytes
        (.wait interval :: sent, mode)
  | .key action, k :: bytes =>
    let (sent, mode) := sendPart tables interval .text bytes
    ([action.effect k, .wait interval] ++ sent, mode)
  | .delay ms, d :: bytes =>
    if isDigit d then sendPart tables interval (.delay (ms * 10 + (d.toNat - 48))) bytes
    else
      let (sent, mode) := sendPart tables interval .text bytes
      ([.wait ms, .wait interval] ++ sent, mode)

section Parts

variable (tables : Tables) (interval : ℕ)

theorem sendString_append (mode : Mode) (bytes later : List (BitVec 8)) (h : 0 ∉ bytes) :
    sendString tables interval mode (bytes ++ later) =
      (sendString tables interval (sendPart tables interval mode bytes).2 later).map
        ((sendPart tables interval mode bytes).1 ++ ·) := by
  induction bytes generalizing mode with
  | nil => cases mode <;> simp [sendPart]
  | cons b bytes ih =>
    have hb : b ≠ 0#8 := fun hb => h (by simp [hb])
    have hbytes : 0 ∉ bytes := fun hb => h (List.mem_cons_of_mem _ hb)
    cases mode with
    | text =>
      by_cases hp : b = qmkPrefix
      · have hpre : qmkPrefix ≠ 0#8 := by decide
        simpa [sendString, sendPart, hp, hpre] using ih .code hbytes
      · simp [sendString, sendPart, hb, hp, ih .text hbytes, Function.comp_def]
    | code =>
      by_cases hd : b = delayCode
      · simpa [sendString, sendPart, hd] using ih (.delay 0) hbytes
      · cases hk : KeyAction.ofCode b with
        | none => simp [sendString, sendPart, hd, hk, ih .text hbytes, Function.comp_def]
        | some action => simpa [sendString, sendPart, hd, hk] using ih (.key action) hbytes
    | key action => simp [sendString, sendPart, ih .text hbytes, Function.comp_def]
    | delay ms =>
      by_cases hd : isDigit b
      · simpa [sendString, sendPart, hd] using ih (.delay _) hbytes
      · simp [sendString, sendPart, hd, ih .text hbytes, Function.comp_def]

theorem sendPart_bar (mode : Mode) (bytes : List (BitVec 8)) :
    (sendPart tables interval mode (bytes ++ [bar])).2 = .text := by
  induction bytes generalizing mode with
  | nil =>
    have hpre : bar ≠ qmkPrefix := by decide
    have hdelay : bar ≠ delayCode := by decide
    have hcode : KeyAction.ofCode bar = none := by decide
    have hdigit : isDigit bar = false := by decide
    cases mode <;> simp [sendPart, hpre, hdelay, hcode, hdigit]
  | cons b bytes ih =>
    cases mode with
    | text => by_cases hp : b = qmkPrefix <;> simp [sendPart, hp, ih]
    | code =>
      by_cases hd : b = delayCode
      · simp [sendPart, hd, ih]
      · cases hk : KeyAction.ofCode b <;> simp [sendPart, hd, hk, ih]
    | key action => simp [sendPart, ih]
    | delay ms => by_cases hd : isDigit b <;> simp [sendPart, hd, ih]

end Parts

/-- What is not cut off in a string: a character, a prefix with a code and what belongs to it. -/
inductive Token
  | char (b : BitVec 8)
  | key (action : KeyAction) (code : BitVec 8)
  | delay (digits : List (BitVec 8))
  | unknown (code : BitVec 8)
  deriving DecidableEq

namespace Token

def bytes : Token → List (BitVec 8)
  | char b => [b]
  | key action code => [qmkPrefix, action.code, code]
  | delay digits => qmkPrefix :: delayCode :: (digits ++ [bar])
  | unknown code => [qmkPrefix, code]

/-- A wait has at most four digits, which do not need to be digits. -/
def Valid : Token → Prop
  | char b => b ≠ 0 ∧ b ≠ qmkPrefix
  | key _ code => code ≠ 0
  | delay digits => 0 ∉ digits ∧ bar ∉ digits ∧ digits.length ≤ 4
  | unknown code => code ≠ 0 ∧ code ≠ delayCode ∧ KeyAction.ofCode code = none

def sent (tables : Tables) (interval : ℕ) (t : Token) : List Effect :=
  (sendPart tables interval .text t.bytes).1

variable {tables : Tables} {interval : ℕ} {t : Token}

theorem ofCode_code (action : KeyAction) : KeyAction.ofCode action.code = some action := by
  cases action <;> rfl

theorem code_ne_delayCode (action : KeyAction) : action.code ≠ delayCode := by
  cases action <;> decide

theorem code_ne_zero (action : KeyAction) : action.code ≠ 0 := by cases action <;> decide

theorem zero_notMem_bytes (h : t.Valid) : 0 ∉ t.bytes := by
  have hpre : (0 : BitVec 8) ≠ qmkPrefix := by decide
  have hdelay : (0 : BitVec 8) ≠ delayCode := by decide
  have hbar : (0 : BitVec 8) ≠ bar := by decide
  cases t with
  | char b => exact List.not_mem_cons_of_ne_of_not_mem h.1.symm List.not_mem_nil
  | key action code =>
    simp only [bytes, List.mem_cons, List.not_mem_nil, or_false, not_or]
    exact ⟨hpre, (code_ne_zero action).symm, Ne.symm h⟩
  | delay digits =>
    simp only [bytes, List.mem_cons, List.mem_append, List.not_mem_nil, or_false, not_or]
    exact ⟨hpre, hdelay, h.1, hbar⟩
  | unknown code =>
    simp only [bytes, List.mem_cons, List.not_mem_nil, or_false, not_or]
    exact ⟨hpre, h.1.symm⟩

theorem sendPart_bytes (h : t.Valid) :
    (sendPart tables interval .text t.bytes).2 = .text := by
  have hdelay : delayCode ≠ qmkPrefix := by decide
  cases t with
  | char b => simp [bytes, sendPart, h.2]
  | key action code => simp [bytes, sendPart, code_ne_delayCode, ofCode_code]
  | delay digits => simpa [bytes, sendPart] using sendPart_bar tables interval (.delay 0) digits
  | unknown code => simp [bytes, sendPart, h.2.1, h.2.2]

theorem sendString_bytes_append (h : t.Valid) (later : List (BitVec 8)) :
    sendString tables interval .text (t.bytes ++ later) =
      (sendString tables interval .text later).map (t.sent tables interval ++ ·) := by
  rw [sendString_append tables interval .text t.bytes later (zero_notMem_bytes h),
    sendPart_bytes h, sent]

theorem sendString_bytes (h : t.Valid) (later : List (BitVec 8)) :
    sendString tables interval .text (t.bytes ++ 0 :: later) =
      some (t.sent tables interval) := by
  rw [sendString_bytes_append h]
  simp [sendString]

theorem sendString_flatMap {tokens : List Token} (h : ∀ t ∈ tokens, t.Valid) :
    sendString tables interval .text (tokens.flatMap bytes ++ [0]) =
      some (tokens.flatMap (sent tables interval)) := by
  induction tokens with
  | nil => simp [sendString]
  | cons t tokens ih =>
    rw [List.flatMap_cons, List.append_assoc, sendString_bytes_append (h t (by simp)),
      ih fun u hu => h u (List.mem_cons_of_mem t hu)]
    rfl

end Token

/-- A sequence that is cut off: by the end of the text, or because no bar follows the prefix of a
wait early enough. -/
inductive CutOff : List (BitVec 8) → Prop
  | atCode : CutOff [qmkPrefix]
  | atKey (action : KeyAction) : CutOff [qmkPrefix, action.code]
  | atDelay (digits : List (BitVec 8)) (h : bar ∉ digits.take 5) :
      CutOff (qmkPrefix :: delayCode :: digits)

end Qmk.SendString
