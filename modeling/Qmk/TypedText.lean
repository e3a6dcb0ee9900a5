import Qmk.SendString

/-! # What a sent string types

A host with the US layout shows a character for a key that is pressed, by the modifiers of the
report. The default tables of `send_string.c` are written for it. Keys that move the cursor or do
something else leave the screen unknown. No other key is held while the string is sent.
-/

namespace Qmk.SendString

section Tables

def asciiToKeycodeLut : List (BitVec 8) :=
  [0, 0, 0, 0, 0, 0, 0, 0,
    0x2A, 0x2B, 0x28, 0, 0, 0, 0, 0,
    0, 0, 0, 0, 0, 0, 0, 0,
    0, 0, 0, 0x29, 0, 0, 0, 0,
    0x2C, 0x1E, 0x34, 0x20, 0x21, 0x22, 0x24, 0x34,
    0x26, 0x27, 0x25, 0x2E, 0x36, 0x2D, 0x37, 0x38,
    0x27, 0x1E, 0x1F, 0x20, 0x21, 0x22, 0x23, 0x24,
    0x25, 0x26, 0x33, 0x33, 0x36, 0x2E, 0x37, 0x38,
    0x1F, 0x04, 0x05, 0x06, 0x07, 0x08, 0x09, 0x0A,
    0x0B, 0x0C, 0x0D, 0x0E, 0x0F, 0x10, 0x11, 0x12,
    0x13, 0x14, 0x15, 0x16, 0x17, 0x18, 0x19, 0x1A,
    0x1B, 0x1C, 0x1D, 0x2F, 0x31, 0x30, 0x23, 0x2D,
    0x35, 0x04, 0x05, 0x06, 0x07, 0x08, 0x09, 0x0A,
    0x0B, 0x0C, 0x0D, 0x0E, 0x0F, 0x10, 0x11, 0x12,
    0x13, 0x14, 0x15, 0x16, 0x17, 0x18, 0x19, 0x1A,
    0x1B, 0x1C, 0x1D, 0x2F, 0x31, 0x30, 0x35, 0x4C]

def asciiToShiftLut : List ℕ :=
  [0, 0, 0, 0, 0, 0, 0, 0,
    0, 0, 0, 0, 0, 0, 0, 0,
    0, 0, 0, 0, 0, 0, 0, 0,
    0, 0, 0, 0, 0, 0, 0, 0,
    0, 1, 1, 1, 1, 1, 1, 0,
    1, 1, 1, 1, 0, 0, 0, 0,
    0, 0, 0, 0, 0, 0, 0, 0,
    0, 0, 1, 0, 1, 0, 1, 1,
    1, 1, 1, 1, 1, 1, 1, 1,
    1, 1, 1, 1, 1, 1, 1, 1,
    1, 1, 1, 1, 1, 1, 1, 1,
    1, 1, 1, 0, 0, 0, 1, 1,
    0, 0, 0, 0, 0, 0, 0, 0,
    0, 0, 0, 0, 0, 0, 0, 0,
    0, 0, 0, 0, 0, 0, 0, 0,
    0, 0, 0, 1, 1, 1, 1, 0]

/-- The default tables; those for AltGr and for dead keys are zero. -/
def usTables (bell : Bool) : Tables where
  bell
  keycode c := asciiToKeycodeLut.getD c.toNat 0
  shifted c := asciiToShiftLut.getD c.toNat 0 = 1
  altgred _ := false
  dead _ := false

end Tables

section Host

/-- The characters of the keys from `KC_A` on, without Shift; a null for the keys that type
nothing. -/
def usPlain : List Char :=
  ['a', 'b', 'c', 'd', 'e', 'f', 'g', 'h', 'i', 'j', 'k', 'l', 'm', 'n', 'o', 'p', 'q', 'r', 's',
    't', 'u', 'v', 'w', 'x', 'y', 'z', '1', '2', '3', '4', '5', '6', '7', '8', '9', '0', '\n',
    '\x00', '\x00', '\t', ' ', '-', '=', '[', ']', '\\', '\x00', ';', '\x27', '\x60', ',', '.',
    '/']

def usShifted : List Char :=
  ['A', 'B', 'C', 'D', 'E', 'F', 'G', 'H', 'I', 'J', 'K', 'L', 'M', 'N', 'O', 'P', 'Q', 'R', 'S',
    'T', 'U', 'V', 'W', 'X', 'Y', 'Z', '!', '@', '#', '$', '%', '^', '&', '*', '(', ')', '\n',
    '\x00', '\x00', '\t', ' ', '_', '+', '\x7b', '\x7d', '|', '\x00', ':', '\x22', '~', '<', '>',
    '?']

def usKey (shift : Bool) (code : BitVec 8) : Option Char :=
  ((if shift then usShifted else usPlain)[code.toNat - 4]?).filter fun c =>
    decide (4 ≤ code.toNat) && decide (c ≠ '\x00')

/-- The text in front of the cursor, and the modifiers of the keyboard. -/
structure Screen where
  text : List Char
  mods : BitVec 8 := 0
  weakMods : BitVec 8 := 0
  oneshotMods : BitVec 8 := 0
  deriving DecidableEq

namespace Screen

/-- `get_mods_for_report`, without key overrides. -/
def modsForReport (s : Screen) : BitVec 8 := s.mods ||| s.weakMods ||| s.oneshotMods

def hasShift (mods : BitVec 8) : Bool := mods.getLsbD 1 || mods.getLsbD 5

def hasOther (mods : BitVec 8) : Bool :=
  mods.getLsbD 0 || mods.getLsbD 2 || mods.getLsbD 3 || mods.getLsbD 4 || mods.getLsbD 6 ||
    mods.getLsbD 7

def kcBspc : BitVec 8 := 0x2A

def isModifier (code : BitVec 8) : Bool := 0xE0 ≤ code.toNat ∧ code.toNat ≤ 0xE7

def modBit (code : BitVec 8) : BitVec 8 := 1 <<< (code.toNat % 8)

/-- The text of the host behind the press of a key with modifiers. -/
def typeKey (mods code : BitVec 8) (text : List Char) : Option (List Char) :=
  if hasOther mods then none
  else if code = kcBspc then some text.dropLast
  else (usKey (hasShift mods) code).map fun c => text ++ [c]

/-- `register_code`: the report of a key ends the one-shot modifiers. -/
def registerCode (code : BitVec 8) (s : Screen) : Option Screen :=
  if code = 0 then some s
  else if isModifier code then some { s with mods := s.mods ||| modBit code }
  else (typeKey s.modsForReport code s.text).map fun text => { s with text, oneshotMods := 0 }

def unregisterCode (code : BitVec 8) (s : Screen) : Screen :=
  if isModifier code then { s with mods := s.mods &&& ~~~modBit code } else s

def apply (s : Screen) : Effect → Option Screen
  | .tapCode code | .tapCodeDelay code _ => (s.registerCode code).map (unregisterCode code)
  | .registerCode code => s.registerCode code
  | .unregisterCode code => some (s.unregisterCode code)
  | .wait _ | .playSong => some s

def applyAll (s : Screen) (effects : List Effect) : Option Screen := effects.foldlM apply s

/-- What is left of a string after backspaces, and the string typed behind it. -/
def replace (bell : Bool) (interval backspaces : ℕ) (bytes : List (BitVec 8)) (s : Screen) :
    Option Screen :=
  (sendString (usTables bell) interval .text (bytes ++ [0])).bind fun effects =>
    s.applyAll (List.replicate backspaces (.tapCode kcBspc) ++ effects)

/-- Shift that `send_char` does not release. -/
def heldShift (s : Screen) : Bool := s.mods.getLsbD 5 || hasShift s.weakMods

def leftShift (s : Screen) : Bool := s.mods.getLsbD 1

end Screen

end Host

section Typed

def IsShown (c : Char) : Prop := c = '\t' ∨ c = '\n' ∨ (' ' ≤ c ∧ c ≤ '~')

instance : DecidablePred IsShown := fun _ => inferInstanceAs (Decidable (_ ∨ _ ∨ _))

def charByte (c : Char) : BitVec 8 := BitVec.ofNat 8 c.toNat

def needsShift (c : Char) : Bool := (usTables false).shifted (charByte c)

def shiftedChar (c : Char) : Char := (usKey true ((usTables false).keycode (charByte c))).getD c

/-- The text that characters become when they are sent with Shift `held`, with left Shift held,
which the next character that needs Shift releases, or with one-shot Shift, which the next key
ends. -/
def typedText (held : Bool) : Bool → Bool → List Char → List Char
  | _, _, [] => []
  | left, once, c :: cs =>
    (if held || left || once then shiftedChar c else c) ::
      typedText held (left && !needsShift c) false cs

def Unaffected (held : Bool) : Bool → Bool → List Char → Prop
  | _, _, [] => True
  | left, once, c :: cs => ((held || left || once) = true → shiftedChar c = c) ∧
      Unaffected held (left && !needsShift c) false cs

instance Unaffected.decidable (held : Bool) :
    ∀ left once cs, Decidable (Unaffected held left once cs)
  | _, _, [] => .isTrue trivial
  | left, _, c :: cs =>
    have := Unaffected.decidable held (left && !needsShift c) false cs
    inferInstanceAs (Decidable ((_ → _) ∧ _))

theorem length_typedText {held left once : Bool} {cs : List Char} :
    (typedText held left once cs).length = cs.length := by
  induction cs generalizing left once with
  | nil => rfl
  | cons c cs ih => rw [typedText, List.length_cons, ih, List.length_cons]

theorem typedText_eq_iff {held left once : Bool} {cs : List Char} :
    typedText held left once cs = cs ↔ Unaffected held left once cs := by
  induction cs generalizing left once with
  | nil => simp [typedText, Unaffected]
  | cons c cs ih =>
    rw [typedText, Unaffected, List.cons.injEq, ih]
    simp only [ite_eq_right_iff]

end Typed

section Keys

theorem usKey_shown {shift : Bool} {code : BitVec 8} {c : Char} (h : usKey shift code = some c) :
    IsShown c := by
  have hkeys : (usPlain ++ usShifted).all (fun d => decide (d ≠ '\x00' → IsShown d)) = true := by
    decide +kernel
  obtain ⟨hmem, hkey⟩ := Option.filter_eq_some_iff.mp h
  obtain ⟨-, hne⟩ := (Bool.and_eq_true _ _).mp hkey
  refine of_decide_eq_true (List.all_eq_true.mp hkeys c (List.mem_append.mpr ?_))
    (of_decide_eq_true hne)
  cases shift with
  | true => exact .inr (List.mem_of_getElem? hmem)
  | false => exact .inl (List.mem_of_getElem? hmem)

/-- A character that the host can show is typed by a key of its own, with Shift or without. -/
structure Typed (c : Char) : Prop where
  byte_ne_zero : charByte c ≠ 0
  byte_ne_prefix : charByte c ≠ qmkPrefix
  byte_ne_bell : charByte c ≠ 7
  code_ne_zero : (usTables false).keycode (charByte c) ≠ 0
  not_modifier : Screen.isModifier ((usTables false).keycode (charByte c)) = false
  code_ne_bspc : (usTables false).keycode (charByte c) ≠ Screen.kcBspc
  types : usKey (needsShift c) ((usTables false).keycode (charByte c)) = some c
  types_shifted : usKey true ((usTables false).keycode (charByte c)) = some (shiftedChar c)
  shifted : needsShift c = true → shiftedChar c = c

instance (c : Char) : Decidable (Typed c) :=
  decidable_of_iff
    (charByte c ≠ 0 ∧ charByte c ≠ qmkPrefix ∧ charByte c ≠ 7 ∧
      (usTables false).keycode (charByte c) ≠ 0 ∧
      Screen.isModifier ((usTables false).keycode (charByte c)) = false ∧
      (usTables false).keycode (charByte c) ≠ Screen.kcBspc ∧
      usKey (needsShift c) ((usTables false).keycode (charByte c)) = some c ∧
      usKey true ((usTables false).keycode (charByte c)) = some (shiftedChar c) ∧
      (needsShift c = true → shiftedChar c = c))
    ⟨fun ⟨h₁, h₂, h₃, h₄, h₅, h₆, h₇, h₈, h₉⟩ => ⟨h₁, h₂, h₃, h₄, h₅, h₆, h₇, h₈, h₉⟩,
      fun ⟨h₁, h₂, h₃, h₄, h₅, h₆, h₇, h₈, h₉⟩ => ⟨h₁, h₂, h₃, h₄, h₅, h₆, h₇, h₈, h₉⟩⟩

theorem typed_digits : ∀ high : Fin 8, ∀ low : Fin 16,
    IsShown (Char.ofNat (16 * high + low)) → Typed (Char.ofNat (16 * high + low)) := by
  decide +kernel

theorem IsShown.typed {c : Char} (h : IsShown c) : Typed c := by
  have hlt : c.toNat < 128 := by
    rcases h with rfl | rfl | ⟨-, hle⟩
    · decide
    · decide
    · exact lt_of_le_of_lt (show c.toNat ≤ '~'.toNat from hle) (by decide)
  have hc := typed_digits ⟨c.toNat / 16, by omega⟩ ⟨c.toNat % 16, by omega⟩
  rw [Nat.div_add_mod, Char.ofNat_toNat] at hc
  exact hc h

end Keys

namespace Screen

variable {s s' : Screen} {c : Char} {bell : Bool} {interval : ℕ}

theorem hasShift_or (m m' : BitVec 8) : hasShift (m ||| m') = (hasShift m || hasShift m') := by
  simp only [hasShift, BitVec.getLsbD_or]
  ac_rfl

theorem hasOther_or (m m' : BitVec 8) : hasOther (m ||| m') = (hasOther m || hasOther m') := by
  simp only [hasOther, BitVec.getLsbD_or]
  ac_rfl

theorem or_and_not (m bit : BitVec 8) : (m ||| bit) &&& ~~~bit = m &&& ~~~bit := by
  ext i hi
  simp only [BitVec.getElem_and, BitVec.getElem_or, BitVec.getElem_not]
  cases bit[i] <;> simp

theorem applyAll_append (es es' : List Effect) :
    s.applyAll (es ++ es') = (s.applyAll es).bind (·.applyAll es') :=
  List.foldlM_append

theorem applyAll_nil : s.applyAll [] = some s := rfl

theorem applyAll_cons (e : Effect) (es : List Effect) :
    s.applyAll (e :: es) = (s.apply e).bind (·.applyAll es) := rfl

theorem shown_registerCode {code : BitVec 8} (h : s.registerCode code = some s') :
    ∀ c ∈ s'.text, c ∈ s.text ∨ IsShown c := by
  intro c hc
  simp only [registerCode, typeKey] at h
  split_ifs at h <;> simp only [Option.map_some, Option.map_none, Option.map_map,
    Option.some.injEq, reduceCtorEq, Option.map_eq_some_iff] at h
  · exact .inl (h ▸ hc)
  · exact .inl (by rw [← h] at hc; exact hc)
  · rw [← h] at hc
    exact .inl (List.dropLast_subset _ hc)
  · obtain ⟨d, hd, rfl⟩ := h
    rcases List.mem_append.mp hc with hc | hc
    · exact .inl hc
    · rw [List.mem_singleton.mp hc]
      exact .inr (usKey_shown hd)

theorem shown_apply {e : Effect} (h : s.apply e = some s') :
    ∀ c ∈ s'.text, c ∈ s.text ∨ IsShown c := by
  have hrelease (code : BitVec 8) (t : Screen) : (t.unregisterCode code).text = t.text := by
    unfold unregisterCode
    split_ifs <;> rfl
  cases e with
  | tapCode code | tapCodeDelay code _ =>
    obtain ⟨t, ht, rfl⟩ := Option.map_eq_some_iff.mp h
    rw [hrelease]
    exact shown_registerCode ht
  | registerCode code => exact shown_registerCode h
  | unregisterCode code =>
    obtain rfl := Option.some.inj h
    rw [hrelease]
    exact fun c hc => .inl hc
  | wait _ | playSong =>
    obtain rfl := Option.some.inj h
    exact fun c hc => .inl hc

theorem shown_applyAll {es : List Effect} (h : s.applyAll es = some s') :
    ∀ c ∈ s'.text, c ∈ s.text ∨ IsShown c := by
  induction es generalizing s with
  | nil =>
    obtain rfl := Option.some.inj h
    exact fun c hc => .inl hc
  | cons e es ih =>
    rw [applyAll_cons] at h
    obtain ⟨t, ht, hes⟩ := Option.bind_eq_some_iff.mp h
    intro c hc
    rcases ih hes c hc with hc | hc
    · exact shown_apply ht c hc
    · exact .inr hc

variable (bell interval) in
/-- The key of a character that the host can show, with the modifiers that are active. -/
theorem apply_tap (hc : Typed c) (s : Screen) :
    s.apply (.tapCodeDelay ((usTables bell).keycode (charByte c)) interval) =
      if hasOther s.modsForReport then none
      else (usKey (hasShift s.modsForReport) ((usTables false).keycode (charByte c))).map
        fun d => { s with text := s.text ++ [d], oneshotMods := 0 } := by
  have hcode : (usTables bell).keycode (charByte c) = (usTables false).keycode (charByte c) := rfl
  have hrelease : unregisterCode ((usTables false).keycode (charByte c)) = id := by
    funext t
    simp [unregisterCode, hc.not_modifier]
  simp only [hcode, apply, registerCode, if_neg hc.code_ne_zero, hc.not_modifier, typeKey,
    if_neg hc.code_ne_bspc, hrelease, Bool.false_eq_true, if_false, Option.map_id, id_eq]
  split_ifs
  · rfl
  · exact Option.map_map ..

variable (bell interval) in
theorem sendChar_typed (hc : Typed c) :
    sendChar (usTables bell) interval (charByte c) =
      whenSet (needsShift c) (.registerCode kcLeftShift) interval ++
        [.tapCodeDelay ((usTables bell).keycode (charByte c)) interval, .wait interval] ++
        whenSet (needsShift c) (.unregisterCode kcLeftShift) interval := by
  have hbell : ¬ ((usTables bell).bell = true ∧ charByte c = 7) := fun h => hc.byte_ne_bell h.2
  have hshifted : (usTables bell).shifted (charByte c) = needsShift c := rfl
  have haltgred : (usTables bell).altgred (charByte c) = false := rfl
  have hdead : (usTables bell).dead (charByte c) = false := rfl
  rw [sendChar, if_neg hbell, hshifted, haltgred, hdead]
  simp only [whenSet, Bool.false_eq_true, if_false, List.append_nil]

theorem apply_wait (s : Screen) : s.apply (.wait interval) = some s := rfl

theorem apply_pressShift (s : Screen) :
    s.apply (.registerCode kcLeftShift) = some { s with mods := s.mods ||| modBit kcLeftShift } :=
  rfl

theorem apply_releaseShift (s : Screen) :
    s.apply (.unregisterCode kcLeftShift) =
      some { s with mods := s.mods &&& ~~~modBit kcLeftShift } := rfl

/-- With left Shift pressed too, the other modifiers are as they were. -/
theorem modsForReport_pressShift (s : Screen) :
    let t : Screen := { s with mods := s.mods ||| modBit kcLeftShift }
    hasOther t.modsForReport = hasOther s.modsForReport ∧ hasShift t.modsForReport = true := by
  have hother : hasOther (modBit kcLeftShift) = false := by decide
  have hshift : hasShift (modBit kcLeftShift) = true := by decide
  constructor
  · simp [modsForReport, hasOther_or, hother]
  · simp [modsForReport, hasShift_or, hshift]

/-- A character appears unless another modifier than Shift is active. -/
theorem applyAll_sendChar (hc : IsShown c) (s : Screen) :
    s.applyAll (sendChar (usTables bell) interval (charByte c)) =
      if hasOther s.modsForReport then none
      else some { s with
        text := s.text ++ [if hasShift s.modsForReport then shiftedChar c else c]
        mods := if needsShift c then s.mods &&& ~~~modBit kcLeftShift else s.mods
        oneshotMods := 0 } := by
  have htyped := hc.typed
  have htypes := htyped.types
  rw [sendChar_typed bell interval htyped]
  cases hn : needsShift c with
  | true =>
    -- left Shift is pressed for the key and released behind it
    obtain ⟨hother, hshift⟩ := modsForReport_pressShift s
    have htap := apply_tap bell interval htyped { s with mods := s.mods ||| modBit kcLeftShift }
    rw [hn] at htypes
    rw [hother, hshift, htypes] at htap
    have hmods : (s.mods ||| modBit kcLeftShift) &&& ~~~modBit kcLeftShift =
        s.mods &&& ~~~modBit kcLeftShift := or_and_not _ _
    simp only [whenSet, if_true, List.cons_append, List.nil_append, applyAll_cons,
      apply_pressShift, apply_wait, Option.bind_some, htap]
    split_ifs with hheld hshifted
    · rfl
    · simp [apply_releaseShift, applyAll_nil, hmods, htyped.shifted hn]
    · simp [apply_releaseShift, applyAll_nil, hmods]
  | false =>
    have htap := apply_tap bell interval htyped s
    rw [hn] at htypes
    simp only [whenSet, Bool.false_eq_true, if_false, List.append_nil, List.nil_append,
      applyAll_cons, htap]
    split_ifs with hheld hshifted
    · rfl
    · simp [hshifted, htyped.types_shifted, apply_wait, applyAll_nil]
    · simp [hshifted, htypes, apply_wait, applyAll_nil]

theorem hasShift_modsForReport (s : Screen) :
    hasShift s.modsForReport = (s.heldShift || s.leftShift || hasShift s.oneshotMods) := by
  rw [modsForReport, hasShift_or, hasShift_or, heldShift, leftShift, hasShift]
  ac_rfl

theorem hasOther_release (m : BitVec 8) : hasOther (m &&& ~~~modBit kcLeftShift) = hasOther m := by
  simp [hasOther, modBit, kcLeftShift]

theorem applyAll_chars {cs : List Char} (hcs : ∀ c ∈ cs, IsShown c) {s : Screen}
    (hother : hasOther s.modsForReport = false) :
    (s.applyAll (cs.flatMap fun c => sendChar (usTables bell) interval (charByte c))).map (·.text) =
      some (s.text ++ typedText s.heldShift s.leftShift (hasShift s.oneshotMods) cs) := by
  induction cs generalizing s with
  | nil => simp [applyAll_nil, typedText]
  | cons c cs ih =>
    have htail : ∀ d ∈ cs, IsShown d := fun d hd => hcs d (List.mem_cons_of_mem _ hd)
    rw [List.flatMap_cons, applyAll_append, applyAll_sendChar (hcs c List.mem_cons_self),
      hother, if_neg Bool.false_ne_true, Option.bind_some, ih htail, typedText,
      hasShift_modsForReport]
    · have hheld (m : BitVec 8) : (m &&& ~~~modBit kcLeftShift).getLsbD 5 = m.getLsbD 5 := by
        simp [modBit, kcLeftShift]
      have hleft (m : BitVec 8) : (m &&& ~~~modBit kcLeftShift).getLsbD 1 = false := by
        simp [modBit, kcLeftShift]
      have hnone : hasShift 0 = false := by decide
      cases needsShift c with
      | true => simp only [heldShift, leftShift, hheld, hleft, hnone, if_true, Bool.not_true,
          Bool.and_false, List.append_assoc, List.singleton_append]
      | false => simp only [heldShift, leftShift, hnone, Bool.false_eq_true, if_false,
          Bool.not_false, Bool.and_true, List.append_assoc, List.singleton_append]
    · have hnone : hasOther 0 = false := by decide
      rw [modsForReport, hasOther_or, hasOther_or, Bool.or_eq_false_iff,
        Bool.or_eq_false_iff] at hother ⊢
      refine ⟨⟨?_, hother.1.2⟩, hnone⟩
      cases needsShift c with
      | true => exact (hasOther_release _).trans hother.1.1
      | false => exact hother.1.1

theorem applyAll_chars_of_hasOther {cs : List Char} (hcs : ∀ c ∈ cs, IsShown c) (hne : cs ≠ [])
    {s : Screen} (hother : hasOther s.modsForReport = true) :
    s.applyAll (cs.flatMap fun c => sendChar (usTables bell) interval (charByte c)) = none := by
  obtain ⟨c, cs, rfl⟩ := List.exists_cons_of_ne_nil hne
  rw [List.flatMap_cons, applyAll_append, applyAll_sendChar (hcs c List.mem_cons_self), hother,
    if_pos rfl]
  rfl

theorem apply_bspc (s : Screen) : s.apply (.tapCode kcBspc) =
    if hasOther s.modsForReport then none
    else some { s with text := s.text.dropLast, oneshotMods := 0 } := by
  have hcode : kcBspc ≠ 0 := by decide
  have hmod : isModifier kcBspc = false := by decide
  simp only [apply, registerCode, if_neg hcode, hmod, Bool.false_eq_true, if_false, typeKey,
    if_true]
  split_ifs
  · rfl
  · simp [unregisterCode, hmod]

theorem hasOther_clearOneshot {s : Screen} (hother : hasOther s.modsForReport = false)
    (text : List Char) :
    hasOther ({ s with text, oneshotMods := 0 } : Screen).modsForReport = false := by
  have hnone : hasOther 0 = false := by decide
  rw [modsForReport, hasOther_or, Bool.or_eq_false_iff] at hother ⊢
  exact ⟨hother.1, hnone⟩

theorem applyAll_backspaces (n : ℕ) {s : Screen} (hother : hasOther s.modsForReport = false) :
    s.applyAll (List.replicate n (.tapCode kcBspc)) = some { s with
      text := s.text.take (s.text.length - n)
      oneshotMods := if n = 0 then s.oneshotMods else 0 } := by
  induction n generalizing s with
  | zero => simp [applyAll_nil]
  | succ n ih =>
    rw [List.replicate_succ, applyAll_cons, apply_bspc, hother, if_neg Bool.false_ne_true,
      Option.bind_some, ih (hasOther_clearOneshot hother _)]
    have htake : s.text.dropLast.take (s.text.dropLast.length - n) =
        s.text.take (s.text.length - (n + 1)) := by
      rw [List.dropLast_eq_take, List.take_take, List.length_take]
      congr 1
      omega
    simp only [htake, Nat.succ_ne_zero, if_false, ite_self]

theorem applyAll_backspaces_of_hasOther {n : ℕ} (hn : n ≠ 0) {s : Screen}
    (hother : hasOther s.modsForReport = true) :
    s.applyAll (List.replicate n (.tapCode kcBspc)) = none := by
  obtain ⟨n, rfl⟩ := Nat.exists_eq_succ_of_ne_zero hn
  rw [List.replicate_succ, applyAll_cons, apply_bspc, hother, if_pos rfl]
  rfl

theorem sendString_chars {cs : List Char} (hcs : ∀ c ∈ cs, IsShown c) :
    sendString (usTables bell) interval .text (cs.map charByte ++ [0]) =
      some (cs.flatMap fun c => sendChar (usTables bell) interval (charByte c)) := by
  induction cs with
  | nil => simp [sendString]
  | cons c cs ih =>
    have hc := (hcs c List.mem_cons_self).typed
    rw [List.map_cons, List.cons_append, sendString, if_neg hc.byte_ne_zero,
      if_neg hc.byte_ne_prefix, ih fun d hd => hcs d (List.mem_cons_of_mem _ hd)]
    rfl

variable (bell interval) in
theorem replace_chars {cs : List Char} (hcs : ∀ c ∈ cs, IsShown c) (n : ℕ) {s : Screen}
    (hother : hasOther s.modsForReport = false) :
    (s.replace bell interval n (cs.map charByte)).map (·.text) =
      some (s.text.take (s.text.length - n) ++ typedText s.heldShift s.leftShift
        (hasShift s.oneshotMods && decide (n = 0)) cs) := by
  rw [replace, sendString_chars hcs, Option.bind_some, applyAll_append,
    applyAll_backspaces n hother, Option.bind_some, applyAll_chars hcs]
  · cases n with
    | zero => simp [heldShift, leftShift]
    | succ n => simp [heldShift, leftShift, hasShift]
  · by_cases hn : n = 0
    · simpa [hn] using hother
    · simpa [hn] using hasOther_clearOneshot hother _

variable (bell interval) in
/-- With another modifier the screen is unknown as soon as something is typed. -/
theorem replace_of_hasOther {cs : List Char} (hcs : ∀ c ∈ cs, IsShown c) (n : ℕ) {s : Screen}
    (hother : hasOther s.modsForReport = true) :
    s.replace bell interval n (cs.map charByte) = if n = 0 ∧ cs = [] then some s else none := by
  rw [replace, sendString_chars hcs, Option.bind_some, applyAll_append]
  by_cases hn : n = 0
  · subst hn
    rw [List.replicate_zero, applyAll_nil, Option.bind_some]
    by_cases hne : cs = []
    · simp [hne, applyAll_nil]
    · rw [applyAll_chars_of_hasOther hcs hne hother, if_neg (by simp [hne])]
  · rw [applyAll_backspaces_of_hasOther hn hother, if_neg (by simp [hn])]
    rfl

theorem shown_replace {n : ℕ} {bytes : List (BitVec 8)}
    (h : s.replace bell interval n bytes = some s') :
    ∀ c ∈ s'.text, c ∈ s.text ∨ IsShown c := by
  obtain ⟨effects, -, h⟩ := Option.bind_eq_some_iff.mp h
  exact shown_applyAll h

end Screen

end Qmk.SendString
