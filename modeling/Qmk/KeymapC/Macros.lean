import Qmk.KeymapC

/-! # The macros of a keymap

`generate_c` walks a JSON value that it shares with its caller. The generation of a tap of several
keys takes the last of them out of the value, so that it is lost to whoever reads the value next.
-/

namespace Qmk.KeymapC

open Text

/-- The texts for the elements of a list, and the elements as they are afterwards. The first element
without a text ends the walk. -/
def forEach {α β : Type*} (f : α → Option β × α) : List α → Option (List β) × List α
  | [] => (some [], [])
  | a :: l =>
    match (f a).1 with
    | none => (none, (f a).2 :: l)
    | some b => ((forEach f l).1.map (b :: ·), (f a).2 :: (forEach f l).2)

section ForEach

variable {α β : Type*} {f : α → Option β × α}

theorem forEach_isSome {l : List α} : (forEach f l).1.isSome ↔ ∀ a ∈ l, (f a).1.isSome := by
  induction l with
  | nil => simp [forEach]
  | cons a l ih =>
    rw [forEach, List.forall_mem_cons, ← ih]
    cases h : (f a).1 <;> simp

theorem forEach_eq_some {l : List α} {bs : List β}
    (h : List.Forall₂ (fun a b => (f a).1 = some b) l bs) : (forEach f l).1 = some bs := by
  induction h with
  | nil => rfl
  | cons ha _ ih => simp [forEach, ha, ih]

theorem forEach_unchanged_iff {l : List α} :
    (forEach f l).2 = l ↔ ∀ pre a post, l = pre ++ a :: post → (∀ b ∈ pre, (f b).1.isSome) →
      (f a).2 = a := by
  induction l with
  | nil => simp [forEach]
  | cons a l ih =>
    constructor
    · rintro h pre b post hl hpre
      rw [forEach] at h
      cases pre with
      | nil =>
        obtain ⟨rfl, rfl⟩ := List.cons.inj hl
        cases ha : (f a).1 <;> rw [ha] at h <;> exact List.head_eq_of_cons_eq h
      | cons c pre =>
        obtain ⟨rfl, rfl⟩ := List.cons.inj hl
        obtain ⟨hc, hpre⟩ := List.forall_mem_cons.mp hpre
        obtain ⟨t, ht⟩ := Option.isSome_iff_exists.mp hc
        rw [ht] at h
        exact ih.mp (List.tail_eq_of_cons_eq h) pre b post rfl hpre
    · intro h
      have ha : (f a).2 = a := h [] a l rfl (by simp)
      rw [forEach]
      cases ht : (f a).1 with
      | none => rw [ha]
      | some t =>
        have hl : (forEach f l).2 = l := by
          refine ih.mpr fun pre b post hl hpre => h (a :: pre) b post (by rw [hl]; rfl) ?_
          exact List.forall_mem_cons.mpr ⟨by rw [ht]; rfl, hpre⟩
        rw [ha, hl]

end ForEach

section Macros

inductive ActionName
  | beep
  | delay
  | down
  | tap
  | up
  deriving DecidableEq

def ActionName.upper : ActionName → List Char
  | beep => "BEEP".toList
  | delay => "DELAY".toList
  | down => "DOWN".toList
  | tap => "TAP".toList
  | up => "UP".toList

/-- An object of a macro, none of whose entries is required. -/
structure Action where
  action : Option ActionName := none
  keycodes : Option (List (List Char)) := none
  duration : Option ℕ := none
  deriving DecidableEq

inductive Fragment
  | text (s : List Char)
  | action (a : Action)
  deriving DecidableEq

/-- The replacements in a string, each everywhere before the next one. -/
def escapeText (s : List Char) : List Char :=
  let s := replace ['\\'] ['\\', '\\'] s
  let s := replace ['\r', '\n'] ['\\', 'n'] s
  let s := replace ['\n'] ['\\', 'n'] s
  let s := replace ['\r'] ['\\', 'n'] s
  let s := replace ['\t'] ['\\', 't'] s
  replace ['"'] ['\\', '"'] s

def keyText (name : ActionName) (keycode : List Char) : List Char :=
  "SS_".toList ++ name.upper ++ "(X_".toList ++ keycode ++ [')']

/-- The text for the keycodes of an object and the keycodes afterwards, of which `pop` takes the
last one out of a tap of several keys. -/
def keysText (name : ActionName) (keycodes : List (List Char)) :
    List Char × List (List Char) :=
  if name = .tap ∧ 1 < keycodes.length then
    let last := keycodes.getLastD []
    let keycodes := keycodes.dropLast
    (keycodes.flatMap (keyText .down) ++ keyText .tap last ++
      keycodes.reverse.flatMap (keyText .up), keycodes)
  else (keycodes.flatMap (keyText name), keycodes)

/-- The text for an object and the object afterwards. Without an entry that is needed there is no
text. -/
def actionText (a : Action) : Option (List Char) × Action :=
  match a.action with
  | none => (none, a)
  | some .delay =>
    (a.duration.map fun n => "SS_DELAY(".toList ++ Nat.toDigits 10 n ++ [')'], a)
  | some .beep => (some ['"', '\\', 'a', '"'], a)
  | some name =>
    match a.keycodes with
    | none => (none, a)
    | some keycodes =>
      (some (keysText name keycodes).1, { a with keycodes := some (keysText name keycodes).2 })

def fragmentText : Fragment → Option (List Char) × Fragment
  | .text s => (some ('"' :: escapeText s ++ ['"']), .text s)
  | .action a => ((actionText a).1, .action (actionText a).2)

/-- The argument of `SEND_STRING` for a macro, and the macro afterwards. -/
def macroArgument (fragments : List Fragment) : Option (List Char) × List Fragment :=
  ((forEach fragmentText fragments).1.map fun texts => replace ['"', '"'] [] texts.flatten,
    (forEach fragmentText fragments).2)

def caseLines (argument : List Char) (i : ℕ) : List (List Char) :=
  ["            case QK_MACRO_".toList ++ Nat.toDigits 10 i ++ [':'],
    "                SEND_STRING(".toList ++ argument ++ ");".toList,
    "                return false;".toList]

def generateMacrosFunction (macros : List (List Fragment)) :
    Option (List (List Char)) × List (List Fragment) :=
  ((forEach macroArgument macros).1.map fun arguments =>
    ["bool process_record_user(uint16_t keycode, keyrecord_t *record) \x7b".toList,
      "    if (record->event.pressed) \x7b".toList,
      "        switch (keycode) \x7b".toList] ++
    arguments.zipIdx.flatMap (fun argument => caseLines argument.1 argument.2) ++
    ["        \x7d".toList, "    \x7d".toList, "\n    return true;".toList, "\x7d;".toList, []],
    (forEach macroArgument macros).2)

end Macros

section Keymap

structure Encoder where
  ccw : List Char
  cw : List Char
  deriving DecidableEq

/-- A keycode of the keymap, whose aliases may be missing. -/
structure KeycodeDecl where
  key : List Char
  aliases : Option (List (List Char))
  deriving DecidableEq

/-- What `generate_c` reads of a JSON value. An entry that is `null` is as good as missing. -/
structure JsonKeymap where
  keyboard : List Char
  layout : List Char
  layers : List (List (List Char))
  encoders : Option (List (List Encoder)) := none
  macros : Option (List (List Fragment)) := none
  hostLanguage : Option (List Char) := none
  keycodes : Option (List KeycodeDecl) := none
  deriving DecidableEq

def encoderText (e : Encoder) : List Char :=
  "ENCODER_CCW_CW(".toList ++ stripAny e.ccw ++ ", ".toList ++ stripAny e.cw ++ [')']

def generateEncodermapTable (encoders : List (List Encoder)) : List (List Char) :=
  encoders.zipIdx.foldl (fun lines layer =>
    (if layer.2 ≠ 0 then lines.modifyLast (· ++ [',']) else lines) ++
      ["\t[".toList ++ Nat.toDigits 10 layer.2 ++ "] = \x7b".toList ++
        List.intercalate ", ".toList (layer.1.map encoderText) ++ "\x7d".toList]) []

def generateKeycodesFunction (keycodes : List KeycodeDecl) : List (List Char) :=
  ["enum keymap_keycodes \x7b".toList] ++
    keycodes.zipIdx.map (fun item =>
      "  ".toList ++ item.1.key ++ (if item.2 = 0 then " = QK_USER_0,".toList else [','])) ++
    ["\x7d;".toList] ++
    keycodes.flatMap fun item =>
      (item.aliases.getD []).map fun name =>
        "#define ".toList ++ name ++ [' '] ++ item.key

def hostLanguageText (language : List Char) : List Char :=
  "#include \"keymap_".toList ++ language ++ ".h\"\n#include \"sendstring_".toList ++ language ++
    ".h\"\n".toList

def joinLines (lines : List (List Char)) : List Char := List.intercalate ['\n'] lines

def sectionTexts (json : JsonKeymap) (macros : List Char) : Slot → List Char
  | .keymap => []
  | .encoders => (json.encoders.map fun e => joinLines (generateEncodermapTable e)).getD []
  | .macros => macros
  | .includes => (json.hostLanguage.map hostLanguageText).getD []
  | .keycodes => (json.keycodes.map fun k => joinLines (generateKeycodesFunction k)).getD []

variable (templateC : List Char → List Char)

def fillTemplate (json : JsonKeymap) (macros : List Char) : List Char :=
  generateC (templateC json.keyboard)
    { layout := json.layout, layers := json.layers, sections := sectionTexts json macros }

/-- `generate_c`, and the JSON value afterwards. -/
def generate (json : JsonKeymap) : Option (List Char) × JsonKeymap :=
  match json.macros with
  | none => (some (fillTemplate templateC json []), json)
  | some macros =>
    ((generateMacrosFunction macros).1.map fun lines =>
      fillTemplate templateC json (joinLines lines),
      { json with macros := some (generateMacrosFunction macros).2 })

/-- What is promised of two calls with one value. -/
structure Repeatable (json : JsonKeymap) : Prop where
  unchanged : (generate templateC json).2 = json
  again : (generate templateC (generate templateC json).2).1 = (generate templateC json).1

end Keymap

/-- An object has the entries that its action needs. -/
def Action.Complete (a : Action) : Prop :=
  match a.action with
  | none => False
  | some .delay => a.duration.isSome
  | some .beep => True
  | some _ => a.keycodes.isSome

def Fragment.Complete : Fragment → Prop
  | .text _ => True
  | .action a => a.Complete

def Fragment.TapsSeveral (f : Fragment) : Prop :=
  ∃ a keycodes, f = .action a ∧ a.action = some .tap ∧ a.keycodes = some keycodes ∧
    1 < keycodes.length

/-- A fragment in front of which no entry is missing. -/
def JsonKeymap.ArrivesAt (json : JsonKeymap) (f : Fragment) : Prop :=
  ∃ macros before pre post after, json.macros = some macros ∧
    macros = before ++ (pre ++ f :: post) :: after ∧
    (∀ fragments ∈ before, ∀ g ∈ fragments, g.Complete) ∧ ∀ g ∈ pre, g.Complete

section Frame

variable (templateC : List Char → List Char)

theorem keysText_unchanged_iff {name : ActionName} {keycodes : List (List Char)} :
    (keysText name keycodes).2 = keycodes ↔ ¬ (name = .tap ∧ 1 < keycodes.length) := by
  rw [keysText]
  split_ifs with h
  · refine iff_of_false (fun heq => ?_) (not_not.mpr h)
    have hlength := congrArg List.length heq
    rw [List.length_dropLast] at hlength
    omega
  · exact iff_of_true rfl h

theorem actionText_isSome {a : Action} : (actionText a).1.isSome ↔ a.Complete := by
  obtain ⟨action, keycodes, duration⟩ := a
  rcases action with _ | _ | _ | _ | _ | _ <;> cases keycodes <;>
    simp [actionText, Action.Complete]

theorem fragmentText_isSome {f : Fragment} : (fragmentText f).1.isSome ↔ f.Complete := by
  cases f with
  | text s => simp [fragmentText, Fragment.Complete]
  | action a => exact actionText_isSome

theorem macroArgument_isSome {fragments : List Fragment} :
    (macroArgument fragments).1.isSome ↔ ∀ f ∈ fragments, f.Complete := by
  simp only [macroArgument, Option.isSome_map, forEach_isSome, fragmentText_isSome]

theorem fragmentText_unchanged_iff {f : Fragment} :
    (fragmentText f).2 = f ↔ ¬ f.TapsSeveral := by
  cases f with
  | text s => simp [fragmentText, Fragment.TapsSeveral]
  | action a =>
    obtain ⟨action, keycodes, duration⟩ := a
    have hkeys (name : ActionName) (keycodes : List (List Char)) :=
      @keysText_unchanged_iff name keycodes
    rcases action with _ | _ | _ | _ | _ | _ <;> rcases keycodes with _ | keycodes <;>
      simp [fragmentText, actionText, Fragment.TapsSeveral, hkeys]

theorem macroArgument_unchanged_iff {fragments : List Fragment} :
    (macroArgument fragments).2 = fragments ↔ ∀ pre f post, fragments = pre ++ f :: post →
      (∀ g ∈ pre, g.Complete) → ¬ f.TapsSeveral := by
  simp only [macroArgument, forEach_unchanged_iff, fragmentText_isSome,
    fragmentText_unchanged_iff]

theorem generate_unchanged_iff {json : JsonKeymap} :
    (generate templateC json).2 = json ↔ ∀ f, json.ArrivesAt f → ¬ f.TapsSeveral := by
  obtain ⟨keyboard, layout, layers, encoders, macros, hostLanguage, keycodes⟩ := json
  cases macros with
  | none => simp [generate, JsonKeymap.ArrivesAt]
  | some macros =>
    simp only [generate, generateMacrosFunction, JsonKeymap.mk.injEq, Option.some.injEq, true_and,
      and_true, forEach_unchanged_iff, macroArgument_isSome, macroArgument_unchanged_iff]
    constructor
    · rintro h f ⟨macros', before, pre, post, after, hsome, hmacros, hbefore, hpre⟩
      obtain rfl : macros = macros' := Option.some.inj hsome
      exact h before _ after hmacros hbefore pre f post rfl hpre
    · rintro h before fragments after hmacros hbefore pre f post rfl hpre
      exact h f ⟨macros, before, pre, post, after, rfl, hmacros, hbefore, hpre⟩

/-- A call can be repeated as long as it does not arrive at a tap of several keys. -/
theorem repeatable_iff (json : JsonKeymap) :
    Repeatable templateC json ↔ ∀ f, json.ArrivesAt f → ¬ f.TapsSeveral := by
  rw [← generate_unchanged_iff templateC]
  exact ⟨Repeatable.unchanged, fun h => ⟨h, by rw [h]⟩⟩

def shiftedA : Fragment :=
  .action { action := some .tap, keycodes := some ["LSFT".toList, "A".toList] }

def shiftedKey : JsonKeymap where
  keyboard := "clueboard/66/rev3".toList
  layout := "LAYOUT".toList
  layers := []
  macros := some [[shiftedA]]

/-- The second call taps the shift key only. -/
theorem shiftedKey_once : ¬ Repeatable id shiftedKey := by
  intro h
  have harrives : shiftedKey.ArrivesAt shiftedA :=
    ⟨[[shiftedA]], [], [], [], [], rfl, rfl, by simp, by simp⟩
  exact (generate_unchanged_iff id).mp h.unchanged shiftedA harrives
    ⟨_, _, rfl, rfl, rfl, by decide⟩

end Frame

end Qmk.KeymapC
