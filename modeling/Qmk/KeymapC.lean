import Qmk.CLexer

/-! # Keymaps as C files

`generate_c` writes the layers of a JSON keymap into a template of a C file, and `_get_layers` reads
the layers of a C file back from its tokens. A call comes back as it was, and so does an identifier.
-/

namespace Qmk.KeymapC

open Text CLexer

inductive Slot
  | keymap
  | encoders
  | macros
  | includes
  | keycodes
  deriving DecidableEq

def Slot.placeholder : Slot → List Char
  | keymap => "__KEYMAP_GOES_HERE__".toList
  | encoders => "__ENCODER_MAP_GOES_HERE__".toList
  | macros => "__MACRO_OUTPUT_GOES_HERE__".toList
  | includes => "__INCLUDES__".toList
  | keycodes => "__KEYCODE_OUTPUT_GOES_HERE__".toList

section Generate

/-- The layout and the layers of a keymap, and the texts for the other slots, which are empty where
the keymap does not have the field. -/
structure KeymapJson where
  layout : List Char
  layers : List (List (List Char))
  sections : Slot → List Char

def stripAny (keycode : List Char) : List Char :=
  if "ANY(".toList <+: keycode ∧ [')'] <:+ keycode then (keycode.drop 4).dropLast else keycode

def layerLine (layout : List Char) (num : ℕ) (layer : List (List Char)) : List Char :=
  "\t[".toList ++ Nat.toDigits 10 num ++ "] = ".toList ++ layout ++ "(".toList ++
    List.intercalate ", ".toList (layer.map stripAny) ++ ")".toList

def generateKeymapTable (json : KeymapJson) : List (List Char) :=
  json.layers.zipIdx.foldl (fun lines layer =>
    (if layer.2 ≠ 0 then lines.modifyLast (· ++ ",".toList) else lines) ++
      [layerLine json.layout layer.2 layer.1]) []

def generateC (template : List Char) (json : KeymapJson) : List Char :=
  let newKeymap := replace Slot.keymap.placeholder
    (List.intercalate ['\n'] (generateKeymapTable json)) template
  let newKeymap := replace Slot.encoders.placeholder (json.sections .encoders) newKeymap
  let newKeymap := replace Slot.macros.placeholder (json.sections .macros) newKeymap
  let newKeymap := replace Slot.includes.placeholder (json.sections .includes) newKeymap
  replace Slot.keycodes.placeholder (json.sections .keycodes) newKeymap

end Generate

section GetLayers

/-- The entry `name` or `layout` of a layer is `False` at first. -/
structure Layer where
  name : Option (List Char) := none
  layout : Option (List Char) := none
  keycodes : List (List Char) := []
  deriving DecidableEq

/-- The variables of `_get_layers`. -/
structure Scan where
  layers : List Layer := []
  keymapCertainty : ℕ := 0
  braceDepth : ℤ := 0
  isKeymap : Bool := false
  isLayer : Bool := false
  isAdvKc : Bool := false
  layer : Layer := {}
  deriving DecidableEq

namespace Scan

/-- `layer['keycodes'][-1] += text`, which fails without a keycode. -/
def extend (text : List Char) (s : Scan) : Option Scan :=
  match s.layer.keycodes with
  | [] => none
  | kcs => some { s with layer := { s.layer with keycodes := kcs.modifyLast (· ++ text) } }

def missing (entry : Option (List Char)) : Bool := entry.all List.isEmpty

/-- The names of the two keycodes that have one of their own. -/
def unalias (text : List Char) : List Char :=
  if text = "_______".toList then "KC_TRNS".toList
  else if text = "XXXXXXX".toList then "KC_NO".toList
  else text

def keymapName (text : List Char) (s : Scan) : Option Scan :=
  if missing s.layer.name then
    if "LAYOUT".toList <+: text ∨ "KEYMAP".toList <+: text then
      some { s with layer := { s.layer with name := some "0".toList, layout := some text } }
    else some { s with layer := { s.layer with name := some text } }
  else if missing s.layer.layout then
    some { s with layer := { s.layer with layout := some text } }
  else if s.isLayer then
    if s.isAdvKc then s.extend (unalias text)
    else
      some { s with
        layer := { s.layer with keycodes := s.layer.keycodes ++ [unalias text] } }
  else some s

def otherName (text : List Char) (s : Scan) : Scan :=
  if text = "PROGMEM".toList ∧ s.keymapCertainty = 2 then { s with keymapCertainty := 3 }
  else if text = "keymaps".toList ∧ s.keymapCertainty = 3 then { s with keymapCertainty := 4 }
  else if text = "MATRIX_ROWS".toList ∧ s.keymapCertainty = 4 then { s with keymapCertainty := 5 }
  else if text = "MATRIX_COLS".toList ∧ s.keymapCertainty = 5 then { s with keymapCertainty := 6 }
  else s

def openingBraces : List (List Char) := [['('], ['\x7b'], ['[']]

def closingBraces : List (List Char) := [[')'], ['\x7d'], [']']]

def opening (text : List Char) (s : Scan) : Option Scan :=
  if s.isKeymap then
    if s.isLayer then Scan.extend text { s with isAdvKc := true }
    else if text = ['('] ∧ s.braceDepth = 2 then some { s with isLayer := true }
    else some s
  else if text = ['\x7b'] ∧ s.keymapCertainty = 6 then some { s with isKeymap := true }
  else some s

def closing (text : List Char) (s : Scan) : Option Scan :=
  if s.isKeymap then
    if s.isAdvKc then
      (s.extend text).map fun s => if s.braceDepth = 2 then { s with isAdvKc := false } else s
    else if text = [')'] ∧ s.braceDepth = 1 then
      some { s with isLayer := false, layers := s.layers ++ [s.layer], layer := {} }
    else if text = ['\x7d'] ∧ s.braceDepth = 0 then
      some { s with isKeymap := false, keymapCertainty := 0 }
    else some s
  else some s

def rest (text : List Char) (s : Scan) : Option Scan := if s.isAdvKc then s.extend text else some s

/-- One round of the loop of `_get_layers`. -/
def step (kind : Kind) (text : List Char) (s : Scan) : Option Scan :=
  match kind with
  | .name => if s.isKeymap then s.keymapName text else some (s.otherName text)
  | .keyword =>
    some (if text = "const".toList ∧ s.keymapCertainty = 0 then { s with keymapCertainty := 1 }
      else s)
  | .keywordType =>
    some (if text = "uint16_t".toList ∧ s.keymapCertainty = 1 then { s with keymapCertainty := 2 }
      else s)
  | .punctuation =>
    if text ∈ openingBraces then Scan.opening text { s with braceDepth := s.braceDepth + 1 }
    else if text ∈ closingBraces then Scan.closing text { s with braceDepth := s.braceDepth - 1 }
    else s.rest text
  | .integer =>
    if s.isKeymap ∧ s.isAdvKc = false then
      some (if missing s.layer.name then { s with layer := { s.layer with name := some text } }
        else s)
    else s.rest text
  | .other => s.rest text

def run (wordKind : List Char → Kind) (ts : List Token) (s : Scan) : Option Scan :=
  ts.foldlM (fun s t => step (t.kind wordKind) t.text s) s

end Scan

def getLayers (wordKind : List Char → Kind) (ts : List Token) : Option (List Layer) :=
  (Scan.run wordKind ts {}).map Scan.layers

end GetLayers

section Keymaps

/-- How a lexer for C tells words apart. -/
structure Lexicon where
  wordKind : List Char → Kind
  const : wordKind "const".toList = .keyword
  uint16 : wordKind "uint16_t".toList = .keywordType
  names : ∀ w ∈ ["PROGMEM".toList, "keymaps".toList, "MATRIX_ROWS".toList, "MATRIX_COLS".toList],
    wordKind w = .name
  decimal : ∀ n, wordKind (Nat.toDigits 10 n) = .integer
  punctuation : ∀ w, wordKind w ≠ .punctuation
  number : ∀ w, w.head?.any Char.isDigit → wordKind w = .integer ∨ wordKind w = .other

/-- An identifier, a call with the tokens between its parentheses, or an integer literal. -/
inductive Core
  | ident (w : List Char)
  | call (f : List Char) (args : List Token)
  | literal (w : List Char)
  deriving DecidableEq

namespace Core

def tokens : Core → List Token
  | ident w => [.word w]
  | call f args => .word f :: .symbol '(' :: (args ++ [.symbol ')'])
  | literal w => [.word w]

def text (c : Core) : List Char := spell Token.text c.tokens

def IsLiteral : Core → Prop
  | literal _ => True
  | _ => False

instance : (c : Core) → Decidable c.IsLiteral
  | literal _ => inferInstanceAs (Decidable True)
  | ident _ | call _ _ => inferInstanceAs (Decidable False)

/-- The text of a keycode with the names of transparent and of disabled keys. -/
def plain (wordKind : List Char → Kind) (c : Core) : List Char :=
  c.tokens.flatMap fun t => if t.kind wordKind = .name then Scan.unalias t.text else t.text

end Core

def openings : List Token := [.symbol '(', .symbol '\x7b', .symbol '[']

def closings : List Token := [.symbol ')', .symbol '\x7d', .symbol ']']

/-- Braces that match in depth, after `d` open ones. -/
def Balanced : ℕ → List Token → Prop
  | d, [] => d = 0
  | d, t :: ts =>
    if t ∈ openings then Balanced (d + 1) ts
    else if t ∈ closings then 0 < d ∧ Balanced (d - 1) ts
    else Balanced d ts

instance decidableBalanced : (d : ℕ) → (ts : List Token) → Decidable (Balanced d ts)
  | d, [] => inferInstanceAs (Decidable (d = 0))
  | d, t :: ts =>
    haveI := decidableBalanced (d + 1) ts
    haveI := decidableBalanced (d - 1) ts
    haveI := decidableBalanced d ts
    inferInstanceAs (Decidable (if t ∈ openings then Balanced (d + 1) ts
      else if t ∈ closings then 0 < d ∧ Balanced (d - 1) ts else Balanced d ts))

def IsName (lexicon : Lexicon) (w : List Char) : Prop :=
  (w ≠ [] ∧ ∀ c ∈ w, isWord c) ∧ lexicon.wordKind w = .name

instance (lexicon : Lexicon) (w : List Char) : Decidable (IsName lexicon w) :=
  inferInstanceAs (Decidable (_ ∧ _))

/-- A keycode of the kinds above. `ANY` is no function. -/
def Core.Valid (lexicon : Lexicon) : Core → Prop
  | ident w => IsName lexicon w
  | call f args => IsName lexicon f ∧ f ≠ "ANY".toList ∧ Spelled args (some ')') ∧
      Balanced 0 args ∧
      ∀ t ∈ args, t.kind lexicon.wordKind ≠ .keyword ∧ t.kind lexicon.wordKind ≠ .keywordType
  | literal w => (w ≠ [] ∧ ∀ c ∈ w, isWord c) ∧ w.head?.any Char.isDigit

instance (lexicon : Lexicon) : (c : Core) → Decidable (c.Valid lexicon)
  | .ident _ | .call _ _ | .literal _ => inferInstanceAs (Decidable (_ ∧ _))

/-- A keycode, which may be wrapped in `ANY`. -/
structure Keycode where
  core : Core
  any : Bool := false
  deriving DecidableEq

def Keycode.text (k : Keycode) : List Char :=
  if k.any then "ANY(".toList ++ k.core.text ++ ")".toList else k.core.text

structure Keymap where
  layout : List Char
  layers : List (List Keycode)
  sections : Slot → List Token

def Keymap.json (keymap : Keymap) : KeymapJson where
  layout := keymap.layout
  layers := keymap.layers.map fun layer => layer.map Keycode.text
  sections slot := spell Token.text (keymap.sections slot)

/-- The difference of the numbers of opening and of closing braces. -/
def depth : List Token → ℤ
  | [] => 0
  | t :: ts => (if t ∈ openings then 1 else if t ∈ closings then -1 else 0) + depth ts

/-- Code that may stand in a line of its own beside the keymaps array. It does not use its name. -/
structure IsSection (ts : List Token) : Prop where
  spelled : Spelled ts (some '\n')
  keymaps : .word "keymaps".toList ∉ ts
  depth : depth ts = 0

structure Keymap.Valid (lexicon : Lexicon) (keymap : Keymap) : Prop where
  layout : IsName lexicon keymap.layout
  keycodes : ∀ layer ∈ keymap.layers, ∀ k ∈ layer, k.core.Valid lexicon
  sections : ∀ slot, IsSection (keymap.sections slot)

/-- Nothing in the keymap is taken for a slot of the template. -/
def Keymap.Clean (keymap : Keymap) : Prop :=
  ∀ slot ≠ Slot.keymap, ¬ slot.placeholder <:+: keymap.layout ∧
    (∀ layer ∈ keymap.layers, ∀ k ∈ layer, ¬ slot.placeholder <:+: k.core.text) ∧
    ∀ i, ¬ slot.placeholder <:+: spell Token.text (keymap.sections i)

/-- `const uint16_t PROGMEM keymaps[][MATRIX_ROWS][MATRIX_COLS] = {` -/
def signature : List Token :=
  [.word "const".toList, .blanks [' '], .word "uint16_t".toList, .blanks [' '],
    .word "PROGMEM".toList, .blanks [' '], .word "keymaps".toList, .symbol '[', .symbol ']',
    .symbol '[', .word "MATRIX_ROWS".toList, .symbol ']', .symbol '[', .word "MATRIX_COLS".toList,
    .symbol ']', .blanks [' '], .symbol '=', .blanks [' '], .symbol '\x7b']

/-- The tokens of a template, with its slots. The keymaps array has nothing but the slot of the
layers between its braces, and blanks. -/
structure Template where
  before : List (Piece Slot Token)
  blanks : List Token
  blanks' : List Token
  after : List (Piece Slot Token)

/-- A token that ends before any character, and not with a character of a word. -/
def Closed : Token → Prop
  | .newline | .comment _ | .string _ => True
  | .symbol c => c ≠ '/' ∧ c ≠ '.'
  | _ => False

instance : (t : Token) → Decidable (Closed t)
  | .newline | .comment _ | .string _ => inferInstanceAs (Decidable True)
  | .symbol _ => inferInstanceAs (Decidable (_ ∧ _))
  | .word _ | .blanks _ | .directive _ => inferInstanceAs (Decidable False)

def IsGap : Token → Prop
  | .newline | .blanks _ => True
  | _ => False

instance : (t : Token) → Decidable (IsGap t)
  | .newline | .blanks _ => inferInstanceAs (Decidable True)
  | .symbol _ | .comment _ | .string _ | .word _ | .directive _ => inferInstanceAs (Decidable False)

namespace Template

def pieces (template : Template) : List (Piece Slot Token) :=
  template.before ++ .chunk (signature ++ template.blanks) :: .slot .keymap ::
    .chunk (template.blanks' ++ [.symbol '\x7d']) :: template.after

def spellPiece : Piece Slot Token → Piece Slot Char
  | .chunk ts => .chunk (spell Token.text ts)
  | .slot i => .slot i

def text (template : Template) : List Char :=
  render Slot.placeholder (template.pieces.map spellPiece)

/-- A chunk is code that ends before whatever comes behind it. -/
def IsChunk : Piece Slot Token → Prop
  | .chunk ts => Spelled ts none ∧ ∃ t ∈ ts.getLast?, Closed t
  | .slot _ => True

instance : (x : Piece Slot Token) → Decidable (IsChunk x)
  | .chunk ts => inferInstanceAs (Decidable (Spelled ts none ∧ ∃ t ∈ ts.getLast?, Closed t))
  | .slot _ => inferInstanceAs (Decidable True)

/-- Behind a slot for other code the line ends. -/
def Follows : Piece Slot Token → Piece Slot Token → Prop
  | .slot .keymap, .chunk _ => True
  | .slot _, .chunk ts => ts.head? = some .newline
  | .slot _, .slot _ => False
  | .chunk _, _ => True

instance : (x y : Piece Slot Token) → Decidable (Follows x y)
  | .slot .keymap, .chunk _ => inferInstanceAs (Decidable True)
  | .slot .encoders, .chunk ts | .slot .macros, .chunk ts | .slot .includes, .chunk ts
  | .slot .keycodes, .chunk ts => inferInstanceAs (Decidable (ts.head? = some .newline))
  | .slot .keymap, .slot _ | .slot .encoders, .slot _ | .slot .macros, .slot _
  | .slot .includes, .slot _ | .slot .keycodes, .slot _ => inferInstanceAs (Decidable False)
  | .chunk _, _ => inferInstanceAs (Decidable True)

/-- A template that is a C file with one keymaps array. -/
structure Fits (template : Template) : Prop where
  gaps : ∀ t ∈ template.blanks ++ template.blanks', IsGap t
  keymap : .slot .keymap ∉ template.before ++ template.after
  chunks : ∀ x ∈ template.pieces, IsChunk x
  follows : template.pieces.IsChain Follows
  apart : (template.pieces.map spellPiece).IsChain (Piece.Apart isWord)
  free : ∀ x ∈ template.pieces.map spellPiece, ∀ slot : Slot, x.Free slot.placeholder
  keymaps : .word "keymaps".toList ∉ render (fun _ => []) (template.before ++ template.after)
  depth : depth (render (fun _ => []) template.before) = 0

end Template

def defaultKeymapC : List Char :=
  "#include QMK_KEYBOARD_H\n".toList ++
  "__INCLUDES__\n\n".toList ++
  "/* THIS FILE WAS GENERATED!\n".toList ++
  " *\n".toList ++
  " * This file was generated by qmk json2c. You may or may not want to\n".toList ++
  " * edit it directly.\n".toList ++
  " */\n".toList ++
  "__KEYCODE_OUTPUT_GOES_HERE__\n\n".toList ++
  "const uint16_t PROGMEM keymaps[][MATRIX_ROWS][MATRIX_COLS] = \x7b\n".toList ++
  "__KEYMAP_GOES_HERE__\n".toList ++
  "\x7d;\n\n".toList ++
  "#if defined(ENCODER_ENABLE) && defined(ENCODER_MAP_ENABLE)\n".toList ++
  "const uint16_t PROGMEM encoder_map[][NUM_ENCODERS][NUM_DIRECTIONS] = \x7b\n".toList ++
  "__ENCODER_MAP_GOES_HERE__\n".toList ++
  "\x7d;\n".toList ++
  "#endif // defined(ENCODER_ENABLE) && defined(ENCODER_MAP_ENABLE)\n\n".toList ++
  "__MACRO_OUTPUT_GOES_HERE__\n\n".toList

/-- The tokens of `DEFAULT_KEYMAP_C`. -/
def defaultTemplate : Template where
  before :=
    [.chunk [.directive "include QMK_KEYBOARD_H".toList, .newline], .slot .includes,
      .chunk [.newline, .newline, .comment (" THIS FILE WAS GENERATED!\n".toList ++ " *\n".toList ++
        " * This file was generated by qmk json2c. You may or may not want to\n".toList ++
        " * edit it directly.\n".toList ++ " ".toList), .newline], .slot .keycodes,
      .chunk [.newline, .newline]]
  blanks := [.newline]
  blanks' := [.newline]
  after :=
    [.chunk [.symbol ';', .newline, .newline,
      .directive "if defined(ENCODER_ENABLE) && defined(ENCODER_MAP_ENABLE)".toList, .newline,
      .word "const".toList, .blanks [' '], .word "uint16_t".toList, .blanks [' '],
      .word "PROGMEM".toList, .blanks [' '], .word "encoder_map".toList, .symbol '[', .symbol ']',
      .symbol '[', .word "NUM_ENCODERS".toList, .symbol ']', .symbol '[',
      .word "NUM_DIRECTIONS".toList, .symbol ']', .blanks [' '], .symbol '=', .blanks [' '],
      .symbol '\x7b', .newline], .slot .encoders,
      .chunk [.newline, .symbol '\x7d', .symbol ';', .newline,
        .directive "endif // defined(ENCODER_ENABLE) && defined(ENCODER_MAP_ENABLE)".toList,
        .newline, .newline], .slot .macros, .chunk [.newline, .newline]]

/-- The layers come back with the layout and with their keycodes, without `ANY` and with the names
of transparent and of disabled keys. -/
def RoundTrip (lexicon : Lexicon) (lex : List Char → List Token) (template : Template)
    (keymap : Keymap) : Prop :=
  ∃ layers, getLayers lexicon.wordKind (lex (generateC template.text keymap.json)) = some layers ∧
    layers.map Layer.layout = keymap.layers.map (fun _ => some keymap.layout) ∧
    layers.map Layer.keycodes =
      keymap.layers.map fun layer => layer.map fun k => k.core.plain lexicon.wordKind

end Keymaps

end Qmk.KeymapC
