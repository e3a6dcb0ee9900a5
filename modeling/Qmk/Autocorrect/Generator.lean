import Mathlib.Data.List.DropRight
import Mathlib.Data.List.Infix
import Mathlib.Tactic

/-! # The autocorrection dictionary

`qmk generate-autocorrect-data` puts the typos of a dictionary, read backwards, into a trie and
writes the trie as a table of bytes for the firmware.
-/

namespace Qmk.Autocorrect

/-- A line of the dictionary file, in lower case and with `:` for a word break. -/
structure Autocorrection where
  typo : List Char
  correction : List Char
  deriving DecidableEq

section TypoChars

def kcA : ℕ := 4

def kcSpc : ℕ := 0x2C

def kcQuot : ℕ := 0x34

/-- A key of `TYPO_CHARS`; `\x27` is the apostrophe. -/
def IsTypoChar (c : Char) : Prop := c = '\x27' ∨ c = ':' ∨ ('a' ≤ c ∧ c ≤ 'z')

instance : DecidablePred IsTypoChar := fun _ => inferInstanceAs (Decidable (_ ∨ _ ∨ _))

def typoCode (c : Char) : ℕ :=
  if c = '\x27' then kcQuot else if c = ':' then kcSpc else c.toNat + kcA - 'a'.toNat

end TypoChars

section ParseFile

/-- The checks of `parse_file` on a typo, given the lines it has accepted before. -/
def ValidTypo (accepted : List Autocorrection) (typo : List Char) : Prop :=
  typo ≠ [] ∧ (∀ c ∈ typo, IsTypoChar c) ∧
    (∀ other ∈ accepted, ¬ typo <:+: other.typo ∧ ¬ other.typo <:+: typo) ∧ typo.length ≤ 127

instance (accepted : List Autocorrection) (typo : List Char) :
    Decidable (ValidTypo accepted typo) :=
  letI := List.decidableBAll IsTypoChar typo
  inferInstanceAs (Decidable (_ ∧ _ ∧ _ ∧ _))

/-- `parse_file`: duplicates are ignored, and any other fault ends the program. -/
def parseFile (accepted : List Autocorrection) : List Autocorrection → Option (List Autocorrection)
  | [] => some accepted
  | line :: lines =>
    if ∃ other ∈ accepted, other.typo = line.typo then parseFile accepted lines
    else if ValidTypo accepted line.typo then parseFile (accepted ++ [line]) lines
    else none

end ParseFile

section MakeTrie

/-- A node of the trie as the list of its items: letters with their nodes, in alphabetical order,
and the key `LEAF` with a dictionary entry. -/
inductive Trie
  | nil
  | leaf (entry : Autocorrection) (rest : Trie)
  | item (c : Char) (child rest : Trie)
  deriving DecidableEq

namespace Trie

def get (c : Char) : Trie → Option Trie
  | nil => none
  | leaf _ rest => get c rest
  | item c' child rest => if c' = c then some child else get c rest

def leaf? : Trie → Option Autocorrection
  | leaf entry _ => some entry
  | _ => none

def setLeaf (entry : Autocorrection) : Trie → Trie
  | leaf _ rest => leaf entry rest
  | t => leaf entry t

def addItem (c : Char) (child : Trie) : Trie → Trie
  | nil => item c child nil
  | leaf entry rest => leaf entry (addItem c child rest)
  | item c' child' rest =>
    if c < c' then item c child (item c' child' rest) else item c' child' (addItem c child rest)

def setItem (c : Char) (child : Trie) : Trie → Trie
  | nil => nil
  | leaf entry rest => leaf entry (setItem c child rest)
  | item c' child' rest =>
    if c' = c then item c' child rest else item c' child' (setItem c child rest)

/-- The body of the loop of `make_trie`, with `setdefault` at each letter. -/
def insert (entry : Autocorrection) : List Char → Trie → Trie
  | [], t => t.setLeaf entry
  | c :: cs, t =>
    match t.get c with
    | some child => setItem c (insert entry cs child) t
    | none => addItem c (insert entry cs nil) t

end Trie

def makeTrie (autocorrections : List Autocorrection) : Trie :=
  autocorrections.foldl (fun trie e => trie.insert e e.typo.reverse) .nil

end MakeTrie

section SerializeTrie

inductive TableEntry
  | leaf (backspaces : ℤ) (correction : List Char)
  | chain (chars : List Char) (link : ℕ)
  | branch (links : List (Char × ℕ))
  deriving DecidableEq

def stripColons (typo : List Char) : List Char :=
  (typo.dropWhile (· = ':')).rdropWhile (· = ':')

/-- The number of leading characters that two words share. -/
def sharedLength : List Char → List Char → ℕ
  | a :: as, b :: bs => if a = b then sharedLength as bs + 1 else 0
  | _, _ => 0

def Autocorrection.kept (e : Autocorrection) : ℕ := sharedLength (stripColons e.typo) e.correction

def Autocorrection.wordBoundaryEnding (e : Autocorrection) : Bool := e.typo.getLast? = some ':'

/-- The backspaces that remove the rest of the typo; its last character is not on the screen yet. -/
def Autocorrection.backspaces (e : Autocorrection) : ℤ :=
  (stripColons e.typo).length - e.kept - 1 + if e.wordBoundaryEnding then 1 else 0

def Autocorrection.changes (e : Autocorrection) : List Char := e.correction.drop e.kept

def Autocorrection.tableEntry (e : Autocorrection) : TableEntry := .leaf e.backspaces e.changes

/-- The letters that lead to a node as one entry in front of the entries of the node, if there are
any. -/
def withChain (n : ℕ) (chars : List Char) (node : ℕ → List TableEntry) : List TableEntry :=
  if chars = [] then node n else .chain chars (n + 1) :: node (n + 1)

mutual

/-- `traverse`: the entries for a trie from position `n` of the table on; `chars` is the chain of
single children that has led to the trie. -/
def traverse (n : ℕ) (chars : List Char) : Trie → List TableEntry
  | .nil => withChain n chars fun _ => [.branch []]
  | .leaf entry _ => withChain n chars fun _ => [entry.tableEntry]
  | .item c child .nil => traverse n (chars ++ [c]) child
  | .item c child rest =>
    withChain n chars fun n =>
      let first := traverse (n + 1) [] child
      let others := traverseItems (n + 1 + first.length) rest
      .branch ((c, n + 1) :: others.1) :: first ++ others.2

def traverseItems (n : ℕ) : Trie → List (Char × ℕ) × List TableEntry
  | .nil => ([], [])
  | .leaf _ rest => traverseItems n rest
  | .item c child rest =>
    let first := traverse n [] child
    let others := traverseItems (n + first.length) rest
    ((c, n) :: others.1, first ++ others.2)

end

def encodeLink (byteOffset : ℕ) : List ℕ := [byteOffset &&& 255, byteOffset >>> 8]

/-- The first character of a branch carries a flag. -/
def serializeLinks (byteOffset : ℕ → ℕ) (flag : ℕ) : List (Char × ℕ) → List ℕ
  | [] => [0]
  | (c, link) :: links =>
    (typoCode c ||| flag) :: encodeLink (byteOffset link) ++ serializeLinks byteOffset 0 links

def serialize (byteOffset : ℕ → ℕ) : TableEntry → List ℕ
  | .leaf backspaces correction =>
    (backspaces.toNat + 128) :: correction.map (·.toNat) ++ [0]
  | .chain chars _ => chars.map typoCode ++ [0]
  | .branch links => serializeLinks byteOffset 64 links

/-- The sum of the lengths of the entries before; the lengths do not depend on the offsets. -/
def byteOffset (table : List TableEntry) (i : ℕ) : ℕ :=
  ((table.take i).map fun e => (serialize (fun _ => 0) e).length).sum

/-- The assertion on the backspaces, and the encoding of the correction in ASCII. -/
def TableEntry.Valid : TableEntry → Prop
  | .leaf backspaces correction =>
    (0 ≤ backspaces ∧ backspaces ≤ 63) ∧ ∀ c ∈ correction, c.toNat < 128
  | _ => True

instance : DecidablePred TableEntry.Valid
  | .leaf _ correction =>
    letI := List.decidableBAll (fun c : Char => c.toNat < 128) correction
    inferInstanceAs (Decidable (_ ∧ _))
  | .chain _ _ => .isTrue trivial
  | .branch _ => .isTrue trivial

def serializeTrie (trie : Trie) : Option (List ℕ) :=
  let table := traverse 0 [] trie
  if (∀ e ∈ table, e.Valid) ∧ byteOffset table table.length ≤ 0xFFFF then
    some (table.flatMap (serialize (byteOffset table)))
  else none

end SerializeTrie

/-- `autocorrect_data.h`. -/
structure Header where
  data : List ℕ
  minLength : ℕ
  maxLength : ℕ
  deriving DecidableEq

/-- `generate_autocorrect_data`, with the entries that have been accepted. -/
def generate (lines : List Autocorrection) : Option (List Autocorrection × Header) := do
  let autocorrections ← parseFile [] lines
  let data ← serializeTrie (makeTrie autocorrections)
  let minTypo ← (autocorrections.map (·.typo.length)).min?
  let maxTypo ← (autocorrections.map (·.typo.length)).max?
  return (autocorrections, ⟨data, minTypo, maxTypo⟩)

end Qmk.Autocorrect
