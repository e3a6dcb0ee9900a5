import Mathlib.Data.List.TakeWhile
import Qmk.Text

/-! # The tokens of C

The tokens that the scanner of keymaps tells apart, and those it passes over. A lexer is as in C if
it splits every text into the tokens that spell it, whenever no token would be continued by the
character behind it.
-/

namespace Qmk.CLexer

open Text

/-- The characters of a text are tested one by one, not all that there are. -/
instance (priority := high) decidableText (p : Char → Prop) [DecidablePred p] (l : List Char) :
    Decidable (∀ c ∈ l, p c) :=
  List.decidableBAll p l

instance (priority := high) decidableNext (p : Char → Prop) [DecidablePred p] :
    (next : Option Char) → Decidable (∀ c ∈ next, p c)
  | none => isTrue fun _ h => by cases h
  | some c => decidable_of_iff (p c) ⟨fun hc _ h => Option.some.inj h ▸ hc, fun h => h c rfl⟩

/-- A run of word characters is an identifier, a keyword or a number. A comment, a directive and a
string are given without what encloses them. -/
inductive Token
  | word (w : List Char)
  | blanks (w : List Char)
  | newline
  | symbol (c : Char)
  | comment (w : List Char)
  | directive (w : List Char)
  | string (w : List Char)
  deriving DecidableEq

inductive Kind
  | name
  | keyword
  | keywordType
  | punctuation
  | integer
  | other
  deriving DecidableEq

def isWord (c : Char) : Bool := c.isAlphanum || c == '_'

def isBlank (c : Char) : Bool := c == ' ' || c == '\t'

def punctuators : List Char := ['(', ')', '[', ']', '{', '}', ',', ';', '.']

def operators : List Char :=
  ['~', '!', '%', '^', '&', '*', '+', '=', '|', '?', ':', '<', '>', '/', '-']

namespace Token

def text : Token → List Char
  | word w => w
  | blanks w => w
  | newline => ['\n']
  | symbol c => [c]
  | comment w => '/' :: '*' :: (w ++ ['*', '/'])
  | directive w => '#' :: w
  | string w => '\x22' :: (w ++ ['\x22'])

def kind (wordKind : List Char → Kind) : Token → Kind
  | word w => wordKind w
  | symbol c => if c ∈ punctuators then .punctuation else .other
  | _ => .other

end Token

def closeComment : List Char → List Char × List Char
  | [] => ([], [])
  | c :: l =>
    if c = '*' ∧ l.head? = some '/' then ([], l.tail)
    else (c :: (closeComment l).1, (closeComment l).2)

/-- The rest of a string and what is behind it. A backslash escapes the next character. -/
def closeString (escaped : Bool) : List Char → List Char × List Char
  | [] => ([], [])
  | c :: l =>
    if c = '\x22' ∧ escaped = false then ([], l)
    else
      (c :: (closeString (c == '\\' && !escaped) l).1, (closeString (c == '\\' && !escaped) l).2)

/-- A word is continued by a word character, and it is the prefix of a string or of a character
before a quote. A number goes on with a point and with the sign of its exponent. -/
def continues (w : List Char) (c : Char) : Bool :=
  isWord c || c == '\x22' || c == '\x27' ||
    w.head?.any Char.isDigit && (c == '.' || (c == '+' || c == '-') &&
      w.getLast?.any fun d => d == 'e' || d == 'E' || d == 'p' || d == 'P')

/-- A token that ends before the next character, if there is one. -/
def Token.Ends : Token → Option Char → Prop
  | .word w, next => (w ≠ [] ∧ ∀ c ∈ w, isWord c) ∧ ∀ c ∈ next, ¬ continues w c
  | .blanks w, next => (w ≠ [] ∧ ∀ c ∈ w, isBlank c) ∧ ∀ c ∈ next, ¬ isBlank c
  | .newline, _ => True
  | .symbol c, next =>
    c ∈ punctuators ++ operators ∧ (c = '/' → ∀ d ∈ next, d ≠ '/' ∧ d ≠ '*') ∧
      (c = '.' → ∀ d ∈ next, ¬ d.isDigit)
  | .comment w, _ => closeComment (w ++ ['*', '/']) = (w, [])
  | .directive w, next => '\n' ∉ w ∧ ∀ c ∈ next, c = '\n'
  | .string w, _ => closeString false (w ++ ['\x22']) = (w, [])

instance : (t : Token) → (next : Option Char) → Decidable (t.Ends next)
  | .word _, _ | .blanks _, _ | .symbol _, _ | .directive _, _ =>
    inferInstanceAs (Decidable (_ ∧ _))
  | .newline, _ => inferInstanceAs (Decidable True)
  | .comment _, _ | .string _, _ => inferInstanceAs (Decidable (_ = _))

/-- The first character of a text that is followed by another one. -/
def first (l : List Char) (next : Option Char) : Option Char := l.head?.or next

/-- Tokens that all end, before a next character. -/
def Spelled : List Token → Option Char → Prop
  | [], _ => True
  | t :: ts, next => t.Ends (first (spell Token.text ts) next) ∧ Spelled ts next

instance decidableSpelled : (ts : List Token) → (next : Option Char) → Decidable (Spelled ts next)
  | [], _ => inferInstanceAs (Decidable True)
  | _ :: ts, next => haveI := decidableSpelled ts next; inferInstanceAs (Decidable (_ ∧ _))

def AsInC (lex : List Char → List Token) : Prop :=
  ∀ ts, Spelled ts none → lex (spell Token.text ts) = ts

section Spelling

variable {t : Token} {ts us : List Token} {next : Option Char}

theorem Token.Ends.text_ne_nil (h : t.Ends next) : t.text ≠ [] := by
  cases t with
  | word w => exact h.1.1
  | blanks w => exact h.1.1
  | newline | symbol | comment | directive | string => exact List.cons_ne_nil _ _

theorem first_append (l m : List Char) (next : Option Char) :
    first (l ++ m) next = first l (first m next) := by
  cases l <;> rfl

@[simp] theorem first_nil (next : Option Char) : first [] next = next := rfl

@[simp] theorem first_cons (c : Char) (l : List Char) (next : Option Char) :
    first (c :: l) next = some c := rfl

@[simp] theorem spelled_nil : Spelled [] next := trivial

theorem spelled_cons :
    Spelled (t :: ts) next ↔ t.Ends (first (spell Token.text ts) next) ∧ Spelled ts next :=
  Iff.rfl

theorem spelled_append : Spelled (ts ++ us) next ↔
    Spelled ts (first (spell Token.text us) next) ∧ Spelled us next := by
  induction ts with
  | nil => simp
  | cons t ts ih =>
    rw [List.cons_append, spelled_cons, spelled_cons, ih, spell_append, first_append, and_assoc]

theorem Spelled.text_ne_nil (h : Spelled ts next) (ht : t ∈ ts) : t.text ≠ [] := by
  obtain ⟨a, b, rfl⟩ := List.append_of_mem ht
  exact (spelled_append.mp h).2.1.text_ne_nil

theorem Token.Ends.none (h : t.Ends next) : t.Ends none := by
  cases t with
  | word w => exact ⟨h.1, fun c hc => by cases hc⟩
  | blanks w => exact ⟨h.1, fun c hc => by cases hc⟩
  | symbol c => exact ⟨h.1, fun _ d hd => (by cases hd), fun _ d hd => (by cases hd)⟩
  | directive w => exact ⟨h.1, fun c hc => by cases hc⟩
  | newline | comment | string => exact h

theorem Spelled.none (h : Spelled ts next) : Spelled ts none := by
  induction ts with
  | nil => trivial
  | cons t ts ih =>
    refine ⟨?_, ih h.2⟩
    cases hts : spell Token.text ts with
    | nil => exact h.1.none
    | cons c l => simpa [hts] using h.1

theorem symbol_cases : ∀ c ∈ punctuators ++ operators, isWord c = false ∧ isBlank c = false ∧
    c ≠ '\n' ∧ c ≠ '#' ∧ c ≠ '\x22' := by
  decide

theorem Token.Ends.apart (h : t.Ends next) :
    (∀ c ∈ t.text.getLast?, isWord c = false) ∨ ∀ c ∈ next, isWord c = false := by
  cases t with
  | word w =>
    refine .inr fun c hc => ?_
    have := h.2 c hc
    simp only [continues, Bool.or_eq_true, not_or] at this
    simpa using this.1.1.1
  | blanks w =>
    refine .inl fun c hc => ?_
    have hblank := h.1.2 c (List.mem_of_getLast? hc)
    simp only [isBlank, Bool.or_eq_true, beq_iff_eq] at hblank
    rcases hblank with rfl | rfl <;> decide
  | newline => exact .inl (by decide)
  | symbol c =>
    refine .inl fun d hd => ?_
    obtain rfl : c = d := by simpa [Token.text] using hd
    exact (symbol_cases c h.1).1
  | comment w =>
    refine .inl fun d hd => ?_
    obtain rfl : '/' = d := by simpa [Token.text, List.getLast?_cons] using hd
    decide
  | directive w =>
    refine .inr fun c hc => ?_
    obtain rfl := h.2 c hc
    decide
  | string w =>
    refine .inl fun d hd => ?_
    obtain rfl : '\x22' = d := by simpa [Token.text, List.getLast?_cons] using hd
    decide

theorem Spelled.exists_of_isInfix {pat : List Char} (hpat : ∀ c ∈ pat, isWord c) (hne : pat ≠ [])
    (h : Spelled ts next) (hin : pat <:+: spell Token.text ts) : ∃ t ∈ ts, pat <:+: t.text := by
  induction ts with
  | nil => exact absurd (List.infix_nil.mp hin) hne
  | cons t ts ih =>
    have hapart := h.1.apart.imp_right fun hc c (hmem : c ∈ (spell Token.text ts).head?) =>
      hc c (by rw [first, Option.mem_def.mp hmem]; rfl)
    rcases isInfix_append hpat hapart hin with hin | hin
    · exact ⟨t, List.mem_cons_self, hin⟩
    · obtain ⟨u, hu, hin⟩ := ih h.2 hin
      exact ⟨u, List.mem_cons_of_mem t hu, hin⟩

end Spelling

section Lexer

/-- The token at the front of a text, and what is behind it. -/
def next : List Char → Token × List Char
  | [] => (.newline, [])
  | c :: l =>
    if isWord c then (.word ((c :: l).takeWhile isWord), (c :: l).dropWhile isWord)
    else if isBlank c then (.blanks ((c :: l).takeWhile isBlank), (c :: l).dropWhile isBlank)
    else if c = '\n' then (.newline, l)
    else if c = '#' then (.directive (l.takeWhile (· ≠ '\n')), l.dropWhile (· ≠ '\n'))
    else if c = '\x22' then (.string (closeString false l).1, (closeString false l).2)
    else if c = '/' ∧ l.head? = some '*' then
      (.comment (closeComment l.tail).1, (closeComment l.tail).2)
    else (.symbol c, l)

def cLexer : List Char → List Token := tokens next

theorem takeWhile_dropWhile {p : Char → Bool} {w l : List Char} (hw : ∀ c ∈ w, p c)
    (hl : ∀ c ∈ l.head?, p c = false) :
    (w ++ l).takeWhile p = w ∧ (w ++ l).dropWhile p = l := by
  have hnil : l.takeWhile p = [] ∧ l.dropWhile p = l := by
    cases l with
    | nil => exact ⟨rfl, rfl⟩
    | cons c l => simp [hl c rfl]
  rw [List.takeWhile_append_of_pos hw, List.dropWhile_append_of_pos hw, hnil.1, hnil.2]
  exact ⟨List.append_nil w, rfl⟩

theorem closeComment_append {w : List Char} (l : List Char)
    (h : closeComment (w ++ ['*', '/']) = (w, [])) :
    closeComment (w ++ '*' :: '/' :: l) = (w, l) := by
  induction w with
  | nil => rfl
  | cons c w ih =>
    have hhead : (w ++ '*' :: '/' :: l).head? = (w ++ ['*', '/']).head? := by
      cases w <;> rfl
    simp only [List.cons_append, closeComment, hhead] at h ⊢
    split_ifs at h ⊢ with hc
    · cases h
    · simp only [Prod.mk.injEq, List.cons.injEq, true_and] at h
      rw [ih (Prod.ext h.1 h.2)]

theorem closeString_append {w : List Char} (escaped : Bool) (l : List Char)
    (h : closeString escaped (w ++ ['\x22']) = (w, [])) :
    closeString escaped (w ++ '\x22' :: l) = (w, l) := by
  induction w generalizing escaped with
  | nil =>
    cases escaped with
    | false => rfl
    | true => simp [closeString] at h
  | cons c w ih =>
    simp only [List.cons_append, closeString] at h ⊢
    split_ifs at h ⊢ with hc
    · cases h
    · simp only [Prod.mk.injEq, List.cons.injEq, true_and] at h
      rw [ih _ (Prod.ext h.1 h.2)]

theorem next_text {t : Token} {l : List Char} (h : t.Ends l.head?) :
    next (t.text ++ l) = (t, l) := by
  cases t with
  | word w =>
    obtain ⟨⟨hne, hw⟩, hl⟩ := h
    obtain ⟨c, w, rfl⟩ := List.exists_cons_of_ne_nil hne
    have hsplit := takeWhile_dropWhile hw fun d hd => by
      have := hl d hd
      simp only [continues, Bool.or_eq_true, not_or] at this
      simpa using this.1.1.1
    rw [List.cons_append] at hsplit
    simp only [Token.text, List.cons_append, next, hw c List.mem_cons_self, if_true, hsplit]
  | blanks w =>
    obtain ⟨⟨hne, hw⟩, hl⟩ := h
    obtain ⟨c, w, rfl⟩ := List.exists_cons_of_ne_nil hne
    have hsplit := takeWhile_dropWhile hw fun d hd => by simpa using hl d hd
    have hc := hw c List.mem_cons_self
    have hword : isWord c = false := by
      simp only [isBlank, Bool.or_eq_true, beq_iff_eq] at hc
      rcases hc with rfl | rfl <;> decide
    rw [List.cons_append] at hsplit
    simp only [Token.text, List.cons_append, next, hword, hc, if_true, Bool.false_eq_true,
      if_false, hsplit]
  | newline => rfl
  | symbol c =>
    obtain ⟨hc, hslash, -⟩ := h
    obtain ⟨hword, hblank, hnl, hhash, hquote⟩ := symbol_cases c hc
    have hcomment : ¬ (c = '/' ∧ l.head? = some '*') := by
      rintro ⟨h, hl⟩
      exact (hslash h '*' hl).2 rfl
    simp only [Token.text, List.singleton_append, next, hword, hblank, hnl, hhash, hquote,
      hcomment, Bool.false_eq_true, if_false]
  | comment w =>
    have := closeComment_append l h
    simp only [Token.text, List.cons_append, List.append_assoc, List.nil_append, next]
    simp [this, show isWord '/' = false by decide, show isBlank '/' = false by decide]
  | directive w =>
    obtain ⟨hw, hl⟩ := h
    have hsplit := takeWhile_dropWhile (p := fun c => c ≠ '\n') (w := w) (l := l)
      (fun c hc => by
        have : c ≠ '\n' := by
          rintro rfl
          exact hw hc
        simpa using this) fun c hc => by simpa using hl c hc
    simp only [Token.text, List.cons_append, next]
    simp only [ne_eq, decide_not] at hsplit
    simp [hsplit, show isWord '#' = false by decide, show isBlank '#' = false by decide]
  | string w =>
    have := closeString_append false l h
    simp only [Token.text, List.cons_append, List.append_assoc, List.nil_append, next]
    simp [this, show isWord '\x22' = false by decide, show isBlank '\x22' = false by decide]

theorem asInC_cLexer : AsInC cLexer := by
  intro ts hts
  refine tokens_spell ts (fun t ht => hts.text_ne_nil ht) ?_
  rintro t us ⟨a, rfl⟩
  have ht := (spelled_append.mp hts).2.1
  refine next_text ?_
  simpa [first] using ht

end Lexer

end Qmk.CLexer
