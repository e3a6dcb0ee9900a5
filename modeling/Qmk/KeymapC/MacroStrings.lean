import Mathlib.Data.List.Forall2
import Qmk.KeymapC.Macros

/-! # What the strings of macros mean

The fragments of a macro are written as string literals and calls of macros, and each pair of quotes
is removed from all of them together. A quote at the end of a string and the quote that closes the
literal are such a pair, so that a backslash is left in front of what comes next.
-/

namespace Qmk.KeymapC

open Text

/-- What the argument of `SEND_STRING` stands for: characters, keys and waits. -/
inductive Symbol
  | char (c : Char)
  | key (name : ActionName) (keycode : List Char)
  | delay (ms : ℕ)
  deriving DecidableEq

section Reader

/-- Where a reader is: between the tokens, in a literal, behind a backslash, or in a call. -/
inductive Reading
  | outside
  | literal
  | escape
  | call (text : List Char)

def escaped (c : Char) : Option Char :=
  match c with
  | '\\' | '"' | '\'' | '?' => some c
  | 'a' => some '\x07'
  | 'b' => some '\x08'
  | 'f' => some '\x0C'
  | 'n' => some '\n'
  | 'r' => some '\r'
  | 't' => some '\t'
  | 'v' => some '\x0B'
  | _ => none

def callSymbol (text : List Char) : Option Symbol :=
  if "SS_TAP(X_".toList <+: text then some (.key .tap (text.drop 9))
  else if "SS_DOWN(X_".toList <+: text then some (.key .down (text.drop 10))
  else if "SS_UP(X_".toList <+: text then some (.key .up (text.drop 8))
  else if "SS_DELAY(".toList <+: text ∧ (text.drop 9).all Char.isDigit then
    some (.delay (Nat.ofDigitChars 10 (text.drop 9) 0))
  else none

def isSpace (c : Char) : Bool := c == ' ' || c == '\t' || c == '\n'

/-- Literals next to each other are one, an octal or a hexadecimal escape sequence is not read. -/
def read : Reading → List Char → Option (List Symbol)
  | .outside, [] => some []
  | _, [] => none
  | .outside, c :: l =>
    if c = '"' then read .literal l
    else if isSpace c then read .outside l
    else read (.call [c]) l
  | .literal, c :: l =>
    if c = '"' then read .outside l
    else if c = '\\' then read .escape l
    else if c = '\n' then none
    else (read .literal l).map (.char c :: ·)
  | .escape, c :: l =>
    match escaped c with
    | none => none
    | some d => (read .literal l).map (.char d :: ·)
  | .call text, c :: l =>
    if c = ')' then
      match callSymbol text with
      | none => none
      | some symbol => (read .outside l).map (symbol :: ·)
    else read (.call (text ++ [c])) l

def readArgument (text : List Char) : Option (List Symbol) :=
  if text.all isSpace then none else read .outside text

end Reader

section Meaning

def normalize : List Char → List Char
  | '\r' :: '\n' :: l => '\n' :: normalize l
  | '\r' :: l => '\n' :: normalize l
  | c :: l => c :: normalize l
  | [] => []

def keysMeaning (name : ActionName) (keycodes : List (List Char)) : List Symbol :=
  if name = .tap ∧ 1 < keycodes.length then
    keycodes.dropLast.map (.key .down) ++ [.key .tap (keycodes.getLastD [])] ++
      keycodes.dropLast.reverse.map (.key .up)
  else keycodes.map (.key name)

def Fragment.meaning : Fragment → List Symbol
  | .text s => (normalize s).map .char
  | .action a =>
    match a.action with
    | none => []
    | some .delay => (a.duration.map fun ms => [Symbol.delay ms]).getD []
    | some .beep => [.char '\x07']
    | some name => keysMeaning name (a.keycodes.getD [])

/-- The keycodes of an object are names. -/
def Fragment.Named : Fragment → Prop
  | .text _ => True
  | .action a => ∀ keycodes ∈ a.keycodes, ∀ k ∈ keycodes, ∀ c ∈ k, CLexer.isWord c

def Fragment.IsString : Fragment → Prop
  | .text s => s ≠ []
  | .action a => a.action = some .beep

/-- An empty string or an object without keys. -/
def Fragment.Silent : Fragment → Prop
  | .text s => s = []
  | .action a => (a.action = some .down ∨ a.action = some .tap ∨ a.action = some .up) ∧
      a.keycodes = some []

def Fragment.EndsInQuote : Fragment → Prop
  | .text s => s.getLast? = some '"'
  | .action _ => False

def StringNext : List Fragment → Prop
  | [] => False
  | f :: fragments => f.IsString ∨ f.Silent ∧ StringNext fragments

/-- Behind a quote at the end of a string comes a string. -/
def QuotesFollowed : List Fragment → Prop
  | [] => True
  | f :: fragments => (f.EndsInQuote → StringNext fragments) ∧ QuotesFollowed fragments

/-- What is promised of a macro. -/
def Denotes (fragments : List Fragment) : Prop :=
  (macroArgument fragments).1.bind readArgument = some (fragments.flatMap Fragment.meaning)

end Meaning

section Escaping

def escapeChar (c : Char) : List Char :=
  if c = '\\' then ['\\', '\\']
  else if c = '\n' then ['\\', 'n']
  else if c = '\t' then ['\\', 't']
  else if c = '"' then ['\\', '"']
  else [c]

theorem replace_singleton (a : Char) (new l : List Char) :
    replace [a] new l = l.flatMap fun c => if c = a then new else [c] := by
  induction l with
  | nil => rfl
  | cons c l ih =>
    simp only [replace] at ih
    simp only [replace, replaceAfter, List.cons_prefix_cons, List.nil_prefix, and_true,
      List.length_singleton, Nat.sub_self, ih, List.flatMap_cons]
    by_cases h : a = c
    · simp [h]
    · simp [h, Ne.symm h]

theorem replace_crlf (new l : List Char) :
    replace ['\r', '\n'] new ('\r' :: '\n' :: l) = new ++ replace ['\r', '\n'] new l := by
  rw [replace, replaceAfter, if_pos (by simp)]
  rfl

theorem replace_crlf_cons {c : Char} {l : List Char} (h : c = '\r' → l.head? ≠ some '\n')
    (new : List Char) :
    replace ['\r', '\n'] new (c :: l) = c :: replace ['\r', '\n'] new l := by
  rw [replace, replaceAfter, if_neg]
  rintro ⟨t, ht⟩
  obtain ⟨rfl, rfl⟩ := List.cons.inj ht
  exact h rfl rfl

def doubleBackslash (c : Char) : List Char := if c = '\\' then ['\\', '\\'] else [c]

theorem head?_flatMap_doubleBackslash (l : List Char) :
    (l.flatMap doubleBackslash).head? = l.head? := by
  cases l with
  | nil => rfl
  | cons c l => by_cases h : c = '\\' <;> simp [doubleBackslash, h]

/-- What becomes of a character behind the first two replacements. -/
def escapeLater (c : Char) : List Char :=
  if c = '\r' then ['\\', 'n'] else if c = '\\' then ['\\'] else escapeChar c

theorem replace_singletons (l : List Char) :
    replace ['"'] ['\\', '"'] (replace ['\t'] ['\\', 't'] (replace ['\r'] ['\\', 'n']
      (replace ['\n'] ['\\', 'n'] l))) =
      l.flatMap escapeLater := by
  simp only [replace_singleton, List.flatMap_assoc]
  congr 1
  funext c
  by_cases hn : c = '\n'
  · simp [hn, escapeLater, escapeChar]
  by_cases hr : c = '\r'
  · simp [hr, escapeLater]
  by_cases ht : c = '\t'
  · simp [ht, escapeLater, escapeChar]
  by_cases hq : c = '"'
  · simp [hq, escapeLater, escapeChar]
  by_cases hb : c = '\\'
  · simp [hb, escapeLater]
  simp [hn, hr, ht, hq, hb, escapeLater, escapeChar]

theorem escapeText_eq (s : List Char) : escapeText s = (normalize s).flatMap escapeChar := by
  simp only [escapeText, replace_singletons]
  rw [replace_singleton, show (fun c => if c = '\\' then ['\\', '\\'] else [c]) =
    doubleBackslash from rfl]
  induction s using normalize.induct with
  | case1 l ih =>
    have hflat : ('\r' :: '\n' :: l).flatMap doubleBackslash =
        '\r' :: '\n' :: l.flatMap doubleBackslash := rfl
    rw [hflat, replace_crlf, List.flatMap_append, ih, normalize, List.flatMap_cons]
    rfl
  | case2 l hl ih =>
    have hflat : ('\r' :: l).flatMap doubleBackslash = '\r' :: l.flatMap doubleBackslash := rfl
    have hhead : (l.flatMap doubleBackslash).head? ≠ some '\n' := by
      rw [head?_flatMap_doubleBackslash]
      cases l with
      | nil => simp
      | cons c l => simpa using fun hc => hl l (by rw [hc])
    rw [hflat, replace_crlf_cons fun _ => hhead, List.flatMap_cons, ih, normalize.eq_2 l hl,
      List.flatMap_cons]
    rfl
  | case3 c l hc hl ih =>
    have hr : c ≠ '\r' := fun h => hl (by rw [h])
    rw [normalize.eq_3 c l hc hl, List.flatMap_cons, List.flatMap_cons, ← ih]
    by_cases hb : c = '\\'
    · subst hb
      have hflat (l : List Char) : doubleBackslash '\\' ++ l = '\\' :: '\\' :: l := rfl
      rw [hflat, replace_crlf_cons (by simp), replace_crlf_cons (by simp)]
      rfl
    · have hflat (l : List Char) : doubleBackslash c ++ l = c :: l := by
        simp [doubleBackslash, hb]
      rw [hflat, replace_crlf_cons fun h => absurd h hr, List.flatMap_cons]
      simp [escapeLater, hr, hb]
  | case4 => rfl

theorem normalize_eq_nil {s : List Char} : normalize s = [] ↔ s = [] := by
  cases s using normalize.fun_cases with
  | case1 l => simp [normalize]
  | case2 l hl => simp [normalize.eq_2 l hl]
  | case3 c l hc hl => simp [normalize.eq_3 c l hc hl]
  | case4 => simp [normalize]

theorem getLast?_normalize {s : List Char} :
    (normalize s).getLast? = some '"' ↔ s.getLast? = some '"' := by
  induction s using normalize.induct with
  | case1 l ih =>
    rw [normalize]
    cases l with
    | nil => decide
    | cons c l =>
      have hne : normalize (c :: l) ≠ [] := by simp [normalize_eq_nil]
      rw [List.getLast?_cons_of_ne_nil hne, ih]
      simp
  | case2 l hl ih =>
    rw [normalize.eq_2 l hl]
    cases l with
    | nil => decide
    | cons c l =>
      have hne : normalize (c :: l) ≠ [] := by simp [normalize_eq_nil]
      rw [List.getLast?_cons_of_ne_nil hne, ih]
      simp
  | case3 c l hc hl ih =>
    rw [normalize.eq_3 c l hc hl]
    cases l with
    | nil => simp [normalize]
    | cons d l =>
      have hne : normalize (d :: l) ≠ [] := by simp [normalize_eq_nil]
      rw [List.getLast?_cons_of_ne_nil hne, ih]
      simp
  | case4 => decide

end Escaping

section Quotes

def dropQuotes (l : List Char) : List Char := replace ['"', '"'] [] l

@[simp] theorem dropQuotes_nil : dropQuotes [] = [] := rfl

@[simp] theorem dropQuotes_pair (l : List Char) :
    dropQuotes ('"' :: '"' :: l) = dropQuotes l := by
  rw [dropQuotes, replace, replaceAfter, if_pos (by simp)]
  rfl

theorem dropQuotes_cons {c : Char} {l : List Char} (h : c = '"' → l.head? ≠ some '"') :
    dropQuotes (c :: l) = c :: dropQuotes l := by
  rw [dropQuotes, replace, replaceAfter, if_neg]
  · rfl
  rintro ⟨t, ht⟩
  obtain ⟨rfl, rfl⟩ := List.cons.inj ht
  exact h rfl rfl

theorem dropQuotes_append {t : List Char} (h : '"' ∉ t) (l : List Char) :
    dropQuotes (t ++ l) = t ++ dropQuotes l := by
  induction t with
  | nil => rfl
  | cons c t ih =>
    obtain ⟨hc, ht⟩ := not_or.mp (List.mem_cons.not.mp h)
    rw [List.cons_append, dropQuotes_cons fun h => absurd h.symm hc, ih ht, List.cons_append]

theorem read_escapeChar (c : Char) (l : List Char) :
    read .literal (escapeChar c ++ l) = (read .literal l).map (.char c :: ·) := by
  by_cases hb : c = '\\'
  · subst hb; rfl
  by_cases hn : c = '\n'
  · subst hn; rfl
  by_cases ht : c = '\t'
  · subst ht; rfl
  by_cases hq : c = '"'
  · subst hq; rfl
  simp [escapeChar, read, hb, hn, ht, hq]

theorem quote_notMem_escapeChar {c : Char} (h : c ≠ '"') : '"' ∉ escapeChar c := by
  by_cases hb : c = '\\'
  · subst hb; decide
  by_cases hn : c = '\n'
  · subst hn; decide
  by_cases ht : c = '\t'
  · subst ht; decide
  simpa [escapeChar, hb, hn, ht, h] using Ne.symm h

theorem head?_flatMap_escapeChar {w : List Char} (h : w ≠ []) (l : List Char) :
    (w.flatMap escapeChar ++ l).head? ≠ some '"' := by
  obtain ⟨c, w, rfl⟩ := List.exists_cons_of_ne_nil h
  by_cases hq : c = '"'
  · subst hq; simp [escapeChar]
  have hhead (t : List Char) : (escapeChar c ++ t).head? ≠ some '"' := by
    have hne : escapeChar c ≠ [] := by unfold escapeChar; split_ifs <;> simp
    obtain ⟨d, u, hd⟩ := List.exists_cons_of_ne_nil hne
    have hnot := quote_notMem_escapeChar hq
    rw [hd] at hnot ⊢
    simpa using fun hd : d = '"' => hnot (by simp [hd])
  rw [List.flatMap_cons, List.append_assoc]
  exact hhead _

/-- A quote at the end goes with the one that closes the literal. The induction is on the
characters, behind each of which the reader is in the literal still. -/
theorem read_literal (w l : List Char) :
    read .literal (dropQuotes (w.flatMap escapeChar ++ '"' :: l)) =
      if w.getLast? = some '"' then
        (read .escape (dropQuotes l)).map (w.dropLast.map Symbol.char ++ ·)
      else (read .literal (dropQuotes ('"' :: l))).map (w.map Symbol.char ++ ·) := by
  induction w with
  | nil => simp
  | cons c w ih =>
    by_cases hw : w = []
    · subst hw
      by_cases hc : c = '"'
      · subst hc
        have htext : ['"'].flatMap escapeChar ++ '"' :: l = '\\' :: '"' :: '"' :: l := rfl
        rw [htext, dropQuotes_cons (by simp), dropQuotes_pair]
        simp [read]
      · rw [List.flatMap_singleton, dropQuotes_append (quote_notMem_escapeChar hc),
          read_escapeChar]
        simp [hc]
    · have hlast : (c :: w).getLast? = w.getLast? := List.getLast?_cons_of_ne_nil hw
      have hread : read .literal (dropQuotes ((c :: w).flatMap escapeChar ++ '"' :: l)) =
          (read .literal (dropQuotes (w.flatMap escapeChar ++ '"' :: l))).map
            (.char c :: ·) := by
        rw [List.flatMap_cons, List.append_assoc]
        by_cases hc : c = '"'
        · subst hc
          have htext (t : List Char) : escapeChar '"' ++ t = '\\' :: '"' :: t := rfl
          rw [htext, dropQuotes_cons (by simp),
            dropQuotes_cons fun _ => head?_flatMap_escapeChar hw ('"' :: l)]
          rfl
        · rw [dropQuotes_append (quote_notMem_escapeChar hc), read_escapeChar]
      rw [hread, ih, hlast, List.dropLast_cons_of_ne_nil hw]
      split_ifs <;> simp [Function.comp_def]

end Quotes

section Fragments

/-- What a fragment writes: nothing that is left, a literal, or calls. -/
inductive Writes (f : Fragment) : List Char → Prop
  | silent (hsilent : f.Silent) (hstring : ¬ f.IsString) (hquote : ¬ f.EndsInQuote)
      (hmeaning : f.meaning = []) {t : List Char} (ht : t = [] ∨ t = ['"', '"']) : Writes f t
  | string (hsilent : ¬ f.Silent) (hstring : f.IsString) {u : List Char}
      (hhead : ∀ l, (u ++ '"' :: l).head? ≠ some '"')
      (hlast : f.EndsInQuote → ∃ pre, f.meaning = pre ++ [.char '"'] ∧
        ∀ l, read .literal (dropQuotes (u ++ '"' :: l)) =
          (read .escape (dropQuotes l)).map (pre ++ ·))
      (hclosed : ¬ f.EndsInQuote → ∀ l, read .literal (dropQuotes (u ++ '"' :: l)) =
        (read .literal (dropQuotes ('"' :: l))).map (f.meaning ++ ·)) :
      Writes f ('"' :: (u ++ ['"']))
  | calls (hsilent : ¬ f.Silent) (hstring : ¬ f.IsString) (hquote : ¬ f.EndsInQuote)
      {u : List Char} (hu : '"' ∉ u)
      (hread : ∀ l, read .outside ('S' :: (u ++ l)) = (read .outside l).map (f.meaning ++ ·)) :
      Writes f ('S' :: u)

variable {fragments : List Fragment} {texts : List (List Char)}

theorem read_escape (h : List.Forall₂ Writes fragments texts) (hnext : StringNext fragments) :
    read .escape (dropQuotes texts.flatten) =
      (read .outside (dropQuotes texts.flatten)).map (.char '"' :: ·) := by
  induction h with
  | nil => exact hnext.elim
  | @cons f t fragments texts hf _ ih =>
    rw [List.flatten_cons]
    cases hf with
    | silent hsilent hstring hquote hmeaning ht =>
      have hfragments := (hnext.resolve_left hstring).2
      rcases ht with rfl | rfl
      · exact ih hfragments
      · exact ih hfragments
    | string hsilent hstring hhead hlast hclosed =>
      rw [List.cons_append, List.append_assoc, List.singleton_append,
        dropQuotes_cons fun _ => hhead _]
      rfl
    | calls hsilent hstring hquote hu hread => exact absurd hnext (by simp [StringNext, *])

theorem read_escape_none (h : List.Forall₂ Writes fragments texts)
    (hnext : ¬ StringNext fragments) : read .escape (dropQuotes texts.flatten) = none := by
  induction h with
  | nil => rfl
  | @cons f t fragments texts hf _ ih =>
    rw [List.flatten_cons]
    cases hf with
    | silent hsilent hstring hquote hmeaning ht =>
      have hfragments : ¬ StringNext fragments := fun h => hnext (.inr ⟨hsilent, h⟩)
      rcases ht with rfl | rfl
      · exact ih hfragments
      · exact ih hfragments
    | string hsilent hstring hhead hlast hclosed => exact absurd (.inl hstring) hnext
    | calls hsilent hstring hquote hu hread =>
      rw [List.cons_append, dropQuotes_cons (by simp)]
      rfl

theorem read_close (h : List.Forall₂ Writes fragments texts) :
    read .literal (dropQuotes ('"' :: texts.flatten)) =
      read .outside (dropQuotes texts.flatten) := by
  induction h with
  | nil => rfl
  | @cons f t fragments texts hf _ ih =>
    rw [List.flatten_cons]
    cases hf with
    | silent hsilent hstring hquote hmeaning ht =>
      rcases ht with rfl | rfl
      · exact ih
      · simpa using ih
    | string hsilent hstring hhead hlast hclosed =>
      rw [List.cons_append, List.append_assoc, List.singleton_append, dropQuotes_pair,
        dropQuotes_cons fun _ => hhead _]
      rfl
    | calls hsilent hstring hquote hu hread =>
      rw [List.cons_append, dropQuotes_cons (by simp), dropQuotes_cons (by simp)]
      rfl

theorem read_outside (h : List.Forall₂ Writes fragments texts)
    (hquotes : QuotesFollowed fragments) :
    read .outside (dropQuotes texts.flatten) =
      some (fragments.flatMap Fragment.meaning) := by
  induction h with
  | nil => rfl
  | @cons f t fragments texts hf hfs ih =>
    have hrest := ih hquotes.2
    rw [List.flatten_cons, List.flatMap_cons]
    cases hf with
    | silent hsilent hstring hquote hmeaning ht =>
      rw [hmeaning]
      rcases ht with rfl | rfl
      · exact hrest
      · exact hrest
    | @string hsilent hstring u hhead hlast hclosed =>
      have hopen : read .outside (dropQuotes ('"' :: (u ++ ['"']) ++ texts.flatten)) =
          read .literal (dropQuotes (u ++ '"' :: texts.flatten)) := by
        rw [List.cons_append, List.append_assoc, List.singleton_append,
          dropQuotes_cons fun _ => hhead _]
        rfl
      rw [hopen]
      by_cases hquote : f.EndsInQuote
      · obtain ⟨pre, hmeaning, hread⟩ := hlast hquote
        rw [hread, read_escape hfs (hquotes.1 hquote), hrest, hmeaning]
        simp
      · rw [hclosed hquote, read_close hfs, hrest]
        rfl
    | calls hsilent hstring hquote hu hread =>
      rw [List.cons_append, dropQuotes_cons (by simp), dropQuotes_append hu, hread, hrest]
      rfl

theorem read_outside_none (h : List.Forall₂ Writes fragments texts)
    (hquotes : ¬ QuotesFollowed fragments) : read .outside (dropQuotes texts.flatten) = none := by
  induction h with
  | nil => exact absurd trivial hquotes
  | @cons f t fragments texts hf hfs ih =>
    rw [List.flatten_cons]
    cases hf with
    | silent hsilent hstring hquote hmeaning ht =>
      have hrest := ih fun h => hquotes ⟨fun h => absurd h hquote, h⟩
      rcases ht with rfl | rfl
      · exact hrest
      · exact hrest
    | @string hsilent hstring u hhead hlast hclosed =>
      have hopen : read .outside (dropQuotes ('"' :: (u ++ ['"']) ++ texts.flatten)) =
          read .literal (dropQuotes (u ++ '"' :: texts.flatten)) := by
        rw [List.cons_append, List.append_assoc, List.singleton_append,
          dropQuotes_cons fun _ => hhead _]
        rfl
      rw [hopen]
      by_cases hquote : f.EndsInQuote
      · obtain ⟨pre, -, hread⟩ := hlast hquote
        rw [hread]
        by_cases hnext : StringNext fragments
        · rw [read_escape hfs hnext, ih fun h => hquotes ⟨fun _ => hnext, h⟩]
          rfl
        · rw [read_escape_none hfs hnext]
          rfl
      · rw [hclosed hquote, read_close hfs, ih fun h => hquotes ⟨fun h => absurd h hquote, h⟩]
        rfl
    | calls hsilent hstring hquote hu hread =>
      rw [List.cons_append, dropQuotes_cons (by simp), dropQuotes_append hu, hread,
        ih fun h => hquotes ⟨fun h => absurd h hquote, h⟩]
      rfl

/-- Silent fragments leave no text, another one leaves a token. -/
theorem all_isSpace_iff (h : List.Forall₂ Writes fragments texts) :
    (dropQuotes texts.flatten).all isSpace ↔ ∀ f ∈ fragments, f.Silent := by
  induction h with
  | nil => simp
  | @cons f t fragments texts hf _ ih =>
    rw [List.flatten_cons, List.forall_mem_cons]
    cases hf with
    | silent hsilent hstring hquote hmeaning ht =>
      rw [← ih, and_iff_right hsilent]
      rcases ht with rfl | rfl
      · rfl
      · rfl
    | string hsilent hstring hhead hlast hclosed =>
      rw [List.cons_append, List.append_assoc, List.singleton_append,
        dropQuotes_cons fun _ => hhead _]
      exact iff_of_false (by simp [isSpace]) fun h => hsilent h.1
    | calls hsilent hstring hquote hu hread =>
      rw [List.cons_append, dropQuotes_cons (by simp)]
      exact iff_of_false (by simp [isSpace]) fun h => hsilent h.1

theorem read_call {text : List Char} (l : List Char) (h : ')' ∉ text) (soFar : List Char) :
    read (.call soFar) (text ++ ')' :: l) =
      (callSymbol (soFar ++ text)).bind fun symbol => (read .outside l).map (symbol :: ·) := by
  induction text generalizing soFar with
  | nil =>
    rw [List.nil_append, List.append_nil, read, if_pos rfl]
    cases callSymbol soFar <;> rfl
  | cons c text ih =>
    obtain ⟨hc, htext⟩ := not_or.mp (List.mem_cons.not.mp h)
    rw [List.cons_append, read, if_neg (Ne.symm hc), ih htext, List.append_assoc]
    rfl

theorem read_call_outside {text : List Char} {symbol : Symbol} (h : ')' ∉ text)
    (hsymbol : callSymbol ('S' :: text) = some symbol) (l : List Char) :
    read .outside ('S' :: (text ++ ')' :: l)) = (read .outside l).map (symbol :: ·) := by
  have hopen : read .outside ('S' :: (text ++ ')' :: l)) = read (.call ['S']) (text ++ ')' :: l) :=
    rfl
  rw [hopen, read_call l h, List.singleton_append, hsymbol, Option.bind_some]

structure Spells (text : List Char) (symbols : List Symbol) : Prop where
  noQuote : '"' ∉ text
  begins : text = [] ∨ ∃ u, text = 'S' :: u
  reads : ∀ l, read .outside (text ++ l) = (read .outside l).map (symbols ++ ·)

theorem Spells.append {t u : List Char} {xs ys : List Symbol} (ht : Spells t xs)
    (hu : Spells u ys) : Spells (t ++ u) (xs ++ ys) := by
  refine ⟨by simp [ht.noQuote, hu.noQuote], ?_, fun l => ?_⟩
  · rcases ht.begins with rfl | ⟨v, rfl⟩
    · exact hu.begins
    · exact .inr ⟨_, rfl⟩
  · rw [List.append_assoc, ht.reads, hu.reads, Option.map_map]
    simp [Function.comp_def]

theorem spells_keyText {name : ActionName} (hname : name = .tap ∨ name = .down ∨ name = .up)
    {keycode : List Char} (h : ∀ c ∈ keycode, CLexer.isWord c) :
    Spells (keyText name keycode) [.key name keycode] := by
  have hparen : ')' ∉ keycode := fun hc => absurd (h _ hc) (by decide)
  have hquote : '"' ∉ keycode := fun hc => absurd (h _ hc) (by decide)
  refine ⟨?_, .inr ⟨_, rfl⟩, fun l => ?_⟩
  · have hfront : '"' ∉ "SS_".toList ++ name.upper ++ "(X_".toList := by
      rcases hname with rfl | rfl | rfl <;> decide
    exact List.not_mem_append (List.not_mem_append hfront hquote) (by decide)
  have htext : keyText name keycode ++ l =
      'S' :: (("S_".toList ++ name.upper ++ "(X_".toList ++ keycode) ++ ')' :: l) := by
    simp [keyText]
  rw [htext]
  refine read_call_outside ?_ ?_ l
  · rcases hname with rfl | rfl | rfl <;> simp [ActionName.upper, hparen]
  · rcases hname with rfl | rfl | rfl <;> simp [callSymbol, ActionName.upper]

theorem spells_keys {name : ActionName} (hname : name = .tap ∨ name = .down ∨ name = .up)
    {keycodes : List (List Char)} (h : ∀ k ∈ keycodes, ∀ c ∈ k, CLexer.isWord c) :
    Spells (keycodes.flatMap (keyText name)) (keycodes.map (.key name)) := by
  induction keycodes with
  | nil => exact ⟨by simp, .inl rfl, fun l => by simp⟩
  | cons k keycodes ih =>
    obtain ⟨hk, hkeycodes⟩ := List.forall_mem_cons.mp h
    exact (spells_keyText hname hk).append (ih hkeycodes)

theorem spells_keysText {name : ActionName} (hname : name = .tap ∨ name = .down ∨ name = .up)
    {keycodes : List (List Char)} (h : ∀ k ∈ keycodes, ∀ c ∈ k, CLexer.isWord c) :
    Spells (keysText name keycodes).1 (keysMeaning name keycodes) := by
  rw [keysText, keysMeaning]
  split_ifs with hseveral
  · have hinit : ∀ k ∈ keycodes.dropLast, ∀ c ∈ k, CLexer.isWord c := fun k hk =>
      h k (List.mem_of_mem_dropLast hk)
    have hlast : ∀ c ∈ keycodes.getLastD [], CLexer.isWord c := by
      intro c hc
      rw [List.getLastD_eq_getLast?] at hc
      cases hk : keycodes.getLast? with
      | none => simp [hk] at hc
      | some k => exact h k (List.mem_of_getLast? hk) c (by simpa [hk] using hc)
    exact ((spells_keys (.inr (.inl rfl)) hinit).append (spells_keyText (.inl rfl) hlast)).append
      (spells_keys (.inr (.inr rfl)) fun k hk => hinit k (List.mem_reverse.mp hk))
  · exact spells_keys hname h

theorem writes_text (s : List Char) : Writes (.text s) ('"' :: (escapeText s ++ ['"'])) := by
  by_cases hs : s = []
  · subst hs
    have hstring : ¬ (Fragment.text []).IsString := fun h => h rfl
    exact .silent (f := .text []) rfl hstring (by simp [Fragment.EndsInQuote]) rfl (.inr rfl)
  have hw : normalize s ≠ [] := normalize_eq_nil.not.mpr hs
  rw [escapeText_eq]
  refine .string (f := .text s) hs hs (fun l => head?_flatMap_escapeChar hw _)
    (fun hquote => ?_) (fun hquote l => ?_)
  · have hlast := getLast?_normalize.mpr hquote
    refine ⟨(normalize s).dropLast.map .char, ?_, fun l => ?_⟩
    · have hsplit := List.dropLast_append_getLast? '"' hlast
      conv_lhs => rw [Fragment.meaning, ← hsplit]
      simp
    · rw [read_literal, if_pos hlast]
  · rw [read_literal, if_neg (getLast?_normalize.not.mpr hquote)]
    rfl

theorem writes_keys {a : Action} {name : ActionName} {keycodes : List (List Char)}
    (hname : name = .tap ∨ name = .down ∨ name = .up) (haction : a.action = some name)
    (hkeycodes : a.keycodes = some keycodes)
    (hnamed : ∀ k ∈ keycodes, ∀ c ∈ k, CLexer.isWord c) :
    Writes (.action a) (keysText name keycodes).1 := by
  have hstring : ¬ (Fragment.action a).IsString := by
    rcases hname with rfl | rfl | rfl <;> simp [Fragment.IsString, haction]
  have hmeaning : (Fragment.action a).meaning = keysMeaning name keycodes := by
    rcases hname with rfl | rfl | rfl <;> simp [Fragment.meaning, haction, hkeycodes]
  have hspells := spells_keysText hname hnamed
  by_cases hempty : keycodes = []
  · subst hempty
    have htext : (keysText name []).1 = [] := by simp [keysText]
    have hnone : keysMeaning name [] = [] := by simp [keysMeaning]
    rw [htext]
    have hsilent : (Fragment.action a).Silent := by
      refine ⟨?_, hkeycodes⟩
      rcases hname with rfl | rfl | rfl
      · exact .inr (.inl haction)
      · exact .inl haction
      · exact .inr (.inr haction)
    exact .silent hsilent hstring id (by rw [hmeaning, hnone]) (.inl rfl)
  have hsilent : ¬ (Fragment.action a).Silent := fun h =>
    hempty (Option.some.inj (hkeycodes.symm.trans h.2))
  have hne : (keysText name keycodes).1 ≠ [] := by
    obtain ⟨k, keycodes, rfl⟩ := List.exists_cons_of_ne_nil hempty
    rw [keysText]
    split_ifs <;> simp [keyText]
  obtain ⟨u, hu⟩ := hspells.begins.resolve_left hne
  have hnoQuote := hspells.noQuote
  have hreads := hspells.reads
  rw [hu] at hnoQuote hreads ⊢
  refine .calls hsilent hstring id (fun h => hnoQuote (List.mem_cons_of_mem _ h)) fun l => ?_
  rw [hmeaning]
  exact hreads l

theorem writes_delay {a : Action} {ms : ℕ} (haction : a.action = some .delay)
    (hduration : a.duration = some ms) :
    Writes (.action a) ("SS_DELAY(".toList ++ Nat.toDigits 10 ms ++ [')']) := by
  have hdigits : ∀ c ∈ Nat.toDigits 10 ms, c.isDigit := fun c hc =>
    Nat.isDigit_of_mem_toDigits (by decide) (by decide) hc
  have hparen : ')' ∉ Nat.toDigits 10 ms := fun hc => absurd (hdigits _ hc) (by decide)
  have hquote : '"' ∉ Nat.toDigits 10 ms := fun hc => absurd (hdigits _ hc) (by decide)
  have hmeaning : (Fragment.action a).meaning = [.delay ms] := by
    simp [Fragment.meaning, haction, hduration]
  refine .calls (by simp [Fragment.Silent, haction]) (by simp [Fragment.IsString, haction]) id
    (u := "S_DELAY(".toList ++ Nat.toDigits 10 ms ++ [')']) (by simp [hquote]) fun l => ?_
  have hread := @read_call_outside ("S_DELAY(".toList ++ Nat.toDigits 10 ms) (.delay ms)
    (by simp [hparen])
    (by simpa [callSymbol, Nat.ofDigitChars_ten_toDigits] using hdigits) l
  rw [hmeaning]
  simpa using hread

theorem writes_beep {a : Action} (haction : a.action = some .beep) :
    Writes (.action a) ['"', '\\', 'a', '"'] := by
  have hmeaning : (Fragment.action a).meaning = [.char '\x07'] := by
    simp [Fragment.meaning, haction]
  refine .string (f := .action a) (u := ['\\', 'a']) (by simp [Fragment.Silent, haction])
    haction (fun l => by simp) False.elim fun _ l => ?_
  have htext : dropQuotes (['\\', 'a'] ++ '"' :: l) = '\\' :: 'a' :: dropQuotes ('"' :: l) :=
    dropQuotes_append (t := ['\\', 'a']) (by decide) _
  rw [htext, hmeaning]
  rfl

theorem exists_writes {f : Fragment} (hcomplete : f.Complete) (hnamed : f.Named) :
    ∃ t, (fragmentText f).1 = some t ∧ Writes f t := by
  cases f with
  | text s => exact ⟨_, rfl, writes_text s⟩
  | action a =>
    obtain ⟨action, keycodes, duration⟩ := a
    have hkeys {name : ActionName} (hname : name = .tap ∨ name = .down ∨ name = .up)
        (haction : action = some name) (hkeycodes : keycodes.isSome) :
        ∃ t, (fragmentText (.action ⟨action, keycodes, duration⟩)).1 = some t ∧
          Writes (.action ⟨action, keycodes, duration⟩) t := by
      obtain ⟨keycodes, rfl⟩ := Option.isSome_iff_exists.mp hkeycodes
      subst haction
      refine ⟨(keysText name keycodes).1, ?_, writes_keys hname rfl rfl (hnamed _ rfl)⟩
      rcases hname with rfl | rfl | rfl <;> rfl
    rcases action with _ | _ | _ | _ | _ | _
    · exact hcomplete.elim
    · exact ⟨_, rfl, writes_beep rfl⟩
    · obtain ⟨ms, rfl⟩ := Option.isSome_iff_exists.mp hcomplete
      exact ⟨_, rfl, writes_delay rfl rfl⟩
    · exact hkeys (.inr (.inl rfl)) rfl hcomplete
    · exact hkeys (.inl rfl) rfl hcomplete
    · exact hkeys (.inr (.inr rfl)) rfl hcomplete

/-- The text of a macro has its meaning just if there is something to read, and if a string comes
next behind each string that ends in a quote. -/
theorem denotes_iff {fragments : List Fragment} (hcomplete : ∀ f ∈ fragments, f.Complete)
    (hnamed : ∀ f ∈ fragments, f.Named) :
    Denotes fragments ↔ (∃ f ∈ fragments, ¬ f.Silent) ∧ QuotesFollowed fragments := by
  obtain ⟨texts, htexts⟩ : ∃ texts, List.Forall₂
      (fun f t => (fragmentText f).1 = some t ∧ Writes f t) fragments texts := by
    induction fragments with
    | nil => exact ⟨[], .nil⟩
    | cons f fragments ih =>
      rw [List.forall_mem_cons] at hcomplete hnamed
      obtain ⟨t, ht⟩ := exists_writes hcomplete.1 hnamed.1
      obtain ⟨texts, htexts⟩ := ih hcomplete.2 hnamed.2
      exact ⟨t :: texts, .cons ht htexts⟩
  have hsome := forEach_eq_some (htexts.imp fun _ _ h => h.1)
  have hwrites := htexts.imp fun _ _ h => h.2
  have hargument : (macroArgument fragments).1 = some (dropQuotes texts.flatten) := by
    rw [macroArgument, hsome]
    rfl
  rw [Denotes, hargument, Option.bind_some, readArgument]
  by_cases hsilent : ∀ f ∈ fragments, f.Silent
  · rw [if_pos ((all_isSpace_iff hwrites).mpr hsilent)]
    exact iff_of_false (by simp) fun h => h.1.elim fun f hf => hf.2 (hsilent f hf.1)
  rw [if_neg ((all_isSpace_iff hwrites).not.mpr hsilent)]
  have hexists : ∃ f ∈ fragments, ¬ f.Silent := by simpa using hsilent
  by_cases hquotes : QuotesFollowed fragments
  · exact iff_of_true (read_outside hwrites hquotes) ⟨hexists, hquotes⟩
  · rw [read_outside_none hwrites hquotes]
    exact iff_of_false (by simp) fun h => hquotes h.2

/-- A quoted word in front of another string. -/
theorem denotes_quoted :
    Denotes [.text "\"a\"".toList, .text "b".toList] ↔
      (∃ f ∈ [Fragment.text "\"a\"".toList, .text "b".toList], ¬ f.Silent) ∧
        QuotesFollowed [.text "\"a\"".toList, .text "b".toList] :=
  denotes_iff (by simp [Fragment.Complete]) (by simp [Fragment.Named])

/-- A quoted word in front of a tap of `ENT`: the backslash is left in front of `SS_TAP`. -/
theorem quoted_enter : ¬ Denotes [.text "\"a\"".toList,
    .action { action := some .tap, keycodes := some ["ENT".toList] }] := by
  rw [Denotes]
  decide

end Fragments

end Qmk.KeymapC
