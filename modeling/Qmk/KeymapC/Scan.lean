import Mathlib.Data.List.ModifyLast
import Mathlib.Tactic.IntervalCases
import Qmk.KeymapC

/-! # Scanning keymaps

The scanner on the tokens of a keymaps array: outside of the array, between the layers, in a layer,
and in a call. A literal in a layer leaves nothing behind.
-/

namespace Qmk.KeymapC

open Text CLexer

namespace Scan

variable {lexicon : Lexicon} {ls : List Layer} {name layout : List Char} {kcs : List (List Char)}

section Steps

@[simp] theorem run_nil (s : Scan) : run lexicon.wordKind [] s = some s := rfl

@[simp] theorem run_cons (t : Token) (ts : List Token) (s : Scan) :
    run lexicon.wordKind (t :: ts) s =
      (step (t.kind lexicon.wordKind) t.text s).bind (run lexicon.wordKind ts) := rfl

theorem run_append (ts us : List Token) (s : Scan) :
    run lexicon.wordKind (ts ++ us) s =
      (run lexicon.wordKind ts s).bind (run lexicon.wordKind us) := by
  rw [run, List.foldlM_append]
  rfl

theorem mem_openingBraces {t : Token} (h : t.kind lexicon.wordKind = .punctuation) :
    t.text ∈ openingBraces ↔ t ∈ openings := by
  cases t with
  | word w => exact absurd h (lexicon.punctuation w)
  | symbol c => simp [Token.text, openingBraces, openings]
  | blanks | newline | comment | directive | string => cases h

theorem mem_closingBraces {t : Token} (h : t.kind lexicon.wordKind = .punctuation) :
    t.text ∈ closingBraces ↔ t ∈ closings := by
  cases t with
  | word w => exact absurd h (lexicon.punctuation w)
  | symbol c => simp [Token.text, closingBraces, closings]
  | blanks | newline | comment | directive | string => cases h

theorem kind_opening {t : Token} (h : t ∈ openings) :
    t.kind lexicon.wordKind = .punctuation ∧ t ∉ closings := by
  simp only [openings, List.mem_cons, List.not_mem_nil, or_false] at h
  rcases h with rfl | rfl | rfl <;> exact ⟨rfl, by decide⟩

theorem kind_closing {t : Token} (h : t ∈ closings) :
    t.kind lexicon.wordKind = .punctuation ∧ t ∉ openings := by
  simp only [closings, List.mem_cons, List.not_mem_nil, or_false] at h
  rcases h with rfl | rfl | rfl <;> exact ⟨rfl, by decide⟩

theorem eq_word_of_kind {t : Token} (h : t.kind lexicon.wordKind = .name) : ∃ w, t = .word w := by
  cases t with
  | word w => exact ⟨w, rfl⟩
  | symbol c =>
    simp only [Token.kind] at h
    split_ifs at h
  | blanks | newline | comment | directive | string => cases h

end Steps

section Outside

def outside (ls : List Layer) (certainty : ℕ) (depth : ℤ) : Scan where
  layers := ls
  keymapCertainty := certainty
  braceDepth := depth

theorem depth_of_kind {t : Token} (h : t.kind lexicon.wordKind ≠ .punctuation) :
    depth [t] = 0 := by
  have ho : t ∉ openings := fun ht => h (kind_opening ht).1
  have hc : t ∉ closings := fun ht => h (kind_closing ht).1
  simp [depth, ho, hc]

theorem step_outside (lexicon : Lexicon) (ls : List Layer) {t : Token}
    (ht : t ≠ .word "keymaps".toList) {c : ℕ} (hc : c ≤ 3) (d : ℤ) :
    ∃ c' ≤ 3, step (t.kind lexicon.wordKind) t.text (outside ls c d) =
      some (outside ls c' (d + depth [t])) := by
  cases hk : t.kind lexicon.wordKind with
  | name =>
    obtain ⟨w, rfl⟩ := eq_word_of_kind hk
    have hw : w ≠ "keymaps".toList := fun h => ht (h ▸ rfl)
    rw [depth_of_kind (by rw [hk]; decide), add_zero]
    suffices h : ∃ c' ≤ 3, otherName w (outside ls c d) = outside ls c' d by
      obtain ⟨c', hc', h⟩ := h
      exact ⟨c', hc', congrArg some h⟩
    unfold otherName
    split
    · exact ⟨3, le_rfl, rfl⟩
    split
    next h => exact absurd h.1 hw
    split
    next h =>
      have : c = 4 := h.2
      omega
    split
    next h =>
      have : c = 5 := h.2
      omega
    · exact ⟨c, hc, rfl⟩
  | keyword =>
    rw [depth_of_kind (by rw [hk]; decide), add_zero, step]
    split
    · exact ⟨1, by omega, rfl⟩
    · exact ⟨c, hc, rfl⟩
  | keywordType =>
    rw [depth_of_kind (by rw [hk]; decide), add_zero, step]
    split
    · exact ⟨2, by omega, rfl⟩
    · exact ⟨c, hc, rfl⟩
  | punctuation =>
    refine ⟨c, hc, ?_⟩
    have h6 : ¬ c = 6 := by omega
    simp only [step, mem_openingBraces hk, mem_closingBraces hk, depth, add_zero]
    split_ifs with ho hcl
    · simp [opening, outside, h6]
    · simp [closing, outside, sub_eq_add_neg]
    · simp [rest, outside]
  | integer | other =>
    rw [depth_of_kind (by rw [hk]; decide), add_zero]
    exact ⟨c, hc, rfl⟩

theorem depth_cons (t : Token) (ts : List Token) : depth (t :: ts) = depth [t] + depth ts := by
  simp [depth]

/-- Code that does not use the name of the array counts its braces and leaves the layers. -/
theorem run_outside (lexicon : Lexicon) (ls : List Layer) {ts : List Token}
    (hts : .word "keymaps".toList ∉ ts) {c : ℕ} (hc : c ≤ 3)
    (d : ℤ) : ∃ c' ≤ 3, run lexicon.wordKind ts (outside ls c d) =
      some (outside ls c' (d + depth ts)) := by
  induction ts generalizing c d with
  | nil => exact ⟨c, hc, by simp [depth]⟩
  | cons t ts ih =>
    simp only [List.mem_cons, not_or] at hts
    obtain ⟨c₁, hc₁, hstep⟩ := step_outside lexicon ls (Ne.symm hts.1) hc d
    obtain ⟨c₂, hc₂, hrun⟩ := ih hts.2 hc₁ (d + depth [t])
    refine ⟨c₂, hc₂, ?_⟩
    rw [run_cons, hstep, Option.bind_some, hrun, depth_cons t ts, add_assoc]

end Outside

section Array

def inArray (ls : List Layer) : Scan where
  layers := ls
  keymapCertainty := 6
  braceDepth := 1
  isKeymap := true

theorem step_const (lexicon : Lexicon) (ls : List Layer) {c : ℕ} (hc : c ≤ 3) (d : ℤ) :
    ∃ c' ≤ 3, 1 ≤ c' ∧ step (lexicon.wordKind "const".toList) "const".toList (outside ls c d) =
      some (outside ls c' d) := by
  rw [lexicon.const, step]
  rcases Nat.eq_zero_or_pos c with rfl | hpos
  · exact ⟨1, by decide, le_rfl, by rw [if_pos ⟨rfl, rfl⟩]; rfl⟩
  · refine ⟨c, hc, hpos, ?_⟩
    rw [if_neg fun h => hpos.ne' h.2]

theorem step_uint16 (lexicon : Lexicon) (ls : List Layer) {c : ℕ} (hc : c ≤ 3) (hc' : 1 ≤ c)
    (d : ℤ) :
    ∃ c' ≤ 3, 2 ≤ c' ∧ step (lexicon.wordKind "uint16_t".toList) "uint16_t".toList
      (outside ls c d) = some (outside ls c' d) := by
  rw [lexicon.uint16, step]
  rcases hc'.eq_or_lt with rfl | hlt
  · exact ⟨2, by decide, le_rfl, by rw [if_pos ⟨rfl, rfl⟩]; rfl⟩
  · refine ⟨c, hc, hlt, ?_⟩
    rw [if_neg fun h => hlt.ne' h.2]

theorem step_name (ls : List Layer) {w : List Char} (hw : lexicon.wordKind w = .name) (c : ℕ)
    (d : ℤ) :
    step (lexicon.wordKind w) w (outside ls c d) = some (otherName w (outside ls c d)) := by
  rw [hw]
  rfl

theorem otherName_progmem {c : ℕ} (hc : c ≤ 3) (hc' : 2 ≤ c) (d : ℤ) :
    otherName "PROGMEM".toList (outside ls c d) = outside ls 3 d := by
  interval_cases c <;> simp [otherName, outside]

theorem otherName_keymaps (d : ℤ) :
    otherName "keymaps".toList (outside ls 3 d) = outside ls 4 d := by
  simp [otherName, outside]

theorem otherName_rows (d : ℤ) :
    otherName "MATRIX_ROWS".toList (outside ls 4 d) = outside ls 5 d := by
  simp [otherName, outside]

theorem otherName_cols (d : ℤ) :
    otherName "MATRIX_COLS".toList (outside ls 5 d) = outside ls 6 d := by
  simp [otherName, outside]

theorem run_word (w : List Char) (ts : List Token) (s : Scan) :
    run lexicon.wordKind (.word w :: ts) s =
      (step (lexicon.wordKind w) w s).bind (run lexicon.wordKind ts) := rfl

theorem run_blanks (w : List Char) (ts : List Token) (c : ℕ) (d : ℤ) :
    run lexicon.wordKind (.blanks w :: ts) (outside ls c d) =
      run lexicon.wordKind ts (outside ls c d) := rfl

theorem run_opening (ts : List Token) (c : ℕ) (d : ℤ) :
    run lexicon.wordKind (.symbol '[' :: ts) (outside ls c d) =
      run lexicon.wordKind ts (outside ls c (d + 1)) := rfl

theorem run_closing (ts : List Token) (c : ℕ) (d : ℤ) :
    run lexicon.wordKind (.symbol ']' :: ts) (outside ls c d) =
      run lexicon.wordKind ts (outside ls c (d - 1)) := rfl

theorem run_signature {c : ℕ} (hc : c ≤ 3) :
    run lexicon.wordKind signature (outside ls c 0) = some (inArray ls) := by
  obtain ⟨c₁, hc₁, hpos₁, hconst⟩ := step_const lexicon ls hc 0
  obtain ⟨c₂, hc₂, hpos₂, huint⟩ := step_uint16 lexicon ls hc₁ hpos₁ 0
  have hname (w) (hw : w ∈ ["PROGMEM".toList, "keymaps".toList, "MATRIX_ROWS".toList,
      "MATRIX_COLS".toList]) (c : ℕ) (d : ℤ) :=
    step_name ls (lexicon.names w hw) c d
  rw [signature, run_word, hconst, Option.bind_some, run_blanks, run_word, huint,
    Option.bind_some, run_blanks, run_word, hname _ (by simp), Option.bind_some,
    otherName_progmem hc₂ hpos₂, run_blanks, run_word, hname _ (by simp), Option.bind_some,
    otherName_keymaps, run_opening, run_closing, run_opening, run_word, hname _ (by simp),
    Option.bind_some, otherName_rows, run_closing, run_opening, run_word, hname _ (by simp),
    Option.bind_some, otherName_cols, run_closing, run_blanks]
  rfl

def inLayer (ls : List Layer) (name layout : List Char) (kcs : List (List Char)) : Scan where
  layers := ls
  keymapCertainty := 6
  braceDepth := 2
  isKeymap := true
  isLayer := true
  layer := ⟨some name, some layout, kcs⟩

/-- In a call, behind the text `k`, with `d` braces open between its parentheses. -/
def inCall (ls : List Layer) (name layout : List Char) (kcs : List (List Char)) (k : List Char)
    (d : ℕ) : Scan where
  layers := ls
  keymapCertainty := 6
  braceDepth := 3 + d
  isKeymap := true
  isLayer := true
  isAdvKc := true
  layer := ⟨some name, some layout, kcs ++ [k]⟩

def addition (lexicon : Lexicon) (t : Token) : List Char :=
  if t.kind lexicon.wordKind = .name then unalias t.text else t.text

theorem not_missing {w : List Char} (h : w ≠ []) : missing (some w) = false := by
  simpa [missing] using h

theorem extend_concat {s : Scan} {k : List Char} (h : s.layer.keycodes = kcs ++ [k])
    (text : List Char) :
    s.extend text = some { s with layer := { s.layer with keycodes := kcs ++ [k ++ text] } } := by
  unfold extend
  split
  next hnil => simp [h] at hnil
  next => rw [h, List.modifyLast_concat]

theorem opening_layer {s : Scan} (hk : s.isKeymap = true) (hl : s.isLayer = true)
    (text : List Char) : opening text s = Scan.extend text { s with isAdvKc := true } := by
  rw [opening, if_pos hk, if_pos hl]

theorem closing_call {s : Scan} (hk : s.isKeymap = true) (ha : s.isAdvKc = true)
    (text : List Char) : closing text s =
      (s.extend text).map fun s => if s.braceDepth = 2 then { s with isAdvKc := false } else s := by
  rw [closing, if_pos hk, if_pos ha]

theorem addition_of_kind {t : Token} (h : t.kind lexicon.wordKind ≠ .name) :
    addition lexicon t = t.text := if_neg h

theorem step_opening {t : Token} (ht : t ∈ openings) (k : List Char) (d : ℕ) :
    step (t.kind lexicon.wordKind) t.text (inCall ls name layout kcs k d) =
      some (inCall ls name layout kcs (k ++ t.text) (d + 1)) := by
  obtain ⟨hk, -⟩ := @kind_opening lexicon t ht
  rw [hk, step, if_pos ((mem_openingBraces hk).mpr ht), opening_layer rfl rfl,
    extend_concat rfl]
  simp [inCall, add_assoc]

theorem step_closing {t : Token} (ht : t ∈ closings) (k : List Char) {d : ℕ} (hd : 0 < d) :
    step (t.kind lexicon.wordKind) t.text (inCall ls name layout kcs k d) =
      some (inCall ls name layout kcs (k ++ t.text) (d - 1)) := by
  obtain ⟨hk, ho⟩ := @kind_closing lexicon t ht
  obtain ⟨d, rfl⟩ : ∃ e, d = e + 1 := ⟨d - 1, by omega⟩
  rw [hk, step, if_neg ((mem_openingBraces hk).not.mpr ho), if_pos ((mem_closingBraces hk).mpr ht),
    closing_call rfl rfl, extend_concat rfl]
  have hne : ¬ (3 : ℤ) + (d + 1 : ℕ) - 1 = 2 := by omega
  simp only [inCall, Option.map_some, hne, if_false]
  congr 2
  omega

theorem step_inCall (hname : name ≠ []) (hlayout : layout ≠ []) {t : Token} (ho : t ∉ openings)
    (hc : t ∉ closings) (hk : t.kind lexicon.wordKind ≠ .keyword)
    (hk' : t.kind lexicon.wordKind ≠ .keywordType) (k : List Char) (d : ℕ) :
    step (t.kind lexicon.wordKind) t.text (inCall ls name layout kcs k d) =
      some (inCall ls name layout kcs (k ++ addition lexicon t) d) := by
  cases h : t.kind lexicon.wordKind with
  | name =>
    rw [addition, if_pos h]
    simp only [step, keymapName, inCall, not_missing hname, not_missing hlayout, if_true,
      Bool.false_eq_true, if_false]
    exact extend_concat rfl _
  | keyword => exact absurd h hk
  | keywordType => exact absurd h hk'
  | punctuation =>
    rw [addition_of_kind (by rw [h]; decide), step, if_neg ((mem_openingBraces h).not.mpr ho),
      if_neg ((mem_closingBraces h).not.mpr hc)]
    exact extend_concat rfl _
  | integer | other =>
    rw [addition_of_kind (by rw [h]; decide)]
    exact extend_concat rfl _

theorem run_args (hname : name ≠ []) (hlayout : layout ≠ []) {args : List Token}
    (hk : ∀ t ∈ args, t.kind lexicon.wordKind ≠ .keyword ∧
      t.kind lexicon.wordKind ≠ .keywordType) {d : ℕ} (hd : Balanced d args) (k : List Char) :
    run lexicon.wordKind args (inCall ls name layout kcs k d) =
      some (inCall ls name layout kcs (k ++ args.flatMap (addition lexicon)) 0) := by
  induction args generalizing d k with
  | nil =>
    obtain rfl : d = 0 := hd
    simp
  | cons t ts ih =>
    obtain ⟨ht, hts⟩ := List.forall_mem_cons.mp hk
    rw [run_cons, List.flatMap_cons, ← List.append_assoc]
    rw [Balanced] at hd
    split_ifs at hd with ho hc
    · rw [step_opening ho, Option.bind_some, ih hts hd,
        addition_of_kind (by rw [(kind_opening ho).1]; decide)]
    · rw [step_closing hc k hd.1, Option.bind_some, ih hts hd.2,
        addition_of_kind (by rw [(kind_closing hc).1]; decide)]
    · rw [step_inCall hname hlayout ho hc ht.1 ht.2, Option.bind_some, ih hts hd]

def parsed (lexicon : Lexicon) : Core → List (List Char)
  | .literal _ => []
  | c => [c.plain lexicon.wordKind]

theorem run_name (hname : name ≠ []) (hlayout : layout ≠ []) {w : List Char}
    (hw : lexicon.wordKind w = .name) (ts : List Token) :
    run lexicon.wordKind (.word w :: ts) (inLayer ls name layout kcs) =
      run lexicon.wordKind ts (inLayer ls name layout (kcs ++ [unalias w])) := by
  rw [run_word, hw]
  simp only [step, keymapName, inLayer, not_missing hname, not_missing hlayout, if_true,
    Bool.false_eq_true, if_false, Option.bind_some]

theorem run_literal (hname : name ≠ []) {w : List Char}
    (hw : lexicon.wordKind w = .integer ∨ lexicon.wordKind w = .other) (ts : List Token) :
    run lexicon.wordKind (.word w :: ts) (inLayer ls name layout kcs) =
      run lexicon.wordKind ts (inLayer ls name layout kcs) := by
  rw [run_word]
  rcases hw with hw | hw
  · rw [hw]
    simp only [step, inLayer, not_missing hname, and_self, if_true, Bool.false_eq_true, if_false,
      Option.bind_some]
  · rw [hw]
    rfl

theorem run_openCall (ts : List Token) (k : List Char) :
    run lexicon.wordKind (.symbol '(' :: ts) (inLayer ls name layout (kcs ++ [k])) =
      run lexicon.wordKind ts (inCall ls name layout kcs (k ++ ['(']) 0) := by
  have hk : Token.kind lexicon.wordKind (.symbol '(') = .punctuation := rfl
  rw [run_cons, hk, step, if_pos (by decide), opening_layer rfl rfl, extend_concat rfl]
  rfl

theorem run_closeCall (ts : List Token) (k : List Char) :
    run lexicon.wordKind (.symbol ')' :: ts) (inCall ls name layout kcs k 0) =
      run lexicon.wordKind ts (inLayer ls name layout (kcs ++ [k ++ [')']])) := by
  have hk : Token.kind lexicon.wordKind (.symbol ')') = .punctuation := rfl
  rw [run_cons, hk, step, if_neg (by decide), if_pos (by decide), closing_call rfl rfl,
    extend_concat rfl]
  rfl

theorem run_core (hname : name ≠ []) (hlayout : layout ≠ []) {c : Core} (hc : c.Valid lexicon)
    (ts : List Token) :
    run lexicon.wordKind (c.tokens ++ ts) (inLayer ls name layout kcs) =
      run lexicon.wordKind ts (inLayer ls name layout (kcs ++ parsed lexicon c)) := by
  cases c with
  | ident w =>
    have hplain : Core.plain lexicon.wordKind (.ident w) = unalias w := by
      simp [Core.plain, Core.tokens, Token.kind, Token.text, hc.2]
    rw [parsed, hplain]
    · exact run_name hname hlayout hc.2 ts
    · exact fun w' h => by cases h
  | literal w =>
    rw [parsed, List.append_nil]
    exact run_literal hname (lexicon.number w hc.2) ts
  | call f args =>
    obtain ⟨⟨-, hf⟩, -, -, hbal, hkind⟩ := hc
    have hplain : Core.plain lexicon.wordKind (.call f args) =
        unalias f ++ ['('] ++ args.flatMap (addition lexicon) ++ [')'] := by
      have hopen : addition lexicon (.symbol '(') = ['('] := addition_of_kind Kind.noConfusion
      have hclose : addition lexicon (.symbol ')') = [')'] := addition_of_kind Kind.noConfusion
      have hfun : addition lexicon (.word f) = unalias f := if_pos hf
      change List.flatMap (addition lexicon) _ = _
      simp [Core.tokens, hopen, hclose, hfun]
    rw [parsed, hplain, Core.tokens, List.cons_append, run_name hname hlayout hf, List.cons_append,
      run_openCall, List.append_assoc, run_append, run_args hname hlayout hkind hbal,
      Option.bind_some]
    · exact run_closeCall ts _
    · exact fun w' h => by cases h

def keyTokens (layer : List Keycode) : List Token :=
  List.intercalate [.symbol ',', .blanks [' ']] (layer.map fun k => k.core.tokens)

theorem run_separator (ts : List Token) :
    run lexicon.wordKind (.symbol ',' :: .blanks [' '] :: ts) (inLayer ls name layout kcs) =
      run lexicon.wordKind ts (inLayer ls name layout kcs) := rfl

theorem run_keys (hname : name ≠ []) (hlayout : layout ≠ []) {layer : List Keycode}
    (hl : ∀ k ∈ layer, k.core.Valid lexicon) (ts : List Token) :
    run lexicon.wordKind (keyTokens layer ++ ts) (inLayer ls name layout kcs) =
      run lexicon.wordKind ts
        (inLayer ls name layout (kcs ++ layer.flatMap fun k => parsed lexicon k.core)) := by
  induction layer generalizing kcs with
  | nil => simp [keyTokens]
  | cons k layer ih =>
    obtain ⟨hk, hl⟩ := List.forall_mem_cons.mp hl
    cases layer with
    | nil => simpa [keyTokens] using run_core hname hlayout hk ts
    | cons k' layer =>
      have hkeys : keyTokens (k :: k' :: layer) ++ ts =
          k.core.tokens ++ .symbol ',' :: .blanks [' '] :: (keyTokens (k' :: layer) ++ ts) := by
        simp [keyTokens, List.intercalate]
      rw [hkeys, run_core hname hlayout hk, run_separator, ih hl, List.append_assoc]
      rfl

def layerTokens (layout : List Char) (num : ℕ) (layer : List Keycode) : List Token :=
  [.blanks ['\t'], .symbol '[', .word (Nat.toDigits 10 num), .symbol ']', .blanks [' '],
    .symbol '=', .blanks [' '], .word layout, .symbol '('] ++ (keyTokens layer ++ [.symbol ')'])

def scanned (lexicon : Lexicon) (layout : List Char) (num : ℕ) (layer : List Keycode) : Layer where
  name := some (Nat.toDigits 10 num)
  layout := some layout
  keycodes := layer.flatMap fun k => parsed lexicon k.core

def named (ls : List Layer) (name : List Char) : Scan :=
  { inArray ls with layer := { name := some name } }

theorem run_number (num : ℕ) (ts : List Token) :
    run lexicon.wordKind (.symbol '[' :: .word (Nat.toDigits 10 num) :: .symbol ']' :: ts)
      (inArray ls) = run lexicon.wordKind ts (named ls (Nat.toDigits 10 num)) := by
  have hopen (ts : List Token) : run lexicon.wordKind (.symbol '[' :: ts) (inArray ls) =
      run lexicon.wordKind ts { inArray ls with braceDepth := 2 } := rfl
  rw [hopen, run_word, lexicon.decimal]
  rfl

theorem run_layout (hname : name ≠ []) (hlayout : lexicon.wordKind layout = .name)
    (ts : List Token) :
    run lexicon.wordKind (.word layout :: .symbol '(' :: ts) (named ls name) =
      run lexicon.wordKind ts (inLayer ls name layout []) := by
  have hset : step (lexicon.wordKind layout) layout (named ls name) =
      some { named ls name with layer := ⟨some name, some layout, []⟩ } := by
    rw [hlayout]
    simp only [step, keymapName, named, inArray, not_missing hname, if_true, Bool.false_eq_true,
      if_false]
    rfl
  rw [run_word, hset]
  rfl

theorem run_layer (hlayout : IsName lexicon layout) (num : ℕ) {layer : List Keycode}
    (hl : ∀ k ∈ layer, k.core.Valid lexicon) (ts : List Token) :
    run lexicon.wordKind (layerTokens layout num layer ++ ts) (inArray ls) =
      run lexicon.wordKind ts (inArray (ls ++ [scanned lexicon layout num layer])) := by
  have hname : Nat.toDigits 10 num ≠ [] := Nat.toDigits_ne_nil
  have hblanks (w : List Char) (ts : List Token) :
      run lexicon.wordKind (.blanks w :: ts) (inArray ls) =
        run lexicon.wordKind ts (inArray ls) := rfl
  have heq (ts : List Token) (name : List Char) :
      run lexicon.wordKind (.blanks [' '] :: .symbol '=' :: .blanks [' '] :: ts)
        (named ls name) = run lexicon.wordKind ts (named ls name) := rfl
  simp only [layerTokens, List.cons_append, List.nil_append, List.append_assoc]
  rw [hblanks, run_number, heq, run_layout hname hlayout.2, run_keys hname hlayout.1.1 hl]
  rfl

/-- The tokens of the lines of the layers, the first one with the number `num`. -/
def tableTokens (layout : List Char) (layers : List (List Keycode)) (num : ℕ) : List Token :=
  List.intercalate [.symbol ',', .newline]
    ((layers.zipIdx num).map fun layer => layerTokens layout layer.2 layer.1)

theorem run_table (hlayout : IsName lexicon layout) {layers : List (List Keycode)} {num : ℕ}
    (hl : ∀ layer ∈ layers, ∀ k ∈ layer, k.core.Valid lexicon) (ts : List Token) :
    run lexicon.wordKind (tableTokens layout layers num ++ ts) (inArray ls) =
      run lexicon.wordKind ts (inArray
        (ls ++ (layers.zipIdx num).map fun layer => scanned lexicon layout layer.2 layer.1)) := by
  induction layers generalizing ls num with
  | nil => simp [tableTokens]
  | cons layer layers ih =>
    obtain ⟨hlayer, hl⟩ := List.forall_mem_cons.mp hl
    have hsep (ls : List Layer) (ts : List Token) :
        run lexicon.wordKind (.symbol ',' :: .newline :: ts) (inArray ls) =
          run lexicon.wordKind ts (inArray ls) := rfl
    cases layers with
    | nil => simpa [tableTokens] using run_layer hlayout num hlayer ts
    | cons layer' layers =>
      have htable : tableTokens layout (layer :: layer' :: layers) num ++ ts =
          layerTokens layout num layer ++
            .symbol ',' :: .newline :: (tableTokens layout (layer' :: layers) (num + 1) ++ ts) := by
        simp [tableTokens, List.intercalate]
      rw [htable, run_layer hlayout num hlayer, hsep, ih hl, List.append_assoc]
      rfl

theorem run_gaps {gaps : List Token} (hg : ∀ t ∈ gaps, IsGap t) (ts : List Token) :
    run lexicon.wordKind (gaps ++ ts) (inArray ls) = run lexicon.wordKind ts (inArray ls) := by
  induction gaps with
  | nil => rfl
  | cons t gaps ih =>
    obtain ⟨ht, hg⟩ := List.forall_mem_cons.mp hg
    have hstep : step (t.kind lexicon.wordKind) t.text (inArray ls) = some (inArray ls) := by
      cases t with
      | newline | blanks => rfl
      | word | symbol | comment | directive | string => exact ht.elim
    rw [List.cons_append, run_cons, hstep, Option.bind_some, ih hg]

end Array

theorem getLayers_file {before gaps gaps' after : List Token} {layers : List (List Keycode)}
    (hbefore : .word "keymaps".toList ∉ before) (hdepth : depth before = 0)
    (hgaps : ∀ t ∈ gaps, IsGap t) (hgaps' : ∀ t ∈ gaps', IsGap t)
    (hafter : .word "keymaps".toList ∉ after) (hlayout : IsName lexicon layout)
    (hl : ∀ layer ∈ layers, ∀ k ∈ layer, k.core.Valid lexicon) :
    getLayers lexicon.wordKind (before ++ (signature ++ (gaps ++ (tableTokens layout layers 0 ++
        (gaps' ++ .symbol '\x7d' :: after))))) =
      some (layers.zipIdx.map fun layer => scanned lexicon layout layer.2 layer.1) := by
  have hend (ls : List Layer) : run lexicon.wordKind (.symbol '\x7d' :: after) (inArray ls) =
      run lexicon.wordKind after (outside ls 0 0) := rfl
  obtain ⟨c, hc, hfirst⟩ := run_outside lexicon [] hbefore (Nat.zero_le 3) 0
  obtain ⟨c', hc', hlast⟩ := run_outside lexicon
    (layers.zipIdx.map fun layer => scanned lexicon layout layer.2 layer.1) hafter (Nat.zero_le 3) 0
  rw [hdepth] at hfirst
  rw [getLayers, run_append, show ({} : Scan) = outside [] 0 0 from rfl, hfirst, Option.bind_some,
    run_append, zero_add, run_signature hc, Option.bind_some, run_gaps hgaps, run_table hlayout hl,
    run_gaps hgaps', hend, List.nil_append, hlast]
  rfl

end Scan

end Qmk.KeymapC
