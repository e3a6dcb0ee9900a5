import Qmk.KeymapC.Scan

/-! # From keymaps to C and back

The generated file is spelled by tokens, and the scanner finds the layers in them. All keycodes come
back exactly if none of them is an integer literal.
-/

namespace Qmk.KeymapC

open Text CLexer Scan

variable {lexicon : Lexicon}

section Lists

variable {α β : Type*}

theorem intercalate_cons (sep a : List α) {ls : List (List α)} (h : ls ≠ []) :
    List.intercalate sep (a :: ls) = a ++ (sep ++ List.intercalate sep ls) := by
  obtain ⟨b, ls, rfl⟩ := List.exists_cons_of_ne_nil h
  simp [List.intercalate]

theorem intercalate_concat (sep a : List α) {ls : List (List α)} (h : ls ≠ []) :
    List.intercalate sep (ls ++ [a]) = List.intercalate sep ls ++ (sep ++ a) := by
  induction ls with
  | nil => exact absurd rfl h
  | cons b ls ih =>
    cases ls with
    | nil => simp [List.intercalate]
    | cons c ls =>
      have hne : c :: ls ≠ [] := List.cons_ne_nil c ls
      rw [List.cons_append, intercalate_cons sep b (by simp), ih hne, intercalate_cons sep b hne]
      simp

theorem mem_intercalate {sep : List α} {ls : List (List α)} {a : α}
    (h : a ∈ List.intercalate sep ls) : a ∈ sep ∨ ∃ l ∈ ls, a ∈ l := by
  induction ls with
  | nil => cases h
  | cons b ls ih =>
    cases ls with
    | nil => exact .inr ⟨b, by simp, by simpa [List.intercalate] using h⟩
    | cons c ls =>
      rw [intercalate_cons sep b (List.cons_ne_nil c ls)] at h
      simp only [List.mem_append] at h
      rcases h with h | h | h
      · exact .inr ⟨b, List.mem_cons_self, h⟩
      · exact .inl h
      · refine (ih h).imp_right ?_
        rintro ⟨l, hl, ha⟩
        exact ⟨l, List.mem_cons_of_mem b hl, ha⟩

theorem spell_intercalate (text : β → List α) (sep : List β) (ls : List (List β)) :
    spell text (List.intercalate sep ls) =
      List.intercalate (spell text sep) (ls.map (spell text)) := by
  induction ls with
  | nil => rfl
  | cons b ls ih =>
    cases ls with
    | nil => simp [List.intercalate]
    | cons c ls =>
      rw [intercalate_cons sep b (List.cons_ne_nil c ls), spell_append, spell_append, ih,
        List.map_cons, List.map_cons, List.map_cons,
        intercalate_cons (spell text sep) _ (List.cons_ne_nil _ _)]

theorem eq_of_append_cons {a : α} {l m x y : List α} (hl : a ∉ l) (hm : a ∉ m)
    (h : l ++ a :: x = m ++ a :: y) : l = m := by
  induction l generalizing m with
  | nil =>
    cases m with
    | nil => rfl
    | cons c m =>
      obtain ⟨rfl, -⟩ := List.cons.inj h
      exact absurd List.mem_cons_self hm
  | cons b l ih =>
    cases m with
    | nil =>
      obtain ⟨rfl, -⟩ := List.cons.inj h
      exact absurd List.mem_cons_self hl
    | cons c m =>
      obtain ⟨rfl, h'⟩ := List.cons.inj h
      rw [ih (List.not_mem_of_not_mem_cons hl) (List.not_mem_of_not_mem_cons hm) h']

end Lists

section Table

theorem not_mem_word {w : List Char} {c : Char} (hc : isWord c = false) (hw : ∀ d ∈ w, isWord d) :
    c ∉ w := by
  intro h
  simp [hw c h] at hc

theorem not_any {c : Core} (hc : c.Valid lexicon) : ¬ "ANY(".toList <+: c.text := by
  cases c with
  | ident w | literal w =>
    intro h
    have hmem : '(' ∈ w := (by simpa [Core.text, Core.tokens, Token.text] using h :
      "ANY(".toList <+: w).subset (by decide)
    exact not_mem_word (by decide) hc.1.2 hmem
  | call f args =>
    obtain ⟨⟨⟨-, hf⟩, -⟩, hany, -⟩ := hc
    rintro ⟨l, hl⟩
    have htext : "ANY".toList ++ '(' :: l =
        f ++ '(' :: (spell Token.text args ++ [')']) := by
      simpa [Core.text, Core.tokens, Token.text] using hl
    have hparen : '(' ∉ "ANY".toList ∧ isWord '(' = false := by decide
    exact hany (eq_of_append_cons hparen.1 (not_mem_word hparen.2 hf) htext).symm

theorem stripAny_text {k : Keycode} (hk : k.core.Valid lexicon) :
    stripAny k.text = k.core.text := by
  unfold Keycode.text stripAny
  split_ifs with hany hwrap hwrap
  · simp [List.dropLast_append_of_ne_nil]
  · exact absurd ⟨⟨_, by rw [List.append_assoc]⟩, ⟨_, rfl⟩⟩ hwrap
  · exact absurd hwrap.1 (not_any hk)
  · rfl

theorem layerLine_eq (layout : List Char) (num : ℕ) {layer : List Keycode}
    (hl : ∀ k ∈ layer, k.core.Valid lexicon) :
    layerLine layout num (layer.map Keycode.text) =
      spell Token.text (layerTokens layout num layer) := by
  have hkeys : List.intercalate ", ".toList ((layer.map Keycode.text).map stripAny) =
      spell Token.text (keyTokens layer) := by
    rw [keyTokens, spell_intercalate, List.map_map, List.map_map]
    exact congrArg _ (List.map_congr_left fun k hk => stripAny_text (hl k hk))
  unfold layerLine
  rw [hkeys]
  simp [layerTokens, Token.text]

theorem modifyLast_ne_nil {α : Type*} {l : List α} (f : α → α) (h : l ≠ []) :
    l.modifyLast f ≠ [] := by
  rw [← List.dropLast_append_getLast h, List.modifyLast_concat]
  simp

theorem intercalate_modifyLast {α : Type*} (sep a : List α) {ls : List (List α)} (h : ls ≠ []) :
    List.intercalate sep (ls.modifyLast (· ++ a)) = List.intercalate sep ls ++ a := by
  rw [← List.dropLast_append_getLast h, List.modifyLast_concat]
  by_cases hls : ls.dropLast = []
  · simp [hls, List.intercalate]
  · rw [intercalate_concat sep _ hls, intercalate_concat sep _ hls]
    simp

/-- The lines of the table are the lines of the layers, with commas behind all but the last. -/
theorem intercalate_table (json : KeymapJson) :
    List.intercalate ['\n'] (generateKeymapTable json) =
      List.intercalate [',', '\n']
        (json.layers.zipIdx.map fun layer => layerLine json.layout layer.2 layer.1) := by
  obtain ⟨layout, layers, sections⟩ := json
  suffices h : ∀ layers : List (List (List Char)),
      List.intercalate ['\n'] (generateKeymapTable ⟨layout, layers, sections⟩) =
        List.intercalate [',', '\n']
          (layers.zipIdx.map fun layer => layerLine layout layer.2 layer.1) ∧
      (layers ≠ [] → generateKeymapTable ⟨layout, layers, sections⟩ ≠ []) from (h layers).1
  intro layers
  induction layers using List.reverseRecOn with
  | nil => exact ⟨rfl, fun h => absurd rfl h⟩
  | append_singleton layers layer ih =>
    obtain ⟨ih, hne⟩ := ih
    have hstep : generateKeymapTable ⟨layout, layers ++ [layer], sections⟩ =
        (if layers.length ≠ 0 then
          (generateKeymapTable ⟨layout, layers, sections⟩).modifyLast (· ++ ",".toList)
          else generateKeymapTable ⟨layout, layers, sections⟩) ++
            [layerLine layout layers.length layer] := by
      simp [generateKeymapTable, List.zipIdx_append]
    refine ⟨?_, fun _ => by rw [hstep]; simp⟩
    rw [hstep, List.zipIdx_append, List.map_append]
    cases layers with
    | nil => rfl
    | cons layer' layers =>
      have hmap : ((layer' :: layers).zipIdx.map fun layer => layerLine layout layer.2 layer.1) ≠
          [] := by
        simp
      have hlines := hne (List.cons_ne_nil _ _)
      rw [if_pos (by simp), intercalate_concat _ _ (modifyLast_ne_nil _ hlines),
        intercalate_modifyLast _ _ hlines, ih]
      refine Eq.trans ?_ (intercalate_concat _ _ hmap).symm
      simp

theorem table_text {keymap : Keymap} (hk : keymap.Valid lexicon) :
    List.intercalate ['\n'] (generateKeymapTable keymap.json) =
      spell Token.text (tableTokens keymap.layout keymap.layers 0) := by
  rw [intercalate_table, tableTokens, spell_intercalate, List.map_map, Keymap.json]
  simp only [List.zipIdx_map, List.map_map]
  refine congrArg _ (List.map_congr_left fun layer hlayer => ?_)
  exact layerLine_eq _ _ (hk.keycodes layer.1 (List.fst_mem_of_mem_zipIdx hlayer))

end Table

section Spelling

theorem not_continues : ∀ c ∈ [',', ')', '(', ' ', ']'], ∀ w, continues w c = false := by
  intro c hc w
  have hchars : isWord c = false ∧ c ≠ '\x22' ∧ c ≠ '\x27' ∧ c ≠ '.' ∧ c ≠ '+' ∧ c ≠ '-' := by
    revert c
    decide
  obtain ⟨hword, hquote, hquote', hpoint, hplus, hminus⟩ := hchars
  simp [continues, hword, hquote, hquote', hpoint, hplus, hminus]

theorem ends_word {w : List Char} (hw : w ≠ [] ∧ ∀ c ∈ w, isWord c) {c : Char}
    (hc : c ∈ [',', ')', '(', ' ', ']']) : Token.Ends (.word w) (some c) :=
  ⟨hw, fun d hd => by
    obtain rfl := Option.some.inj hd
    rw [not_continues c hc w]
    decide⟩

theorem ends_symbol {c : Char} (hc : c ∈ punctuators ++ operators) (hslash : c ≠ '/')
    (hpoint : c ≠ '.') (next : Option Char) : Token.Ends (.symbol c) next :=
  ⟨hc, fun h => absurd h hslash, fun h => absurd h hpoint⟩

theorem spelled_core {c : Core} (hc : c.Valid lexicon) {d : Char} (hd : d ∈ [',', ')']) :
    Spelled c.tokens (some d) := by
  have hd' : d ∈ [',', ')', '(', ' ', ']'] := by
    revert d
    decide
  cases c with
  | ident w => exact ⟨ends_word hc.1 hd', trivial⟩
  | literal w => exact ⟨ends_word hc.1 hd', trivial⟩
  | call f args =>
    obtain ⟨⟨hf, -⟩, -, hargs, -⟩ := hc
    refine ⟨ends_word hf (by decide), ends_symbol (by decide) (by decide) (by decide) _, ?_⟩
    exact spelled_append.mpr ⟨hargs, ends_symbol (by decide) (by decide) (by decide) _, trivial⟩

theorem core_tokens {c : Core} (hc : c.Valid lexicon) :
    ∃ d w ts, isWord d ∧ c.tokens = .word (d :: w) :: ts := by
  have hword {w : List Char} (hw : w ≠ [] ∧ ∀ c ∈ w, isWord c) :
      ∃ d v, isWord d ∧ w = d :: v := by
    obtain ⟨d, v, rfl⟩ := List.exists_cons_of_ne_nil hw.1
    exact ⟨d, v, hw.2 d List.mem_cons_self, rfl⟩
  cases c with
  | ident w =>
    obtain ⟨d, v, hd, rfl⟩ := hword hc.1
    exact ⟨d, v, [], hd, rfl⟩
  | literal w =>
    obtain ⟨d, v, hd, rfl⟩ := hword hc.1
    exact ⟨d, v, [], hd, rfl⟩
  | call f args =>
    obtain ⟨d, v, hd, rfl⟩ := hword hc.1.1
    exact ⟨d, v, _, hd, rfl⟩

theorem not_isBlank {c : Char} (hc : isWord c) : ¬ isBlank c := by
  intro h
  simp only [isBlank, Bool.or_eq_true, beq_iff_eq] at h
  rcases h with rfl | rfl <;> revert hc <;> decide

theorem ends_blank {b c : Char} (hb : isBlank b) (hc : ¬ isBlank c) :
    Token.Ends (.blanks [b]) (some c) :=
  ⟨by simpa using hb, fun d hd => by obtain rfl := Option.some.inj hd; exact hc⟩

theorem spelled_keys {layer : List Keycode} (hl : ∀ k ∈ layer, k.core.Valid lexicon) :
    Spelled (keyTokens layer) (some ')') := by
  induction layer with
  | nil => exact spelled_nil
  | cons k layer ih =>
    obtain ⟨hk, hl⟩ := List.forall_mem_cons.mp hl
    cases layer with
    | nil => simpa [keyTokens] using spelled_core hk (d := ')') (by decide)
    | cons k' layer =>
      obtain ⟨d, w, ts, hd, hcore⟩ := core_tokens (List.forall_mem_cons.mp hl).1
      have hkeys : keyTokens (k :: k' :: layer) =
          k.core.tokens ++ ([.symbol ',', .blanks [' ']] ++ keyTokens (k' :: layer)) :=
        intercalate_cons _ _ (by simp)
      have hhead : first (spell Token.text (keyTokens (k' :: layer))) (some ')') = some d := by
        rw [keyTokens, List.map_cons, hcore]
        cases layer <;> simp [List.intercalate, Token.text]
      rw [hkeys, spelled_append, spelled_append]
      refine ⟨spelled_core hk (by decide), ⟨ends_symbol (by decide) (by decide) (by decide) _, ?_,
        trivial⟩, ih hl⟩
      rw [hhead]
      exact ends_blank (by decide) (not_isBlank hd)

theorem spelled_layer {layout : List Char} (hlayout : IsName lexicon layout) (num : ℕ)
    {layer : List Keycode} (hl : ∀ k ∈ layer, k.core.Valid lexicon) (next : Option Char) :
    Spelled (layerTokens layout num layer) next := by
  have hdigits : Nat.toDigits 10 num ≠ [] ∧ ∀ c ∈ Nat.toDigits 10 num, isWord c :=
    ⟨Nat.toDigits_ne_nil, fun c hc => by
      simp [isWord, Char.isAlphanum, Nat.isDigit_of_mem_toDigits (by decide) (by decide) hc]⟩
  have hsymbol {c : Char} (next : Option Char) (hc : c ∈ ['[', ']', '=', '(', ')']) :
      Token.Ends (.symbol c) next := by
    refine ends_symbol ?_ ?_ ?_ next <;> revert c <;> decide
  obtain ⟨d, w, hd⟩ := List.exists_cons_of_ne_nil hlayout.1.1
  have hblank : ¬ isBlank d := not_isBlank (hlayout.1.2 d (by rw [hd]; exact List.mem_cons_self))
  have hkeys : Spelled (keyTokens layer ++ [.symbol ')']) next :=
    spelled_append.mpr ⟨spelled_keys hl, hsymbol _ (by decide), trivial⟩
  refine ⟨ends_blank (by decide) (by decide), hsymbol _ (by decide), ends_word hdigits (by decide),
    hsymbol _ (by decide), ends_blank (c := '=') (by decide) (by decide), hsymbol _ (by decide), ?_,
    ends_word hlayout.1 (by decide), hsymbol _ (by decide), hkeys⟩
  rw [hd]
  exact ends_blank (by decide) hblank

theorem spelled_table {layout : List Char} (hlayout : IsName lexicon layout) (num : ℕ)
    {layers : List (List Keycode)} (hl : ∀ layer ∈ layers, ∀ k ∈ layer, k.core.Valid lexicon)
    (next : Option Char) : Spelled (tableTokens layout layers num) next := by
  induction layers generalizing num with
  | nil => exact spelled_nil
  | cons layer layers ih =>
    obtain ⟨hlayer, hl⟩ := List.forall_mem_cons.mp hl
    cases layers with
    | nil => simpa [tableTokens] using spelled_layer hlayout num hlayer next
    | cons layer' layers =>
      have htable : tableTokens layout (layer :: layer' :: layers) num =
          layerTokens layout num layer ++
            ([.symbol ',', .newline] ++ tableTokens layout (layer' :: layers) (num + 1)) := by
        rw [tableTokens, List.zipIdx_cons, List.map_cons, intercalate_cons _ _ (by simp)]
        rfl
      rw [htable, spelled_append, spelled_append]
      exact ⟨spelled_layer hlayout num hlayer _,
        ⟨ends_symbol (by decide) (by decide) (by decide) _, trivial, trivial⟩, ih _ hl⟩

end Spelling

section Files

theorem placeholder_word (slot : Slot) :
    (∀ c ∈ slot.placeholder, isWord c) ∧ '_' ∈ slot.placeholder := by
  cases slot <;> decide

theorem placeholder_apart (i j : Slot) (h : j ≠ i) : ¬ i.placeholder <:+: j.placeholder := by
  revert h
  cases i <;> cases j <;> decide

theorem mem_layerTokens {layout : List Char} {num : ℕ} {layer : List Keycode} {t : Token}
    (ht : t ∈ layerTokens layout num layer) :
    '_' ∉ t.text ∨ t = .word layout ∨ ∃ k ∈ layer, t ∈ k.core.tokens := by
  rw [layerTokens, List.mem_append] at ht
  rcases ht with ht | ht
  · simp only [List.mem_cons, List.not_mem_nil, or_false] at ht
    rcases ht with rfl | rfl | rfl | rfl | rfl | rfl | rfl | rfl | rfl
    case inr.inr.inl =>
      refine .inl fun h => ?_
      have := Nat.isDigit_of_mem_toDigits (by decide) (by decide) h
      revert this
      decide
    case inr.inr.inr.inr.inr.inr.inr.inl => exact .inr (.inl rfl)
    all_goals exact .inl (by decide)
  · rcases List.mem_append.mp ht with ht | ht
    · rcases mem_intercalate ht with ht | ⟨ts, hts, ht⟩
      · simp only [List.mem_cons, List.not_mem_nil, or_false] at ht
        rcases ht with rfl | rfl <;> exact .inl (by decide)
      · obtain ⟨k, hk, rfl⟩ := List.mem_map.mp hts
        exact .inr (.inr ⟨k, hk, ht⟩)
    · obtain rfl := List.mem_singleton.mp ht
      exact .inl (by decide)

theorem not_isInfix_table {keymap : Keymap} (hk : keymap.Valid lexicon) (hclean : keymap.Clean)
    {slot : Slot} (hslot : slot ≠ .keymap) :
    ¬ slot.placeholder <:+: spell Token.text (tableTokens keymap.layout keymap.layers 0) := by
  obtain ⟨hword, hbar⟩ := placeholder_word slot
  obtain ⟨hlayout, hcores, -⟩ := hclean slot hslot
  intro hin
  obtain ⟨t, ht, hin⟩ := (spelled_table hk.layout 0 hk.keycodes none).exists_of_isInfix hword
    (List.ne_nil_of_mem hbar) hin
  rcases mem_intercalate ht with ht | ⟨ts, hts, ht⟩
  · simp only [List.mem_cons, List.not_mem_nil, or_false] at ht
    have htext : '_' ∉ t.text := by rcases ht with rfl | rfl <;> decide
    exact htext (hin.subset hbar)
  · obtain ⟨⟨layer, num⟩, hlayer, rfl⟩ := List.mem_map.mp hts
    rcases mem_layerTokens ht with htext | rfl | ⟨k, hk, ht⟩
    · exact htext (hin.subset hbar)
    · exact hlayout hin
    · refine hcores layer (List.fst_mem_of_mem_zipIdx hlayer) k hk (hin.trans ?_)
      obtain ⟨a, b, hab⟩ := List.append_of_mem ht
      rw [Core.text, hab, spell_append, spell_cons]
      exact ⟨_, _, List.append_assoc _ _ _⟩

def fillTokens (keymap : Keymap) : Slot → List Token
  | .keymap => tableTokens keymap.layout keymap.layers 0
  | slot => keymap.sections slot

theorem render_spell (f : Slot → List Token) (pieces : List (Piece Slot Token)) :
    render (fun slot => spell Token.text (f slot)) (pieces.map Template.spellPiece) =
      spell Token.text (render f pieces) := by
  induction pieces with
  | nil => rfl
  | cons x pieces ih =>
    rw [List.map_cons, render_cons, render_cons, spell_append, ih]
    cases x <;> rfl

theorem generateC_text {template : Template} {keymap : Keymap} (ht : template.Fits)
    (hk : keymap.Valid lexicon) (hclean : keymap.Clean) :
    generateC template.text keymap.json =
      spell Token.text (render (fillTokens keymap) template.pieces) := by
  let slots : List Slot := [.keymap, .encoders, .macros, .includes, .keycodes]
  let new (slot : Slot) := spell Token.text (fillTokens keymap slot)
  have hfold := @replace_slots _ _ _ _ isWord Slot.placeholder new slots
    (template.pieces.map Template.spellPiece) (by decide)
    (fun i _ => List.ne_nil_of_mem (placeholder_word i).2) (fun i _ => (placeholder_word i).1)
    (fun i _ j hj => placeholder_apart i j hj)
    (by
      have hnew (i j : Slot) (hi : i ≠ .keymap) :
          ¬ i.placeholder <:+: spell Token.text (fillTokens keymap j) := by
        cases j with
        | keymap => exact not_isInfix_table hk hclean hi
        | encoders | macros | includes | keycodes => exact (hclean i hi).2.2 _
      refine .cons ?_ (.cons ?_ (.cons ?_ (.cons ?_ (.cons ?_ .nil)))) <;> intro i hi <;>
        refine hnew i _ ?_ <;> rintro rfl <;> revert hi <;> decide)
    (fun x hx i _ => ht.free x hx i) ht.apart
  have hall : (fun i => if i ∈ slots then new i else i.placeholder) = new := by
    funext i
    cases i <;> rfl
  rw [hall, render_spell] at hfold
  rw [← hfold, generateC, table_text hk]
  rfl

theorem Closed.ends {t : Token} (hc : Closed t) (h : t.Ends none) (next : Option Char) :
    t.Ends next := by
  cases t with
  | symbol c => exact ⟨h.1, fun hs => absurd hs hc.1, fun hp => absurd hp hc.2⟩
  | newline | comment | string => exact h
  | word | blanks | directive => exact hc.elim

theorem spelled_chunk {ts : List Token} (h : Template.IsChunk (.chunk ts)) (next : Option Char) :
    Spelled ts next := by
  obtain ⟨hts, t, ht, hc⟩ := h
  obtain ⟨us, rfl⟩ := List.getLast?_eq_some_iff.mp (Option.mem_def.mp ht)
  obtain ⟨hus, hlast, -⟩ := spelled_append.mp hts
  refine spelled_append.mpr ⟨?_, hc.ends hlast _, trivial⟩
  obtain ⟨c, l, htext⟩ := List.exists_cons_of_ne_nil hlast.text_ne_nil
  simpa [htext] using hus

theorem spelled_render {keymap : Keymap} (hk : keymap.Valid lexicon)
    {pieces : List (Piece Slot Token)} (hchunks : ∀ x ∈ pieces, Template.IsChunk x)
    (hfollows : pieces.IsChain Template.Follows) :
    Spelled (render (fillTokens keymap) pieces) none := by
  induction pieces with
  | nil => exact spelled_nil
  | cons x pieces ih =>
    obtain ⟨hx, hchunks⟩ := List.forall_mem_cons.mp hchunks
    rw [render_cons, spelled_append]
    refine ⟨?_, ih hchunks (List.isChain_of_isChain_cons hfollows)⟩
    cases x with
    | chunk ts => exact spelled_chunk hx _
    | slot i =>
      by_cases hi : i = .keymap
      · subst hi
        exact spelled_table hk.layout 0 hk.keycodes _
      · -- Behind any other slot is the end of the line or of the file.
        have hsection : Spelled (fillTokens keymap i) (some '\n') := by
          cases i with
          | keymap => exact absurd rfl hi
          | encoders | macros | includes | keycodes => exact (hk.sections _).spelled
        cases pieces with
        | nil => exact hsection.none
        | cons y pieces =>
          have hfirst : Template.Follows (.slot i) y := (List.isChain_cons_cons.mp hfollows).1
          cases y with
          | slot j => cases i <;> exact hfirst.elim
          | chunk ts =>
            have hnl : ts.head? = some .newline := by
              cases i with
              | keymap => exact absurd rfl hi
              | encoders | macros | includes | keycodes => exact hfirst
            obtain ⟨us, rfl⟩ := List.head?_eq_some_iff.mp hnl
            exact hsection

theorem depth_append (ts us : List Token) : depth (ts ++ us) = depth ts + depth us := by
  induction ts with
  | nil => exact (zero_add _).symm
  | cons t ts ih => rw [List.cons_append, depth, depth, ih, add_assoc]

/-- Around the keymaps array the slots do not matter to the scanner. -/
theorem outside_render {keymap : Keymap} (hk : keymap.Valid lexicon)
    {pieces : List (Piece Slot Token)} (hkeymap : .slot .keymap ∉ pieces)
    (hkeymaps : .word "keymaps".toList ∉ render (fun _ => []) pieces) :
    .word "keymaps".toList ∉ render (fillTokens keymap) pieces ∧
      depth (render (fillTokens keymap) pieces) = depth (render (fun _ => []) pieces) := by
  induction pieces with
  | nil => exact ⟨hkeymaps, rfl⟩
  | cons x pieces ih =>
    rw [render_cons, List.mem_append, not_or] at hkeymaps
    obtain ⟨hwords, hdepth⟩ := ih (List.not_mem_of_not_mem_cons hkeymap) hkeymaps.2
    have hx : .word "keymaps".toList ∉ x.fill (fillTokens keymap) ∧
        depth (x.fill (fillTokens keymap)) = depth (x.fill fun _ => []) := by
      cases x with
      | chunk ts => exact ⟨hkeymaps.1, rfl⟩
      | slot i =>
        cases i with
        | keymap => exact absurd List.mem_cons_self hkeymap
        | encoders | macros | includes | keycodes =>
          exact ⟨(hk.sections _).keymaps, (hk.sections _).depth⟩
    rw [render_cons, render_cons, depth_append, depth_append, hx.2, hdepth, List.mem_append, not_or]
    exact ⟨⟨hx.1, hwords⟩, rfl⟩

end Files

section RoundTrip

variable {lex : List Char → List Token} {template : Template} {keymap : Keymap}

theorem getLayers_generateC (hlex : AsInC lex) (ht : template.Fits) (hk : keymap.Valid lexicon)
    (hclean : keymap.Clean) :
    getLayers lexicon.wordKind (lex (generateC template.text keymap.json)) =
      some (keymap.layers.zipIdx.map fun layer =>
        scanned lexicon keymap.layout layer.2 layer.1) := by
  have hkeymap := ht.keymap
  have hkeymaps := ht.keymaps
  rw [List.mem_append, not_or] at hkeymap
  rw [render_append, List.mem_append, not_or] at hkeymaps
  obtain ⟨hbefore, hdepth⟩ := outside_render hk hkeymap.1 hkeymaps.1
  obtain ⟨hafter, -⟩ := outside_render hk hkeymap.2 hkeymaps.2
  have hgaps := List.forall_mem_append.mp ht.gaps
  have hfile : render (fillTokens keymap) template.pieces =
      render (fillTokens keymap) template.before ++ (signature ++ (template.blanks ++
        (tableTokens keymap.layout keymap.layers 0 ++ (template.blanks' ++ .symbol '\x7d' ::
          render (fillTokens keymap) template.after)))) := by
    simp [Template.pieces, render_append, render_cons, Piece.fill, fillTokens]
  rw [generateC_text ht hk hclean, hlex _ (spelled_render hk ht.chunks ht.follows), hfile]
  exact getLayers_file hbefore (hdepth.trans ht.depth) hgaps.1 hgaps.2 hafter hk.layout hk.keycodes

theorem length_parsed (layer : List Keycode) :
    (layer.flatMap fun k => parsed lexicon k.core).length =
      layer.countP fun k => ¬ k.core.IsLiteral := by
  induction layer with
  | nil => rfl
  | cons k layer ih =>
    rw [List.flatMap_cons, List.length_append, ih, List.countP_cons]
    cases h : k.core <;> simp [parsed, Core.IsLiteral, Nat.add_comm]

theorem parsed_eq_iff (layer : List Keycode) :
    (layer.flatMap fun k => parsed lexicon k.core) =
      layer.map (fun k => k.core.plain lexicon.wordKind) ↔
        ∀ k ∈ layer, ¬ k.core.IsLiteral := by
  constructor
  · intro h
    have hlen := @length_parsed lexicon layer
    rw [h, List.length_map] at hlen
    have hall := List.countP_eq_length.mp hlen.symm
    simpa using hall
  · intro h
    rw [← List.flatMap_singleton' (layer.map _), List.flatMap_map]
    refine List.flatMap_congr fun k hk => ?_
    have hcore := h k hk
    cases hc : k.core with
    | ident | call => rfl
    | literal w =>
      rw [hc] at hcore
      exact absurd trivial hcore

theorem roundTrip_iff_parsed (hlex : AsInC lex) (ht : template.Fits) (hk : keymap.Valid lexicon)
    (hclean : keymap.Clean) :
    RoundTrip lexicon lex template keymap ↔ ∀ layer ∈ keymap.layers,
      (layer.flatMap fun k => parsed lexicon k.core) =
        layer.map fun k => k.core.plain lexicon.wordKind := by
  have hkeys : (keymap.layers.zipIdx.map fun layer =>
      scanned lexicon keymap.layout layer.2 layer.1).map Layer.keycodes =
        keymap.layers.map fun layer => layer.flatMap fun k => parsed lexicon k.core := by
    conv_rhs => rw [← List.zipIdx_map_fst 0 keymap.layers, List.map_map]
    rw [List.map_map]
    rfl
  have hlayout : (keymap.layers.zipIdx.map fun layer =>
      scanned lexicon keymap.layout layer.2 layer.1).map Layer.layout =
        keymap.layers.map fun _ => some keymap.layout := by
    conv_rhs => rw [← List.zipIdx_map_fst 0 keymap.layers, List.map_map]
    rw [List.map_map]
    rfl
  rw [RoundTrip, getLayers_generateC hlex ht hk hclean, ← List.map_inj_left, ← hkeys]
  constructor
  · rintro ⟨layers, hlayers, -, h⟩
    obtain rfl := Option.some.inj hlayers
    exact h
  · intro h
    exact ⟨_, rfl, hlayout, h⟩

/-- A keymap comes back from its C file exactly if it has no integer literal among its keycodes. -/
theorem roundTrip_iff (hlex : AsInC lex) (ht : template.Fits) (hk : keymap.Valid lexicon)
    (hclean : keymap.Clean) :
    RoundTrip lexicon lex template keymap ↔
      ∀ layer ∈ keymap.layers, ∀ k ∈ layer, ¬ k.core.IsLiteral := by
  rw [roundTrip_iff_parsed hlex ht hk hclean]
  exact forall₂_congr fun layer _ => parsed_eq_iff layer

end RoundTrip

section Default

theorem defaultTemplate_text : defaultTemplate.text = defaultKeymapC := by
  unfold defaultTemplate defaultKeymapC
  -- the characters of a literal are known before they are evaluated
  repeat rw [String.toList_ofList]
  decide +kernel

theorem defaultTemplate_fits : defaultTemplate.Fits where
  gaps := by decide
  keymap := by decide +kernel
  chunks := by
    unfold defaultTemplate
    repeat rw [String.toList_ofList]
    decide +kernel
  follows := by decide +kernel
  apart := by
    unfold defaultTemplate
    repeat rw [String.toList_ofList]
    decide +kernel
  free := by
    have hfree : ∀ slot ∈ [Slot.keymap, .encoders, .macros, .includes, .keycodes],
        ∀ x ∈ defaultTemplate.pieces.map Template.spellPiece, x.Free slot.placeholder := by
      unfold defaultTemplate
      repeat rw [String.toList_ofList]
      decide +kernel
    intro x hx slot
    exact hfree slot (by cases slot <;> decide) x hx
  keymaps := by decide +kernel
  depth := by decide +kernel

/-- Words with a digit in front are integers, and all but two of the others are names. -/
def cLexicon : Lexicon where
  wordKind w :=
    if w.head?.any Char.isDigit then .integer
    else if w = "const".toList then .keyword
    else if w = "uint16_t".toList then .keywordType
    else .name
  const := by decide
  uint16 := by decide
  names := by decide
  decimal n := by
    obtain ⟨c, w, hw⟩ := List.exists_cons_of_ne_nil (Nat.toDigits_ne_nil (b := 10) (n := n))
    have hc := Nat.isDigit_of_mem_toDigits (b := 10) (n := n) (by decide) (by decide)
      (by rw [hw]; exact List.mem_cons_self)
    rw [if_pos (by rw [hw]; exact hc)]
  punctuation w := by split_ifs <;> exact Kind.noConfusion
  number w hw := .inl (if_pos hw)

/-- A keymap with one layer and with nothing in the other slots. -/
def oneLayer (layer : List Keycode) : Keymap := ⟨"LAYOUT".toList, [layer], fun _ => []⟩

/-- `KC_A, MT(MOD_LCTL | MOD_LSFT, KC_ESC), ANY(KC_B)` -/
def holdTapLayer : List Keycode :=
  [⟨.ident "KC_A".toList, false⟩,
    ⟨.call "MT".toList [.word "MOD_LCTL".toList, .blanks [' '], .symbol '|', .blanks [' '],
      .word "MOD_LSFT".toList, .symbol ',', .blanks [' '], .word "KC_ESC".toList], false⟩,
    ⟨.ident "KC_B".toList, true⟩]

/-- `KC_A, 4, KC_B` -/
def literalLayer : List Keycode :=
  [⟨.ident "KC_A".toList, false⟩, ⟨.literal "4".toList, false⟩, ⟨.ident "KC_B".toList, false⟩]

theorem oneLayer_valid {layer : List Keycode} (h : ∀ k ∈ layer, k.core.Valid cLexicon) :
    (oneLayer layer).Valid cLexicon where
  layout := (by decide : IsName cLexicon "LAYOUT".toList)
  keycodes l hl := by
    obtain rfl := List.mem_singleton.mp hl
    exact h
  sections _ := ⟨trivial, List.not_mem_nil, rfl⟩

theorem oneLayer_clean {layer : List Keycode}
    (h : ∀ slot ∈ [Slot.encoders, .macros, .includes, .keycodes], ∀ k ∈ layer,
      ¬ slot.placeholder <:+: k.core.text) : (oneLayer layer).Clean := by
  intro slot hslot
  have hlayout : ¬ slot.placeholder <:+: "LAYOUT".toList := by cases slot <;> decide
  refine ⟨hlayout, fun l hl => ?_, fun i hin => ?_⟩
  case refine_2 =>
    exact List.ne_nil_of_mem (placeholder_word slot).2 (List.infix_nil.mp hin)
  obtain rfl := List.mem_singleton.mp hl
  exact h slot (by cases slot <;> first | exact absurd rfl hslot | decide)

theorem roundTrip_holdTapLayer :
    RoundTrip cLexicon cLexer defaultTemplate (oneLayer holdTapLayer) :=
  (roundTrip_iff asInC_cLexer defaultTemplate_fits (oneLayer_valid (by decide))
    (oneLayer_clean (by decide))).mpr (by decide)

/-- The number is lost, and the keycode behind it takes its place. -/
theorem not_roundTrip_literalLayer :
    ¬ RoundTrip cLexicon cLexer defaultTemplate (oneLayer literalLayer) := by
  rw [roundTrip_iff_parsed asInC_cLexer defaultTemplate_fits (oneLayer_valid (by decide))
    (oneLayer_clean (by decide))]
  decide

end Default

end Qmk.KeymapC
