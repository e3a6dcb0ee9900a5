import Qmk.Autocorrect.Table

/-! # The bounds of the autocorrection arrays

The search stays inside the table of every dictionary. The replacement starts as many characters
before the end of the last word as the typo has behind the part that it shares with the correction,
and a typo with a word break inside may have more of them than its last word.
-/

namespace Qmk.Autocorrect

section Generated

variable {l : List Autocorrection} {h : Header}

/-- What the generator says about a dictionary and its header. -/
structure Generated (l : List Autocorrection) (h : Header) : Prop where
  accepted : Accepted l
  encodes : Encodes h.data 0 (makeTrie l)
  minLength_le : ∀ e ∈ l, h.minLength ≤ e.typo.length
  le_maxLength : ∀ e ∈ l, e.typo.length ≤ h.maxLength
  maxLength_pos : 0 < h.maxLength

theorem generate_generated {lines : List Autocorrection} (hg : generate lines = some (l, h)) :
    Generated l h := by
  simp only [generate, Option.bind_eq_bind, Option.bind_eq_some_iff, Option.pure_def,
    Option.some.injEq, Prod.mk.injEq] at hg
  obtain ⟨l', hparse, data, hdata, minTypo, hmin, maxTypo, hmax, rfl, rfl⟩ := hg
  have hl : Accepted l' := parseFile_accepted accepted_nil hparse
  have hne : l' ≠ [] := by
    rintro rfl
    simp at hmin
  have hle : ∀ e ∈ l', e.typo.length ≤ maxTypo := fun e he =>
    (List.max?_eq_some_iff.mp hmax).2 _ (List.mem_map_of_mem he)
  refine ⟨hl, serializeTrie_encodes (makeTrie_proper hl) (makeTrie_ne_nil hl hne) hdata,
    fun e he => ?_, hle, ?_⟩
  · exact (List.min?_eq_some_iff.mp hmin).2 _ (List.mem_map_of_mem he)
  · obtain ⟨e, he⟩ := List.exists_mem_of_ne_nil l' hne
    exact (List.length_pos_of_ne_nil (hl.typo_ne_nil e he)).trans_le (hle e he)

theorem Generated.data_pos (hg : Generated l h) : 0 < h.data.length := by
  obtain ⟨x, hx, -⟩ := firstByte_of_encodes (makeTrie_proper hg.accepted) hg.encodes
  exact lt_of_getElem? hx

end Generated

section Conditions

/-- The number of letters of the typo, without word breaks at its ends, behind the part that it
shares with the correction. -/
def Autocorrection.replaced (e : Autocorrection) : ℕ := (stripColons e.typo).length - e.kept

def Autocorrection.changeCodes (e : Autocorrection) : List ℕ := e.changes.map (·.toNat)

def lastWordLength (buffer : List ℕ) : ℕ :=
  let word := if buffer.getLast? = some kcSpc then buffer.dropLast else buffer
  (word.reverse.takeWhile (· ≠ kcSpc)).length

/-- The part of the typo that the correction replaces is part of the last word, and what the
correction adds fits behind the rest of the word. -/
def Fits (l : List Autocorrection) (h : Header) (buffer : List ℕ) : Prop :=
  ∀ e ∈ l, e.typo.map typoCode <:+ buffer → e.replaced ≤ lastWordLength buffer ∧
    lastWordLength buffer - e.replaced + strLen e.changeCodes < h.maxLength + 10

instance (l : List Autocorrection) (h : Header) (buffer : List ℕ) : Decidable (Fits l h buffer) :=
  inferInstanceAs (Decidable (∀ e ∈ l, _ → _))

/-- The buffer that a call searches, with the key of the event at its end. -/
def searched (f : Features) (h : Header) (s : State) (e : Event) : Option (List ℕ) :=
  if ((0x7C74 ≤ e.keycode ∧ e.keycode ≤ 0x7C76) ∧ e.pressed) ∨ ¬ s.enabled then none
  else
    match typed f e s.typoBuffer with
    | .ignored _ => none
    | .appended buffer key => some (append h buffer key).2

def runAccesses (f : Features) (h : Header) : State → List Event → List Access
  | _, [] => []
  | s, e :: events =>
    let r := processAutocorrect f h s e
    r.accesses ++ runAccesses f h r.state events

/-- Whenever the typed text ends with a typo, the typo fits. -/
def RunFits (f : Features) (l : List Autocorrection) (h : Header) : State → List Event → Prop
  | _, [] => True
  | s, e :: events =>
    (∀ buffer ∈ searched f h s e, Fits l h buffer) ∧
      RunFits f l h (processAutocorrect f h s e).state events

instance RunFits.decidable (f : Features) (l : List Autocorrection) (h : Header) :
    ∀ s events, Decidable (RunFits f l h s events)
  | _, [] => .isTrue trivial
  | s, e :: events =>
    have := RunFits.decidable f l h (processAutocorrect f h s e).state events
    inferInstanceAs (Decidable ((∀ buffer ∈ searched f h s e, _) ∧ _))

end Conditions

section Buffer

variable {h : Header} {buffer : List ℕ} {word : List Char}

/-- The buffer holds the keys of typed characters, and not too many of them. -/
def BufferOk (h : Header) (buffer : List ℕ) : Prop :=
  ∃ word : List Char, (∀ c ∈ word, IsTypoChar c) ∧ buffer = word.map typoCode ∧
    word.length ≤ h.maxLength

theorem bufferOk_nil : BufferOk h [] := ⟨[], by simp, rfl, Nat.zero_le _⟩

theorem bufferOk_space (hmax : 0 < h.maxLength) : BufferOk h [kcSpc] :=
  ⟨[':'], by simp [IsTypoChar], rfl, hmax⟩

theorem BufferOk.sublist {buffer' : List ℕ} (hb : BufferOk h buffer)
    (hs : buffer'.Sublist buffer) : BufferOk h buffer' := by
  obtain ⟨word, hchars, rfl, hlen⟩ := hb
  obtain ⟨word', hword', rfl⟩ := List.sublist_map_iff.mp hs
  exact ⟨word', fun c hc => hchars c (hword'.subset hc), rfl, hword'.length_le.trans hlen⟩

def IsTypoKey (key : ℕ) : Prop := ∃ c, IsTypoChar c ∧ key = typoCode c

theorem isTypoKey_letter {key : ℕ} (h1 : kcA ≤ key) (h2 : key ≤ 0x1D) : IsTypoKey key := by
  rw [kcA] at h1
  have : ∀ key, key < 30 → 4 ≤ key → IsTypoChar (Char.ofNat (key + 93)) ∧
      key = typoCode (Char.ofNat (key + 93)) := by decide
  exact ⟨_, this key (by omega) h1⟩

theorem isTypoKey_space : IsTypoKey kcSpc := ⟨':', .inr (.inl rfl), rfl⟩

theorem isTypoKey_quote : IsTypoKey kcQuot := ⟨'\x27', .inl rfl, rfl⟩

/-- What a key leaves in the buffer is text, and so is what it appends. -/
def Typed.Ok (h : Header) : Typed → Prop
  | .ignored buffer => BufferOk h buffer
  | .appended buffer key => BufferOk h buffer ∧ IsTypoKey key

theorem bufferCheck_ok {keycode mods : ℕ} (hb : BufferOk h buffer) :
    (bufferCheck keycode mods buffer).Ok h := by
  unfold bufferCheck
  split_ifs with h1 h2 h3 h4 h5 h6
  · exact ⟨hb, isTypoKey_letter h1.1 h1.2⟩
  · exact ⟨hb, isTypoKey_space⟩
  · exact ⟨bufferOk_nil, isTypoKey_space⟩
  · exact hb.sublist (List.dropLast_sublist _)
  · exact ⟨hb, isTypoKey_space⟩
  · exact ⟨hb, isTypoKey_quote⟩
  · exact bufferOk_nil

theorem typed_ok {f : Features} {e : Event} (hb : BufferOk h buffer) :
    (typed f e buffer).Ok h := by
  unfold typed
  split_ifs
  · cases defaultHandler f e with
    | escape => exact hb
    | reset => exact bufferOk_nil
    | goOn keycode mods => exact bufferCheck_ok hb
  · exact hb

theorem append_ok {key : ℕ} (hmax : 0 < h.maxLength) (hb : BufferOk h buffer)
    (hkey : IsTypoKey key) :
    (∀ a ∈ (append h buffer key).1, a.InBounds h) ∧ BufferOk h (append h buffer key).2 ∧
      (append h buffer key).2.getLast? = some key := by
  obtain ⟨word, hchars, rfl, hlen⟩ := hb
  obtain ⟨c, hc, rfl⟩ := hkey
  unfold append
  split_ifs with hfull
  · refine ⟨fun a ha => ?_, ⟨(word.drop 1).take (h.maxLength - 1) ++ [c], ?_, by simp, ?_⟩, by simp⟩
    · simp only [List.mem_append, List.mem_flatMap, List.mem_range, List.mem_cons,
        List.not_mem_nil, or_false] at ha
      rcases ha with ⟨i, hi, rfl | rfl⟩ | rfl <;> simp only [Access.InBounds] <;> omega
    · intro d hd
      rcases List.mem_append.mp hd with hd | hd
      · exact hchars d (List.mem_of_mem_drop (List.mem_of_mem_take hd))
      · exact List.mem_singleton.mp hd ▸ hc
    · simp
      omega
  · rw [List.length_map] at hfull
    refine ⟨fun a ha => ?_, ⟨word ++ [c], ?_, by simp, by simp; omega⟩, by simp⟩
    · rw [List.mem_singleton.mp ha]
      simpa [Access.InBounds] using hfull
    · intro d hd
      rcases List.mem_append.mp hd with hd | hd
      · exact hchars d hd
      · exact List.mem_singleton.mp hd ▸ hc

end Buffer

section LastWord

variable {h : Header} {buffer : List ℕ}

theorem scanWord_spec {i : ℕ} (hi : i < buffer.length) (typoLen : ℕ) :
    (∀ a ∈ (scanWord buffer i typoLen).1, ∃ j < buffer.length, a = .typoBuffer j) ∧
      (scanWord buffer i typoLen).2.1 + (scanWord buffer i typoLen).2.2 = i + typoLen ∧
      (scanWord buffer i typoLen).2.2 =
        typoLen + ((buffer.take i).reverse.takeWhile (· ≠ kcSpc)).length := by
  induction i generalizing typoLen with
  | zero => simp [scanWord]
  | succ i ih =>
    have hlt : i < buffer.length := by omega
    have hne : i + 1 ≠ buffer.length := by omega
    have hget : buffer.getD i 0 = buffer[i] := by
      rw [List.getD_eq_getElem?_getD, List.getElem?_eq_getElem hlt, Option.getD_some]
    have htake : (buffer.take (i + 1)).reverse = buffer[i] :: (buffer.take i).reverse := by
      rw [List.take_add_one, List.getElem?_eq_getElem hlt, Option.toList_some, List.reverse_append]
      rfl
    obtain ⟨hacc, hsum, hlen⟩ := ih hlt (typoLen + 1)
    rw [scanWord, hget, htake, List.takeWhile_cons]
    by_cases hspace : buffer[i] = kcSpc
    · rw [if_pos ⟨hspace, hne⟩]
      exact ⟨fun a ha => ⟨i, hlt, List.mem_singleton.mp ha⟩, rfl, by simp [hspace]⟩
    · rw [if_neg fun h => hspace h.1]
      refine ⟨fun a ha => ?_, by simp only; omega, ?_⟩
      · rcases List.mem_cons.mp ha with rfl | ha
        · exact ⟨i, hlt, rfl⟩
        · exact hacc a ha
      · simp only [hlen, hspace, ne_eq, not_false_eq_true, decide_true, if_true, List.length_cons]
        omega

/-- The loop over a buffer that is not empty counts its last word, with a word break behind it. -/
theorem scanWord_buffer (hne : buffer ≠ []) :
    (∀ a ∈ (scanWord buffer buffer.length 0).1, ∃ j < buffer.length, a = .typoBuffer j) ∧
      (scanWord buffer buffer.length 0).2.1 + (scanWord buffer buffer.length 0).2.2 =
        buffer.length ∧
      (scanWord buffer buffer.length 0).2.2 =
        lastWordLength buffer + if buffer.getLast? = some kcSpc then 1 else 0 := by
  obtain ⟨front, last, rfl⟩ : ∃ front last, buffer = front ++ [last] :=
    ⟨buffer.dropLast, buffer.getLast hne, (List.dropLast_append_getLast hne).symm⟩
  have hlength : (front ++ [last]).length = front.length + 1 := by simp
  have hlt : front.length < (front ++ [last]).length := by omega
  obtain ⟨hacc, hsum, hlen⟩ := scanWord_spec hlt 1
  rw [List.take_left' rfl] at hlen
  rw [hlength, scanWord, if_neg (by simp)]
  refine ⟨fun a ha => ?_, hsum, ?_⟩
  · rcases List.mem_cons.mp ha with rfl | ha
    · exact ⟨front.length, by omega, rfl⟩
    · simpa [hlength] using hacc a ha
  · simp only [lastWordLength, List.getLast?_append, List.getLast?_singleton, Option.some_or,
      Option.some.injEq, Nat.zero_add, hlen]
    split_ifs with hspace
    · simp
      omega
    · simp [hspace]
      omega

end LastWord

section Leaf

variable {h : Header} {buffer : List ℕ} {e : Autocorrection} {state : ℕ}

theorem sharedLength_le (as bs : List Char) : sharedLength as bs ≤ as.length := by
  induction as generalizing bs with
  | nil => simp [sharedLength]
  | cons a as ih =>
    cases bs with
    | nil => simp [sharedLength]
    | cons b bs =>
      rw [sharedLength]
      split_ifs
      · simpa using ih bs
      · simp

/-- The backspaces do not count a last letter, which has not been sent yet. -/
theorem backspaces_eq (h0 : 0 ≤ e.backspaces) :
    (if e.wordBoundaryEnding then e.backspaces.toNat else e.backspaces.toNat + 1) = e.replaced := by
  have hkept : e.kept ≤ (stripColons e.typo).length := sharedLength_le _ _
  rw [Autocorrection.replaced]
  rw [Autocorrection.backspaces] at h0 ⊢
  split_ifs at h0 ⊢ <;> omega

theorem takeWhile_append_zero (l later : List ℕ) :
    (l ++ 0 :: later).takeWhile (· ≠ 0) = l.takeWhile (· ≠ 0) := by
  induction l with
  | nil => rfl
  | cons x l ih =>
    rw [List.cons_append, List.takeWhile_cons, List.takeWhile_cons, ih]

theorem strLen_le (l : List ℕ) : strLen l ≤ l.length := (List.takeWhile_sublist _).length_le

theorem leaf_spec (hvalid : e.tableEntry.Valid)
    (hdata : serialize (fun _ => 0) e.tableEntry <+: h.data.drop state) :
    read h.data state &&& 63 = e.backspaces.toNat ∧
      readString h.data (state + 1) = e.changeCodes.takeWhile (· ≠ 0) ∧
      state + 1 + strLen e.changeCodes < h.data.length := by
  have hbyte := getElem?_of_prefix (i := 0) hdata (by simp [Autocorrection.tableEntry, serialize])
  rw [Nat.add_zero] at hbyte
  have hflags := flags_of_lt e.backspaces.toNat (by have := hvalid.1; omega)
  obtain ⟨later, hlater⟩ := hdata
  have hdrop : h.data.drop (state + 1) = e.changeCodes ++ 0 :: later := by
    rw [← List.drop_drop, ← hlater]
    simp [Autocorrection.tableEntry, serialize, Autocorrection.changeCodes]
  have hlength := congrArg List.length hdrop
  simp only [List.length_drop, List.length_append, List.length_cons] at hlength
  have hle := strLen_le e.changeCodes
  refine ⟨?_, ?_, by omega⟩
  · rw [read_of_getElem? hbyte]
    exact hflags.2.2.2.2.2.2
  · rw [readString, hdrop, takeWhile_append_zero]

/-- The text ends with a word break exactly if the typo does. -/
theorem getLast?_of_suffix (hne : e.typo ≠ []) (hchars : ∀ c ∈ e.typo, IsTypoChar c)
    (hs : e.typo.map typoCode <:+ buffer) :
    buffer.getLast? = some kcSpc ↔ e.wordBoundaryEnding := by
  obtain ⟨front, rfl⟩ := hs
  obtain ⟨init, last, htypo⟩ : ∃ init last, e.typo = init ++ [last] :=
    ⟨_, _, (List.dropLast_append_getLast hne).symm⟩
  have hlast : IsTypoChar last := hchars last (by simp [htypo])
  have hspace : kcSpc = typoCode ':' := rfl
  rw [Autocorrection.wordBoundaryEnding, htypo, List.map_append, List.map_singleton,
    ← List.append_assoc, List.getLast?_concat, List.getLast?_concat, hspace, Option.some.injEq,
    typoCode_inj hlast (.inr (.inl rfl))]
  simp

theorem forall_mem_flatMap_range {n : ℕ} {f : ℕ → List Access} {P : Access → Prop} :
    (∀ a ∈ (List.range n).flatMap f, P a) ↔ ∀ i < n, ∀ a ∈ f i, P a := by
  simp only [List.mem_flatMap, List.mem_range]
  exact ⟨fun h i hi a ha => h a ⟨i, hi, ha⟩, fun h a ⟨i, hi, ha⟩ => h i hi a ha⟩

/-- The replacement stays in bounds exactly if it starts in the last word and ends in time. -/
theorem buildStrings_inBounds_iff (hb : BufferOk h buffer) (hne : e.typo ≠ [])
    (hchars : ∀ c ∈ e.typo, IsTypoChar c) (hs : e.typo.map typoCode <:+ buffer)
    (hvalid : e.tableEntry.Valid)
    (hdata : serialize (fun _ => 0) e.tableEntry <+: h.data.drop state) :
    (∀ a ∈ buildStrings h.data buffer state, a.InBounds h) ↔
      e.replaced ≤ lastWordLength buffer ∧
        lastWordLength buffer - e.replaced + strLen e.changeCodes < h.maxLength + 10 := by
  have hbuf : buffer ≠ [] := by
    rintro rfl
    simp at hs
    exact hne hs
  obtain ⟨hscan, hsum, hlen⟩ := scanWord_buffer hbuf
  obtain ⟨hback, hstring, hend⟩ := leaf_spec hvalid hdata
  have hchanges : strLen (h.data.drop (state + 1)) = strLen e.changeCodes :=
    congrArg List.length hstring
  have hspace := getLast?_of_suffix hne hchars hs
  have hoffset := backspaces_eq hvalid.1.1
  have hlength : buffer.length ≤ h.maxLength := by
    obtain ⟨word, -, rfl, hword⟩ := hb
    simpa using hword
  have hpos := List.length_pos_of_ne_nil hbuf
  have htypoLen : (if decide (buffer.getLast? = some kcSpc) = true then
      (scanWord buffer buffer.length 0).2.2 - 1 else (scanWord buffer buffer.length 0).2.2) =
        lastWordLength buffer := by
    rw [hlen]
    by_cases hlast : buffer.getLast? = some kcSpc <;> simp [hlast]
  have hreplaced : (if decide (buffer.getLast? = some kcSpc) = true then
      read h.data state &&& 63 else (read h.data state &&& 63) + 1) = e.replaced := by
    rw [← hoffset, hback]
    simp only [decide_eq_true_eq, hspace]
  have hword : (scanWord buffer buffer.length 0).2.1 + lastWordLength buffer ≤ buffer.length := by
    rw [hlen] at hsum
    omega
  have htypo : strLen (((buffer.drop (scanWord buffer buffer.length 0).2.1).take
      (lastWordLength buffer)).map fun key => (key - kcA + 'a'.toNat) % 256) ≤
        lastWordLength buffer := by
    refine (strLen_le _).trans ?_
    rw [List.length_map]
    exact List.length_take_le _ _
  simp only [buildStrings, htypoLen, hreplaced, hchanges, List.forall_mem_append,
    List.cons_append, List.forall_mem_cons, forall_mem_flatMap_range, List.not_mem_nil,
    IsEmpty.forall_iff, implies_true, and_true]
  constructor
  · rintro ⟨-, -, hcorrect⟩
    have hfirst := (hcorrect 0 (by omega)).2
    have hlast := (hcorrect (strLen e.changeCodes) (by omega)).2
    simp only [Access.InBounds] at hfirst hlast
    omega
  · rintro ⟨hstart, hfinish⟩
    refine ⟨?_, ⟨⟨fun a ha => ?_, fun i hi => ?_⟩, fun i hi => ?_⟩, fun i hi => ?_⟩
    · simp only [Access.InBounds]
      omega
    · obtain ⟨j, hj, rfl⟩ := hscan a ha
      exact hj.trans_le hlength
    all_goals
      simp only [Access.InBounds]
      omega

end Leaf

section Main

variable {f : Features} {l : List Autocorrection} {h : Header} {s : State}

inductive Found (l : List Autocorrection) (h : Header) (buffer : List ℕ) : Option ℕ → Prop
  | none (hno : ∀ e ∈ l, ¬ e.typo.map typoCode <:+ buffer) : Found l h buffer .none
  | some {e state} (he : e ∈ l) (hs : e.typo.map typoCode <:+ buffer)
      (hunique : ∀ e' ∈ l, e'.typo.map typoCode <:+ buffer → e' = e) (hvalid : e.tableEntry.Valid)
      (hdata : serialize (fun _ => 0) e.tableEntry <+: h.data.drop state) :
      Found l h buffer (.some state)

theorem search_found (hg : Generated l h) {buffer : List ℕ} (hb : BufferOk h buffer) :
    (∀ a ∈ (search h.data buffer.reverse 0 (read h.data 0)).1, a.InBounds h) ∧
      Found l h buffer (search h.data buffer.reverse 0 (read h.data 0)).2 := by
  obtain ⟨word, hchars, rfl, hlen⟩ := hb
  have hfind (e : Autocorrection) : (makeTrie l).find word.reverse = some e ↔
      e ∈ l ∧ e.typo.map typoCode <:+ word.map typoCode := by
    rw [find_iff hg.accepted]
    exact and_congr_right fun he =>
      (suffix_map_typoCode (hg.accepted.isTypoChar e he) hchars).symm
  obtain ⟨hacc, hnone, hsome⟩ := search_spec (h := h) word.reverse
    (fun c hc => hchars c (List.mem_reverse.mp hc)) (by simpa using hlen)
    (makeTrie_proper hg.accepted) (makeTrie_leaf? hg.accepted) hg.encodes
  rw [List.map_reverse] at hacc hnone hsome
  refine ⟨hacc, ?_⟩
  cases hfound : (makeTrie l).find word.reverse with
  | none =>
    rw [hnone hfound]
    exact .none fun e he hs => nomatch hfound.symm.trans ((hfind e).mpr ⟨he, hs⟩)
  | some e =>
    obtain ⟨state, hstate, hvalid, hdata⟩ := hsome e hfound
    obtain ⟨he, hs⟩ := (hfind e).mp hfound
    rw [hstate]
    refine .some he hs (fun e' he' hs' => ?_) hvalid hdata
    exact Option.some.inj (((hfind e').mpr ⟨he', hs'⟩).symm.trans hfound)

/-- The key is searched for in bounds, and a typo that is found is replaced in bounds exactly if it
fits. -/
theorem autocorrect_inBounds_iff (hg : Generated l h) {buffer : List ℕ} (hb : BufferOk h buffer)
    {key : ℕ} (hkey : IsTypoKey key) :
    ((∀ a ∈ (autocorrect h s buffer key).accesses, a.InBounds h) ↔
      Fits l h (append h buffer key).2) ∧
      BufferOk h (autocorrect h s buffer key).state.typoBuffer := by
  obtain ⟨happend, hb', -⟩ := append_ok hg.maxLength_pos hb hkey
  unfold autocorrect
  generalize append h buffer key = a at *
  by_cases hmin : a.2.length < h.minLength
  · simp only [if_pos hmin]
    refine ⟨iff_of_true happend fun e he hs => absurd hs.length_le ?_, hb'⟩
    have hle := hg.minLength_le e he
    rw [List.length_map]
    omega
  obtain ⟨hacc, hfound⟩ := search_found hg hb'
  have hsearch : ∀ a' ∈ a.1 ++ .autocorrectData 0 ::
      (search h.data a.2.reverse 0 (read h.data 0)).1, a'.InBounds h := by
    refine List.forall_mem_append.mpr ⟨happend, List.forall_mem_cons.mpr ⟨?_, hacc⟩⟩
    exact hg.data_pos
  simp only [if_neg hmin]
  generalize search h.data a.2.reverse 0 (read h.data 0) = r at *
  obtain ⟨accesses, found⟩ := r
  change Found l h a.2 found at hfound
  cases hfound with
  | none hno => exact ⟨iff_of_true hsearch fun e he hs => absurd hs (hno e he), hb'⟩
  | @some e state he hs hunique hvalid hdata =>
    have hfits : Fits l h a.2 ↔ e.replaced ≤ lastWordLength a.2 ∧
        lastWordLength a.2 - e.replaced + strLen e.changeCodes < h.maxLength + 10 :=
      ⟨fun hfit => hfit e he hs, fun hfit e' he' hs' => hunique e' he' hs' ▸ hfit⟩
    have hbuild := buildStrings_inBounds_iff hb' (hg.accepted.typo_ne_nil e he)
      (hg.accepted.isTypoChar e he) hs hvalid hdata
    rw [hfits, ← hbuild]
    by_cases hspace : key = kcSpc
    · simp only [if_pos hspace]
      refine ⟨?_, bufferOk_space hg.maxLength_pos⟩
      rw [List.forall_mem_append, List.forall_mem_append]
      have hfirst : (Access.typoBuffer 0).InBounds h := hg.maxLength_pos
      exact ⟨fun h => h.1.2,
        fun h => ⟨⟨hsearch, h⟩, List.forall_mem_singleton.mpr hfirst⟩⟩
    · simp only [if_neg hspace]
      refine ⟨?_, bufferOk_nil⟩
      rw [List.forall_mem_append]
      exact and_iff_right hsearch

theorem processAutocorrect_inBounds_iff (hg : Generated l h) (hs : BufferOk h s.typoBuffer)
    (e : Event) :
    ((∀ a ∈ (processAutocorrect f h s e).accesses, a.InBounds h) ↔
      ∀ buffer ∈ searched f h s e, Fits l h buffer) ∧
      BufferOk h (processAutocorrect f h s e).state.typoBuffer := by
  by_cases hkey : (0x7C74 ≤ e.keycode ∧ e.keycode ≤ 0x7C76) ∧ e.pressed
  · have hsearched : searched f h s e = none := if_pos (.inl hkey)
    rw [hsearched, processAutocorrect, if_pos hkey]
    refine ⟨by simp, ?_⟩
    change BufferOk h (if e.keycode = 0x7C74 then s.typoBuffer else [])
    split_ifs
    · exact hs
    · exact bufferOk_nil
  by_cases hoff : ¬ s.enabled
  · have hsearched : searched f h s e = none := if_pos (.inr hoff)
    rw [hsearched, processAutocorrect, if_neg hkey, if_pos hoff]
    exact ⟨by simp, bufferOk_nil⟩
  · rw [searched, if_neg (not_or.mpr ⟨hkey, hoff⟩), processAutocorrect, if_neg hkey, if_neg hoff]
    have hok := typed_ok (f := f) (e := e) hs
    cases htyped : typed f e s.typoBuffer with
    | ignored buffer =>
      rw [htyped] at hok
      exact ⟨by simp, hok⟩
    | appended buffer key =>
      rw [htyped] at hok
      simpa using autocorrect_inBounds_iff (s := s) hg hok.1 hok.2

theorem run_inBounds_of_bufferOk (hg : Generated l h) (hs : BufferOk h s.typoBuffer)
    (events : List Event) :
    (∀ a ∈ runAccesses f h s events, a.InBounds h) ↔ RunFits f l h s events := by
  induction events generalizing s with
  | nil => simp [runAccesses, RunFits]
  | cons e events ih =>
    obtain ⟨hiff, hs'⟩ := processAutocorrect_inBounds_iff (f := f) hg hs e
    rw [runAccesses, RunFits, List.forall_mem_append, hiff, ih hs']

/-- Every access of a run is in bounds exactly if the typed text fits whenever it ends with a
typo. -/
theorem run_inBounds_iff {lines : List Autocorrection} (hg : generate lines = some (l, h))
    (f : Features) (enabled : Bool) (events : List Event) :
    (∀ a ∈ runAccesses f h { enabled } events, a.InBounds h) ↔
      RunFits f l h { enabled } events :=
  run_inBounds_of_bufferOk (generate_generated hg)
    (bufferOk_space (generate_generated hg).maxLength_pos) events

end Main

section Small

/-- Two entries of the default dictionary. -/
def smallDictionary : List Autocorrection :=
  [⟨":the:the:".toList, "the".toList⟩, ⟨"ouput".toList, "output".toList⟩]

def smallHeader : Header where
  data :=
    [108, 7, 0, 23, 18, 0, 0, 8, 11, 23, 44, 8, 11, 23, 44, 0, 132, 0, 24, 19, 24, 18, 0, 130, 116,
      112, 117, 116, 0]
  minLength := 5
  maxLength := 9

def typedKeys (keys : List Char) : List Event := keys.map fun c => { keycode := typoCode c }

theorem smallDictionary_generated :
    generate smallDictionary = some (smallDictionary, smallHeader) := by
  decide

theorem ouput_inBounds :
    generate smallDictionary = some (smallDictionary, smallHeader) ∧
      ∀ a ∈ runAccesses {} smallHeader {} (typedKeys "the:ouput".toList),
        a.InBounds smallHeader :=
  ⟨smallDictionary_generated, (run_inBounds_iff smallDictionary_generated {} true _).mpr
    (by decide)⟩

/-- The correction of a repeated word is built from the character before the array on. -/
theorem theThe_outside :
    generate smallDictionary = some (smallDictionary, smallHeader) ∧
      .correct (-1) ∈ runAccesses {} smallHeader {} (typedKeys "the:the:".toList) := by
  decide

end Small

end Qmk.Autocorrect
