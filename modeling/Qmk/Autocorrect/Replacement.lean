import Qmk.Autocorrect.Bounds
import Qmk.TypedText

/-! # What an autocorrection types

The search reports the entry of the typo that the typed text ends with. The backspaces and the text
that are sent make the correction out of the typo, except if the typo ends with two word breaks: the
first one of them is on the screen, but the backspaces do not count it. The text is sent with the
modifiers that are active, and bytes that no key types are lost or taken for something else.
-/

namespace Qmk.Autocorrect

open SendString (Screen IsShown Unaffected charByte typedText typedText_eq_iff)

section Conditions

/-- The typo without the word breaks at its start, which stay on the screen. -/
def Autocorrection.body (e : Autocorrection) : List Char := e.typo.dropWhile (· = ':')

/-- The screen when the event comes, with the text in front of the present key. -/
def Event.screen (ev : Event) (text : List Char) : Screen where
  text
  mods := BitVec.ofNat 8 ev.mods
  weakMods := BitVec.ofNat 8 ev.weakMods
  oneshotMods := BitVec.ofNat 8 ev.oneshotMods

/-- `tap_code(KC_BSPC)` for each backspace, and `send_string_P`. -/
def replaceText (f : Features) (sent : ℕ × List ℕ) (s : Screen) : Option Screen :=
  s.replace f.sendstringBell f.tapCodeDelay sent.1 (sent.2.map (BitVec.ofNat 8))

/-- Text that ends with the typo up to the present key becomes text that ends with the correction. A
word break at the end of the typo follows behind it. -/
def Corrects (f : Features) (ev : Event) (e : Autocorrection) (sent : ℕ × List ℕ)
    (continues : Bool) : Prop :=
  continues = e.wordBoundaryEnding ∧ ∀ front : List Char,
    (replaceText f sent (ev.screen (front ++ e.body.dropLast))).map (·.text) =
      some (front ++ e.correction)

/-- The typo does not end with two word breaks, and the correction has only characters that keys
type. -/
def Autocorrection.Clean (e : Autocorrection) : Prop :=
  ¬ [':', ':'] <:+ e.body ∧ ∀ c ∈ e.correction, IsShown c

instance : DecidablePred Autocorrection.Clean := fun _ => inferInstanceAs (Decidable (_ ∧ _))

/-- The active modifiers leave what is sent as it is: there is none but Shift, unless nothing is
sent, and no key that Shift is down for types something else with it. -/
def Event.Spares (ev : Event) (e : Autocorrection) : Prop :=
  if Screen.hasOther (ev.screen []).modsForReport then e.backspaces = 0 ∧ e.changes = []
  else Unaffected (ev.screen []).heldShift (ev.screen []).leftShift
    (Screen.hasShift (ev.screen []).oneshotMods && decide (e.backspaces = 0)) e.changes

instance (ev : Event) (e : Autocorrection) : Decidable (ev.Spares e) :=
  inferInstanceAs (Decidable (ite _ _ _))

/-- The call reports a match exactly if the buffer ends with a typo, and it sends what the entry of
the typo says, which corrects the text. -/
def Agrees (f : Features) (l : List Autocorrection) (ev : Event) (buffer : List ℕ) (r : Outcome) :
    Prop :=
  (r.sent.isSome ↔ ∃ e ∈ l, e.typo.map typoCode <:+ buffer) ∧
    ∀ e ∈ l, e.typo.map typoCode <:+ buffer →
      ∃ sent, r.sent = some sent ∧
        sent = (e.backspaces.toNat, e.changeCodes.takeWhile (· ≠ 0)) ∧
          Corrects f ev e sent r.continues

def RunAgrees (f : Features) (l : List Autocorrection) (h : Header) : State → List Event → Prop
  | _, [] => True
  | s, e :: events =>
    let r := processAutocorrect f h s e
    (∀ buffer ∈ searched f h s e, Agrees f l e buffer r) ∧ RunAgrees f l h r.state events

/-- Whenever the typed text ends with a typo, the entry of the typo is clean and the modifiers spare
it. -/
def RunClean (f : Features) (l : List Autocorrection) (h : Header) : State → List Event → Prop
  | _, [] => True
  | s, e :: events =>
    (∀ buffer ∈ searched f h s e, ∀ a ∈ l, a.typo.map typoCode <:+ buffer →
      a.Clean ∧ e.Spares a) ∧
      RunClean f l h (processAutocorrect f h s e).state events

instance RunClean.decidable (f : Features) (l : List Autocorrection) (h : Header) :
    ∀ s events, Decidable (RunClean f l h s events)
  | _, [] => .isTrue trivial
  | s, e :: events =>
    have := RunClean.decidable f l h (processAutocorrect f h s e).state events
    inferInstanceAs (Decidable ((∀ buffer ∈ searched f h s e, ∀ a ∈ l, _ → _) ∧ _))

end Conditions

section Text

variable {e : Autocorrection}

theorem take_sharedLength (as bs : List Char) :
    as.take (sharedLength as bs) = bs.take (sharedLength as bs) := by
  induction as generalizing bs with
  | nil => simp [sharedLength]
  | cons a as ih =>
    cases bs with
    | nil => simp [sharedLength]
    | cons b bs =>
      rw [sharedLength]
      split_ifs with h
      · rw [h, List.take_succ_cons, List.take_succ_cons, ih]
      · simp

theorem kept_append_changes (e : Autocorrection) :
    (stripColons e.typo).take e.kept ++ e.changes = e.correction := by
  rw [Autocorrection.kept, take_sharedLength]
  exact List.take_append_drop _ _

/-- The body is the typo without word breaks at its ends, with those at its end behind it. -/
theorem body_eq (e : Autocorrection) :
    ∃ k, e.body = stripColons e.typo ++ List.replicate k ':' ∧
      (stripColons e.typo).getLast? ≠ some ':' := by
  refine ⟨(e.body.rtakeWhile (· = ':')).length, ?_, fun hlast => ?_⟩
  · have hcolons : e.body.rtakeWhile (· = ':') =
        List.replicate (e.body.rtakeWhile (· = ':')).length ':' :=
      List.eq_replicate_of_mem fun c hc => by simpa using List.mem_rtakeWhile_imp hc
    rw [← hcolons]
    exact List.rdropWhile_append_rtakeWhile.symm
  · have hne : stripColons e.typo ≠ [] := by
      intro h
      rw [h] at hlast
      cases hlast
    have hnot := List.rdropWhile_last_not _ _ hne
    rw [List.getLast?_eq_getLast_of_ne_nil hne, Option.some.injEq] at hlast
    exact hnot (decide_eq_true hlast)

theorem twoBreaks_iff {k : ℕ} (hbody : e.body = stripColons e.typo ++ List.replicate k ':')
    (hlast : (stripColons e.typo).getLast? ≠ some ':') :
    ¬ [':', ':'] <:+ e.body ↔ k ≤ 1 := by
  rw [hbody]
  match k with
  | 0 =>
    refine iff_of_true (fun hs => hlast ?_) (by omega)
    obtain ⟨front, hfront⟩ := hs
    rw [List.replicate_zero, List.append_nil] at hfront
    simp [← hfront]
  | 1 =>
    refine iff_of_true (fun hs => hlast ?_) le_rfl
    obtain ⟨front, hfront⟩ := hs
    have hdrop := congrArg List.dropLast hfront
    simp at hdrop
    simp [← hdrop]
  | k + 2 =>
    refine iff_of_false (not_not.mpr ?_) (by omega)
    refine ⟨stripColons e.typo ++ List.replicate k ':', ?_⟩
    rw [List.append_assoc, ← List.replicate_append_replicate (n := k) (m := 2)]
    rfl

theorem wordBoundaryEnding_iff (hne : e.typo ≠ []) {k : ℕ}
    (hbody : e.body = stripColons e.typo ++ List.replicate k ':')
    (hlast : (stripColons e.typo).getLast? ≠ some ':') :
    e.wordBoundaryEnding ↔ (stripColons e.typo = [] ∨ 0 < k) := by
  have hsplit : e.typo = e.typo.takeWhile (· = ':') ++ e.body :=
    List.takeWhile_append_dropWhile.symm
  have hlead : ∀ c ∈ e.typo.takeWhile (· = ':'), c = ':' := fun c hc => by
    simpa using List.mem_takeWhile_imp hc
  rw [Autocorrection.wordBoundaryEnding, decide_eq_true_eq]
  by_cases hcore : stripColons e.typo = []
  · refine iff_of_true ?_ (.inl hcore)
    have hcolons : ∀ c ∈ e.typo, c = ':' := by
      intro c hc
      rw [hsplit, hbody, hcore, List.nil_append] at hc
      rcases List.mem_append.mp hc with hc | hc
      · exact hlead c hc
      · exact List.eq_of_mem_replicate hc
    rw [List.getLast?_eq_getLast_of_ne_nil hne, hcolons _ (List.getLast_mem hne)]
  · have hbodyLast : e.typo.getLast? = e.body.getLast? := by
      have hbodyNe : e.body ≠ [] := by simp [hbody, hcore]
      rw [hsplit, List.getLast?_append_of_ne_nil _ hbodyNe]
    rw [hbodyLast, hbody]
    cases k with
    | zero => simpa [hcore] using hlast
    | succ k => simp [hcore, List.replicate_succ']

/-- The text in which the first letters of the typo are kept, together with the word breaks at its
end that are on the screen. -/
theorem keptText_eq (hvalid : 0 ≤ e.backspaces) (hne : e.typo ≠ []) {k : ℕ}
    (hbody : e.body = stripColons e.typo ++ List.replicate k ':')
    (hlast : (stripColons e.typo).getLast? ≠ some ':') (front : List Char) :
    (front ++ e.body.dropLast).take ((front ++ e.body.dropLast).length - e.backspaces.toNat) =
      front ++ (stripColons e.typo ++ List.replicate (k - 1) ':').take (e.kept + (k - 1)) := by
  have hback := backspaces_eq hvalid
  have hkept : e.kept ≤ (stripColons e.typo).length := sharedLength_le _ _
  have hending := wordBoundaryEnding_iff hne hbody hlast
  rw [Autocorrection.replaced] at hback
  cases k with
  | zero =>
    rw [List.replicate_zero, List.append_nil] at hbody
    by_cases hcore : stripColons e.typo = []
    · rw [if_pos (hending.mpr (.inl hcore))] at hback
      rw [hcore] at hkept hback
      simp only [List.length_nil, Nat.le_zero] at hkept hback
      simp [hbody, hcore]
      omega
    · rw [if_neg fun h => by simpa [hcore] using hending.mp h] at hback
      have hlength : (front ++ (stripColons e.typo).dropLast).length - e.backspaces.toNat =
          front.length + e.kept := by
        rw [List.length_append, List.length_dropLast]
        omega
      rw [hbody, hlength, List.take_length_add_append, List.dropLast_eq_take, List.take_take]
      have hmin : min e.kept ((stripColons e.typo).length - 1) = e.kept := by omega
      simp [hmin]
  | succ k =>
    rw [if_pos (hending.mpr (.inr (by omega)))] at hback
    have hdrop : e.body.dropLast = stripColons e.typo ++ List.replicate k ':' := by
      rw [hbody, List.replicate_succ', ← List.append_assoc, List.dropLast_concat]
    have hlength : (front ++ (stripColons e.typo ++ List.replicate k ':')).length -
        e.backspaces.toNat = front.length + (e.kept + k) := by
      rw [List.length_append, List.length_append, List.length_replicate]
      omega
    rw [hdrop, hlength, List.take_length_add_append, Nat.add_sub_cancel]

/-- What is typed behind the kept text makes the correction if it is the changes and one word break
at most is left on the screen. -/
theorem typed_iff (hvalid : 0 ≤ e.backspaces) (hne : e.typo ≠ []) (typed : List Char)
    (hlength : typed.length = e.changes.length) :
    (∀ front, (front ++ e.body.dropLast).take
        ((front ++ e.body.dropLast).length - e.backspaces.toNat) ++ typed =
      front ++ e.correction) ↔ ¬ [':', ':'] <:+ e.body ∧ typed = e.changes := by
  obtain ⟨k, hbody, hlast⟩ := body_eq e
  have hkept : e.kept ≤ (stripColons e.typo).length := sharedLength_le _ _
  have hsplit := kept_append_changes e
  rw [twoBreaks_iff hbody hlast]
  simp only [keptText_eq hvalid hne hbody hlast]
  constructor
  · intro h
    have htext := (h []).trans hsplit.symm
    -- a second word break on the screen makes the text too long
    have hlong := congrArg List.length htext
    simp only [List.length_append, List.length_take, List.length_replicate, List.nil_append]
      at hlong
    have hk : k - 1 = 0 := by omega
    rw [hk, List.replicate_zero, List.append_nil, Nat.add_zero, List.nil_append] at htext
    exact ⟨by omega, List.append_cancel_left htext⟩
  · rintro ⟨hk, rfl⟩ front
    have hzero : k - 1 = 0 := by omega
    rw [hzero, List.replicate_zero, List.append_nil, Nat.add_zero, List.append_assoc, hsplit]

theorem IsTypoChar.isShown {c : Char} (h : IsTypoChar c) : IsShown c := by
  rcases h with rfl | rfl | ⟨hle, hle'⟩
  · decide
  · decide
  · have hspace : ' ' ≤ 'a' := by decide
    have htilde : 'z' ≤ '~' := by decide
    exact .inr (.inr ⟨Char.le_trans hspace hle, Char.le_trans hle' htilde⟩)

theorem sent_eq (hshown : ∀ c ∈ e.changes, IsShown c) :
    (e.changeCodes.takeWhile (· ≠ 0)).map (BitVec.ofNat 8) = e.changes.map charByte := by
  have hcodes : e.changeCodes.takeWhile (· ≠ 0) = e.changeCodes := by
    refine List.takeWhile_eq_self_iff.mpr fun code hcode => decide_eq_true ?_
    obtain ⟨c, hc, rfl⟩ := List.mem_map.mp hcode
    intro hzero
    exact (hshown c hc).typed.byte_ne_zero (by simp [charByte, hzero])
  rw [hcodes, Autocorrection.changeCodes, List.map_map]
  rfl

theorem corrects_iff (f : Features) (ev : Event) (hvalid : 0 ≤ e.backspaces) (hne : e.typo ≠ [])
    (hchars : ∀ c ∈ e.typo, IsTypoChar c) (continues : Bool)
    (hcontinues : continues = e.wordBoundaryEnding) :
    Corrects f ev e (e.backspaces.toNat, e.changeCodes.takeWhile (· ≠ 0)) continues ↔
      e.Clean ∧ ev.Spares e := by
  rw [Corrects, and_iff_right hcontinues, Autocorrection.Clean]
  -- what is on the screen in the end can be shown
  by_cases hshown : ∀ c ∈ e.correction, IsShown c
  swap
  · refine iff_of_false (fun h => hshown fun c hc => ?_) fun h => hshown h.1.2
    obtain ⟨s, hs, htext⟩ := Option.map_eq_some_iff.mp (h [])
    rw [List.nil_append] at htext
    rcases Screen.shown_replace hs c (htext ▸ hc) with hmem | hc
    · exact (hchars c ((List.dropWhile_suffix _).subset (List.dropLast_subset _ hmem))).isShown
    · exact hc
  have hchanges : ∀ c ∈ e.changes, IsShown c := fun c hc => hshown c (List.mem_of_mem_drop hc)
  have hbackspaces : e.backspaces.toNat = 0 ↔ e.backspaces = 0 := by omega
  rw [and_iff_left hshown, Event.Spares]
  simp only [replaceText, sent_eq hchanges]
  cases hother : Screen.hasOther (ev.screen []).modsForReport with
  | true =>
    have hreplace (text : List Char) := Screen.replace_of_hasOther f.sendstringBell f.tapCodeDelay
      hchanges e.backspaces.toNat (s := ev.screen text) hother
    simp only [hreplace, hbackspaces, if_true]
    by_cases hnone : e.backspaces = 0 ∧ e.changes = []
    · have htyped := typed_iff hvalid hne [] (by rw [hnone.2])
      simp only [hnone, Int.toNat_zero, Nat.sub_zero, List.take_length, List.append_nil,
        and_true] at htyped
      simpa only [hnone, and_true, if_true, Option.map_some, Option.some.injEq, Event.screen]
        using htyped
    · simp [hnone]
  | false =>
    have hreplace (text : List Char) := Screen.replace_chars f.sendstringBell f.tapCodeDelay
      hchanges e.backspaces.toNat (s := ev.screen text) hother
    simp only [hreplace, hbackspaces, Option.some.injEq, Bool.false_eq_true, if_false]
    rw [← typedText_eq_iff]
    exact typed_iff hvalid hne (typedText (ev.screen []).heldShift (ev.screen []).leftShift
      (Screen.hasShift (ev.screen []).oneshotMods && decide (e.backspaces = 0)) e.changes)
      SendString.length_typedText

end Text

section Main

variable {f : Features} {l : List Autocorrection} {h : Header} {s : State}

theorem agrees_of_not_found {ev : Event} {buffer : List ℕ} {r : Outcome} (hsent : r.sent = none)
    (hno : ∀ e ∈ l, ¬ e.typo.map typoCode <:+ buffer) :
    Agrees f l ev buffer r ↔
      ∀ e ∈ l, e.typo.map typoCode <:+ buffer → e.Clean ∧ ev.Spares e := by
  refine iff_of_true ⟨?_, fun e he hs => absurd hs (hno e he)⟩ fun e he hs => absurd hs (hno e he)
  rw [hsent]
  exact iff_of_false (by simp) fun ⟨e, he, hs⟩ => hno e he hs

/-- A call that searches agrees with the dictionary exactly if the typo that it finds is clean and
the modifiers spare it. -/
theorem autocorrect_agrees_iff (hg : Generated l h) (ev : Event) {buffer : List ℕ}
    (hb : BufferOk h buffer) {key : ℕ} (hkey : IsTypoKey key) :
    Agrees f l ev (append h buffer key).2 (autocorrect h s buffer key) ↔
      ∀ e ∈ l, e.typo.map typoCode <:+ (append h buffer key).2 → e.Clean ∧ ev.Spares e := by
  obtain ⟨-, hb', hlast⟩ := append_ok hg.maxLength_pos hb hkey
  unfold autocorrect
  generalize append h buffer key = a at *
  by_cases hmin : a.2.length < h.minLength
  · simp only [if_pos hmin]
    refine agrees_of_not_found rfl fun e he hs => absurd hs.length_le ?_
    have hle := hg.minLength_le e he
    rw [List.length_map]
    omega
  obtain ⟨-, hfound⟩ := search_found hg hb'
  simp only [if_neg hmin]
  generalize search h.data a.2.reverse 0 (read h.data 0) = r at *
  obtain ⟨accesses, found⟩ := r
  change Found l h a.2 found at hfound
  cases hfound with
  | none hno => exact agrees_of_not_found rfl hno
  | @some e state he hs hunique hvalid hdata =>
    obtain ⟨hback, hstring, -⟩ := leaf_spec hvalid hdata
    have hne := hg.accepted.typo_ne_nil e he
    have hchars := hg.accepted.isTypoChar e he
    have hspace := getLast?_of_suffix hne hchars hs
    rw [hlast, Option.some.injEq] at hspace
    have hclean : (∀ e' ∈ l, e'.typo.map typoCode <:+ a.2 → e'.Clean ∧ ev.Spares e') ↔
        e.Clean ∧ ev.Spares e :=
      ⟨fun hall => hall e he hs, fun hc e' he' hs' => hunique e' he' hs' ▸ hc⟩
    have hagrees {r : Outcome} (hsent : r.sent =
          some (read h.data state &&& 63, readString h.data (state + 1)))
        (hcontinues : r.continues = e.wordBoundaryEnding) :
        Agrees f l ev a.2 r ↔ e.Clean ∧ ev.Spares e := by
      rw [hback, hstring] at hsent
      rw [← corrects_iff f ev hvalid.1.1 hne hchars r.continues hcontinues]
      constructor
      · rintro ⟨-, hall⟩
        obtain ⟨sent, -, rfl, hcorrects⟩ := hall e he hs
        exact hcorrects
      · intro hcorrects
        refine ⟨iff_of_true (by simp [hsent]) ⟨e, he, hs⟩, fun e' he' hs' => ?_⟩
        obtain rfl := hunique e' he' hs'
        exact ⟨_, hsent, rfl, hcorrects⟩
    rw [hclean]
    by_cases hkeySpace : key = kcSpc
    · simp only [if_pos hkeySpace]
      exact hagrees rfl (hspace.mp hkeySpace).symm
    · simp only [if_neg hkeySpace]
      exact hagrees rfl (Bool.eq_false_iff.mpr fun h => hkeySpace (hspace.mpr h)).symm

theorem searched_eq_some {e : Event} {buffer : List ℕ} (hb : searched f h s e = some buffer) :
    ∃ front key, typed f e s.typoBuffer = .appended front key ∧
      buffer = (append h front key).2 ∧
      processAutocorrect f h s e = autocorrect h s front key := by
  rw [searched] at hb
  split_ifs at hb with hoff
  obtain ⟨hkey, hon⟩ := not_or.mp hoff
  rw [processAutocorrect, if_neg hkey, if_neg hon]
  cases htyped : typed f e s.typoBuffer with
  | ignored _ =>
    rw [htyped] at hb
    cases hb
  | appended front key =>
    rw [htyped] at hb
    exact ⟨front, key, rfl, (Option.some.inj hb).symm, rfl⟩

theorem run_agrees_of_bufferOk (hg : Generated l h) (hs : BufferOk h s.typoBuffer)
    (events : List Event) : RunAgrees f l h s events ↔ RunClean f l h s events := by
  induction events generalizing s with
  | nil => exact Iff.rfl
  | cons e events ih =>
    have hs' := (processAutocorrect_inBounds_iff (f := f) hg hs e).2
    refine and_congr (forall₂_congr fun buffer hbuffer => ?_) (ih hs')
    obtain ⟨front, key, htyped, rfl, hcall⟩ := searched_eq_some hbuffer
    have hok := typed_ok (f := f) (e := e) hs
    rw [htyped] at hok
    rw [hcall]
    exact autocorrect_agrees_iff hg e hok.1 hok.2

/-- A run agrees with the dictionary exactly if each typo that the typed text ends with is clean and
the modifiers spare it. -/
theorem run_agrees_iff {lines : List Autocorrection} (hg : generate lines = some (l, h))
    (f : Features) (enabled : Bool) (events : List Event) :
    RunAgrees f l h { enabled } events ↔ RunClean f l h { enabled } events :=
  run_agrees_of_bufferOk (generate_generated hg)
    (bufferOk_space (generate_generated hg).maxLength_pos) events

end Main

section Small

theorem smallDictionary_agrees :
    RunAgrees {} smallDictionary smallHeader {} (typedKeys "the:ouput".toList) :=
  (run_agrees_iff smallDictionary_generated {} true _).mpr (by decide)

/-- With left Shift down for the last key of `dontt`, a quotation mark comes out. -/
example : (replaceText {} (1, "\x27t".toList.map (·.toNat))
    { text := "dont".toList, mods := 0x02 }).map (·.text) = some "don\x22T".toList := by
  decide

/-- A typo with two word breaks at its end. -/
def twoBreaks : List Autocorrection := [⟨"teh::".toList, "the".toList⟩]

def twoBreaksHeader : Header where
  data := [44, 44, 11, 8, 23, 0, 130, 104, 101, 0]
  minLength := 5
  maxLength := 5

theorem twoBreaks_generated : generate twoBreaks = some (twoBreaks, twoBreaksHeader) := by
  decide

/-- After `teh` and a word break, a second one makes `tehe` instead of `the`. -/
theorem twoBreaks_disagrees :
    generate twoBreaks = some (twoBreaks, twoBreaksHeader) ∧
      ¬ RunAgrees {} twoBreaks twoBreaksHeader {} (typedKeys "teh::".toList) ∧
      (replaceText {} (2, "he".toList.map (·.toNat)) { text := "teh:".toList }).map (·.text) =
        some "tehe".toList := by
  refine ⟨twoBreaks_generated, fun hrun => ?_, by decide⟩
  have hclean := (run_agrees_of_bufferOk (generate_generated twoBreaks_generated)
    (bufferOk_space (by decide)) _).mp hrun
  exact absurd hclean (by decide)

end Small

end Qmk.Autocorrect
