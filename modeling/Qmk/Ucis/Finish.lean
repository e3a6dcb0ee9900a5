import Qmk.Ucis

/-! # Which entry a session ends with

Nothing ends the text in `input`, so that `match_mnemonic` reads on: to a zero, where it matches
each entry that begins with the text, or to what an earlier text has left there, or behind the
array. An entry is found by its name only where nothing is left behind the text, and no entry before
it begins with that name.
-/

namespace Qmk.Ucis

variable (cfg : Config)

section Matching

variable {s : State} {m t w : List (BitVec 8)} {j : ℕ}

/-- `match_mnemonic` does not end at this index. -/
def GoesOn (input : Mem (BitVec 8)) (count : ℕ) (m : List (BitVec 8)) (l : ℕ) : Prop :=
  input l ≠ 0 ∧ l ≤ count ∧ input l = m.getD l 0

theorem matchFrom_stops {input : Mem (BitVec 8)} {count i : ℕ} (fuel : ℕ)
    (h : ¬ GoesOn input count m i) :
    matchFrom input count m (fuel + 1) i = (decide (input i = 0), [i]) := by
  rw [matchFrom]
  rcases eq_or_ne (input i) 0 with h0 | h0
  · simp [h0]
  · have hn : count < i ∨ input i ≠ m.getD i 0 := by
      by_contra hc
      rw [not_or, Nat.not_lt, not_not] at hc
      exact h ⟨h0, hc⟩
    rw [if_neg h0, if_pos hn, decide_eq_false h0]

theorem matchFrom_goesOn {input : Mem (BitVec 8)} {count i : ℕ} (fuel : ℕ)
    (h : GoesOn input count m i) :
    matchFrom input count m (fuel + 1) i =
      ((matchFrom input count m fuel (i + 1)).1,
        i :: (matchFrom input count m fuel (i + 1)).2) := by
  obtain ⟨h0, hi, hm⟩ := h
  rw [matchFrom, if_neg h0, if_neg (not_or.mpr ⟨Nat.not_lt.mpr hi, not_not_intro hm⟩)]

theorem mem_reads_iff {input : Mem (BitVec 8)} {count : ℕ} :
    ∀ {fuel i}, i ≤ count + 1 → count + 2 ≤ i + fuel →
      (j ∈ (matchFrom input count m fuel i).2 ↔
        i ≤ j ∧ ∀ l, i ≤ l → l < j → GoesOn input count m l)
  | 0, i, hi, hf => by omega
  | fuel + 1, i, hi, hf => by
    by_cases hg : GoesOn input count m i
    · have hle : i ≤ count := hg.2.1
      rw [matchFrom_goesOn fuel hg, List.mem_cons,
        mem_reads_iff (Nat.succ_le_succ hle) (by omega)]
      constructor
      · rintro (rfl | ⟨hj, h⟩)
        · exact ⟨Nat.le_refl _, fun l hl hl' => absurd hl (Nat.not_le.mpr hl')⟩
        · refine ⟨by omega, fun l hl hl' => ?_⟩
          rcases Nat.eq_or_lt_of_le hl with rfl | hl
          · exact hg
          · exact h l hl hl'
      · rintro ⟨hj, h⟩
        rcases Nat.eq_or_lt_of_le hj with rfl | hj
        · exact .inl rfl
        · exact .inr ⟨hj, fun l hl => h l (by omega)⟩
    · rw [matchFrom_stops fuel hg, List.mem_singleton]
      constructor
      · rintro rfl
        exact ⟨Nat.le_refl _, fun l hl hl' => absurd hl (Nat.not_le.mpr hl')⟩
      · rintro ⟨hj, h⟩
        rcases Nat.eq_or_lt_of_le hj with rfl | hj
        · rfl
        · exact absurd (h i (Nat.le_refl i) hj) hg

theorem matchFrom_iff {input : Mem (BitVec 8)} {count : ℕ} :
    ∀ {fuel i}, i ≤ count + 1 → count + 2 ≤ i + fuel →
      ((matchFrom input count m fuel i).1 = true ↔
        ∃ j ∈ (matchFrom input count m fuel i).2, input j = 0)
  | 0, i, hi, hf => by omega
  | fuel + 1, i, hi, hf => by
    by_cases hg : GoesOn input count m i
    · have hle : i ≤ count := hg.2.1
      rw [matchFrom_goesOn fuel hg, matchFrom_iff (Nat.succ_le_succ hle) (by omega)]
      simp only [List.mem_cons, exists_eq_or_imp, hg.1, false_or]
    · simp [matchFrom_stops fuel hg]

theorem mem_matchMnemonic :
    j ∈ (matchMnemonic s m).2 ↔ ∀ l < j, GoesOn s.input s.count m l := by
  simp [matchMnemonic, mem_reads_iff]

theorem matchMnemonic_iff :
    (matchMnemonic s m).1 = true ↔
      ∃ j, (∀ l < j, GoesOn s.input s.count m l) ∧ s.input j = 0 := by
  rw [matchMnemonic, matchFrom_iff (Nat.zero_le _) (by omega)]
  exact exists_congr fun j => and_congr_left' mem_matchMnemonic

theorem forall_goesOn_iff {input : Mem (BitVec 8)} {count : ℕ}
    (hw : ∀ l (h : l < w.length), input l = w[l]) (h0 : 0 ∉ w) (hc : w.length ≤ count + 1) :
    (∀ l < w.length, GoesOn input count m l) ↔ w <+: m := by
  rw [List.prefix_iff_getElem?]
  constructor
  · intro h l hl
    obtain ⟨hne, -, he⟩ := h l hl
    rcases Nat.lt_or_ge l m.length with hm | hm
    · rw [List.getElem?_eq_getElem hm, ← hw l hl, he, List.getD_eq_getElem _ _ hm]
    · rw [List.getD_eq_default _ _ hm] at he
      exact absurd he hne
  · intro h l hl
    refine ⟨fun hz => h0 ?_, by omega, ?_⟩
    · rw [← hz, hw l hl]
      exact List.getElem_mem hl
    · rw [List.getD_eq_getElem?_getD, h l hl, hw l hl, Option.getD_some]

end Matching

section Entries

/-- A session with the text `t`. -/
structure Holding (s : State) (t : List (BitVec 8)) : Prop where
  active : s.active = true
  count_le : s.count ≤ cfg.maxInputLength
  chars : s.input.read 0 s.count = t
  nul_not_mem : 0 ∉ t

/-- An entry that is rightly passed over. Where a character is left behind the text, it is not the
text itself, and has that character behind the text only if yet another one is left; else it does
not begin with the text. -/
def Passed (s : State) (t m : List (BitVec 8)) : Prop :=
  if s.count < cfg.maxInputLength ∧ s.input s.count ≠ 0 then
    m ≠ t ∧ (t ++ [s.input s.count] <+: m →
      s.count + 1 < cfg.maxInputLength ∧ s.input (s.count + 1) ≠ 0)
  else ¬ t <+: m

variable {cfg} {s : State} {t : List (BitVec 8)} {m : List (BitVec 8)}

theorem Holding.length_eq (h : Holding cfg s t) : t.length = s.count := by
  rw [← h.chars, Mem.length_read]

theorem Holding.goesOn_text (h : Holding cfg s t) :
    (∀ l < s.count, GoesOn s.input s.count m l) ↔ t <+: m := by
  have ht : ∀ l (hl : l < t.length), s.input l = t[l] := by
    intro l hl
    simp [← h.chars]
  rw [← h.length_eq]
  exact forall_goesOn_iff ht h.nul_not_mem (by rw [h.length_eq]; exact Nat.le_succ _)

theorem Holding.goesOn_left (h : Holding cfg s t) (hc : s.input s.count ≠ 0) :
    (∀ l < s.count + 1, GoesOn s.input s.count m l) ↔ t ++ [s.input s.count] <+: m := by
  have hl : (t ++ [s.input s.count]).length = s.count + 1 := by
    rw [List.length_append, h.length_eq, List.length_singleton]
  have ht : ∀ l (hl : l < (t ++ [s.input s.count]).length),
      s.input l = (t ++ [s.input s.count])[l] := by
    intro l hl'
    rcases Nat.lt_or_ge l t.length with hlt | hge
    · rw [List.getElem_append_left hlt]
      simp [← h.chars]
    · obtain rfl : l = s.count := by rw [h.length_eq] at hge; omega
      simp [h.length_eq]
  have h0 : (0 : BitVec 8) ∉ t ++ [s.input s.count] := by
    rw [List.mem_append, List.mem_singleton, not_or]
    exact ⟨h.nul_not_mem, hc.symm⟩
  rw [← forall_goesOn_iff ht h0 (Nat.le_of_eq hl), hl]

theorem not_goesOn_of_lt {l : ℕ} (h : s.count < l) : ¬ GoesOn s.input s.count m l :=
  fun hg => Nat.not_le.mpr h hg.2.1

theorem Holding.match_iff (h : Holding cfg s t) :
    (matchMnemonic s m).1 = true ↔
      (s.input s.count = 0 ∧ t <+: m) ∨
        (s.input s.count ≠ 0 ∧ s.input (s.count + 1) = 0 ∧ t ++ [s.input s.count] <+: m) := by
  rw [matchMnemonic_iff]
  constructor
  · rintro ⟨j, hj, h0⟩
    rcases Nat.lt_trichotomy j s.count with hlt | rfl | hgt
    · have hl : j < t.length := h.length_eq ▸ hlt
      have hm : t[j] = s.input j := by simp [← h.chars]
      exact absurd (List.getElem_mem hl) (hm.trans h0 ▸ h.nul_not_mem)
    · exact .inl ⟨h0, h.goesOn_text.mp hj⟩
    · have hc : s.input s.count ≠ 0 := (hj _ hgt).1
      obtain rfl : j = s.count + 1 := by
        by_contra hne
        exact not_goesOn_of_lt (Nat.lt_succ_self _) (hj (s.count + 1) (by omega))
      exact .inr ⟨hc, h0, (h.goesOn_left hc).mp hj⟩
  · rintro (⟨h0, hp⟩ | ⟨hc, h0, hp⟩)
    · exact ⟨s.count, h.goesOn_text.mpr hp, h0⟩
    · exact ⟨s.count + 1, (h.goesOn_left hc).mpr hp, h0⟩

/-- No read of an entry's loop is behind the array. -/
def Within (cfg : Config) (s : State) (m : List (BitVec 8)) : Prop :=
  ∀ j ∈ (matchMnemonic s m).2, j < cfg.maxInputLength

theorem within_iff :
    Within cfg s m ↔ ¬ ∀ l < cfg.maxInputLength, GoesOn s.input s.count m l := by
  constructor
  · intro h hg
    exact absurd (h _ (mem_matchMnemonic.mpr hg)) (Nat.lt_irrefl _)
  · intro h j hj
    by_contra hle
    exact h fun l hl => mem_matchMnemonic.mp hj l (Nat.lt_of_lt_of_le hl (Nat.not_lt.mp hle))

theorem Holding.within_iff_of_lt (h : Holding cfg s t) (hc : s.count < cfg.maxInputLength) :
    Within cfg s m ↔
      (s.input s.count ≠ 0 → t ++ [s.input s.count] <+: m → s.count + 1 < cfg.maxInputLength) := by
  rw [within_iff]
  constructor
  · intro hw hne hp
    by_contra hle
    obtain he : cfg.maxInputLength = s.count + 1 := by omega
    exact hw (he ▸ (h.goesOn_left hne).mpr hp)
  · intro hw hg
    have hne : s.input s.count ≠ 0 := (hg _ hc).1
    rcases Nat.lt_or_ge (s.count + 1) cfg.maxInputLength with hlt | hge
    · exact not_goesOn_of_lt (Nat.lt_succ_self _) (hg _ hlt)
    · obtain he : cfg.maxInputLength = s.count + 1 := by omega
      exact Nat.not_lt.mpr hge (hw hne ((h.goesOn_left hne).mp (he ▸ hg)))

theorem Holding.within_iff_of_full (h : Holding cfg s t) (hc : s.count = cfg.maxInputLength) :
    Within cfg s m ↔ ¬ t <+: m := by
  rw [within_iff, ← hc, h.goesOn_text]

theorem Holding.passed_iff (h : Holding cfg s t) :
    ((matchMnemonic s m).1 = false ∧ Within cfg s m ∧ m ≠ t) ↔ Passed cfg s t m := by
  have hpre : t ++ [s.input s.count] <+: m → t <+: m := (List.prefix_append _ _).trans
  rw [← Bool.not_eq_true, h.match_iff, Passed]
  rcases Nat.eq_or_lt_of_le h.count_le with hc | hc
  · rw [if_neg fun hlt => Nat.ne_of_lt hlt.1 hc, h.within_iff_of_full hc]
    constructor
    · rintro ⟨-, hp, -⟩
      exact hp
    · intro hp
      refine ⟨?_, hp, ?_⟩
      · rintro (⟨-, hq⟩ | ⟨-, -, hq⟩)
        · exact hp hq
        · exact hp (hpre hq)
      · rintro rfl
        exact hp List.prefix_rfl
  · rw [h.within_iff_of_lt hc]
    by_cases h0 : s.input s.count = 0
    · rw [if_neg fun hlt => hlt.2 h0]
      simp only [h0, ne_eq, not_true_eq_false, true_and, false_and, or_false, false_implies]
      constructor
      · exact And.left
      · rintro hp
        refine ⟨hp, ?_⟩
        rintro rfl
        exact hp List.prefix_rfl
    · rw [if_pos ⟨hc, h0⟩]
      simp only [h0, ne_eq, not_false_eq_true, true_and, false_and, false_or, true_implies]
      constructor
      · rintro ⟨hn, hw, hne⟩
        exact ⟨hne, fun hp => ⟨hw hp, fun hz => hn ⟨hz, hp⟩⟩⟩
      · rintro ⟨hne, hp⟩
        exact ⟨fun hn => (hp hn.2).2 hn.1, fun hq => (hp hq).1, hne⟩

theorem Holding.found_iff (h : Holding cfg s t) :
    ((matchMnemonic s t).1 = true ∧ Within cfg s t) ↔
      s.count < cfg.maxInputLength ∧ s.input s.count = 0 := by
  have hno : ¬ t ++ [s.input s.count] <+: t := by
    intro hp
    have hl := hp.length_le
    rw [List.length_append, List.length_singleton] at hl
    omega
  rw [h.match_iff]
  constructor
  · rintro ⟨⟨h0, -⟩ | ⟨-, -, hp⟩, hw⟩
    · refine ⟨Nat.lt_of_le_of_ne h.count_le fun hc => ?_, h0⟩
      exact (h.within_iff_of_full hc).mp hw List.prefix_rfl
    · exact absurd hp hno
  · rintro ⟨hc, h0⟩
    exact ⟨.inl ⟨h0, List.prefix_rfl⟩, (h.within_iff_of_lt hc).mpr fun _ hp => absurd hp hno⟩

end Entries

section Searching

variable {cfg} {s : State} {r r' : Search} {e : Symbol} {before after : List Symbol}

abbrev Missed (s : State) (e : Symbol) : Prop := (matchMnemonic s e.mnemonic).1 = false

def readsOf (s : State) (es : List Symbol) : List ℕ :=
  es.flatMap fun e => (matchMnemonic s e.mnemonic).2

/-- The loop of `ucis_finish` ends, and with this. -/
def Ends (cfg : Config) (s : State) (r : Search) : Prop := ∃ fuel, findSymbol cfg s fuel 0 = some r

theorem findSymbol_of_missed {i : ℕ} (fuel : ℕ) (he : cfg.table[i]? = some e) (hm : Missed s e) :
    findSymbol cfg s (fuel + 1) i = (findSymbol cfg s fuel ((i + 1) % 256)).map fun r =>
      ⟨r.found, (matchMnemonic s e.mnemonic).2 ++ r.reads⟩ := by
  simp only [findSymbol, he, hm, Bool.false_eq_true, if_false]

theorem findSymbol_of_found {i : ℕ} (fuel : ℕ) (he : cfg.table[i]? = some e) (hm : ¬ Missed s e) :
    findSymbol cfg s (fuel + 1) i = some ⟨some i, (matchMnemonic s e.mnemonic).2⟩ := by
  rw [Bool.not_eq_false] at hm
  simp only [findSymbol, he, hm, if_true]

theorem findSymbol_succ :
    ∀ {fuel i r}, findSymbol cfg s fuel i = some r → findSymbol cfg s (fuel + 1) i = some r
  | 0, _, _, h => nomatch h
  | fuel + 1, i, r, h => by
    cases he : cfg.table[i]? with
    | none =>
      simp only [findSymbol, he] at h ⊢
      exact h
    | some e =>
      by_cases hm : Missed s e
      · rw [findSymbol_of_missed _ he hm, Option.map_eq_some_iff] at h ⊢
        obtain ⟨r', hr, rfl⟩ := h
        exact ⟨r', findSymbol_succ hr, rfl⟩
      · rw [findSymbol_of_found _ he hm] at h ⊢
        exact h

theorem findSymbol_add {fuel i : ℕ} (h : findSymbol cfg s fuel i = some r) :
    ∀ n, findSymbol cfg s (fuel + n) i = some r
  | 0 => h
  | n + 1 => findSymbol_succ (findSymbol_add h n)

theorem Ends.unique (h : Ends cfg s r) (h' : Ends cfg s r') : r = r' := by
  obtain ⟨fuel, hr⟩ := h
  obtain ⟨fuel', hr'⟩ := h'
  have he := findSymbol_add hr fuel'
  rw [Nat.add_comm, findSymbol_add hr' fuel] at he
  exact (Option.some_inj.mp he).symm

theorem findSymbol_skip (fuel : ℕ) : ∀ {done before after : List Symbol},
    cfg.table = done ++ before ++ after → (done ++ before).length < 256 →
    (∀ e ∈ before, Missed s e) →
    findSymbol cfg s (fuel + before.length) done.length =
      (findSymbol cfg s fuel (done ++ before).length).map fun r =>
        ⟨r.found, readsOf s before ++ r.reads⟩
  | done, [], after, _, _, _ => by simp [readsOf]
  | done, e :: before, after, ht, hl, hm => by
    have he : cfg.table[done.length]? = some e := by simp [ht]
    have hn : (done.length + 1) % 256 = (done ++ [e]).length := by
      rw [List.length_append, List.length_singleton]
      simp only [List.length_append, List.length_cons] at hl
      omega
    have hd : done ++ [e] ++ before = done ++ e :: before := by simp
    rw [List.length_cons, ← Nat.add_assoc, findSymbol_of_missed _ he (hm e List.mem_cons_self), hn,
      findSymbol_skip fuel (hd ▸ ht) (hd ▸ hl) fun e' he' => hm e' (List.mem_cons_of_mem e he'), hd,
      Option.map_map]
    simp [Function.comp_def, readsOf]

/-- The index wraps, so that the loop does not end behind 256 entries that it does not find. -/
theorem findSymbol_never (h : ∀ i < 256, ∃ e, cfg.table[i]? = some e ∧ Missed s e) :
    ∀ {fuel i}, i < 256 → findSymbol cfg s fuel i = none
  | 0, _, _ => rfl
  | fuel + 1, i, hi => by
    obtain ⟨e, he, hm⟩ := h i hi
    rw [findSymbol_of_missed fuel he hm, findSymbol_never h (Nat.mod_lt _ (by decide)),
      Option.map_none]

theorem ends_found (ht : cfg.table = before ++ e :: after) (hl : before.length < 256)
    (hb : ∀ e ∈ before, Missed s e) (he : ¬ Missed s e) :
    Ends cfg s ⟨some before.length, readsOf s (before ++ [e])⟩ := by
  have ht' : cfg.table = [] ++ before ++ e :: after := ht
  have hs : findSymbol cfg s (1 + before.length) 0 = _ := findSymbol_skip 1 ht' hl hb
  have hf : cfg.table[before.length]? = some e := by simp [ht]
  rw [List.nil_append, findSymbol_of_found 0 hf he] at hs
  exact ⟨_, by simpa [readsOf] using hs⟩

theorem ends_not_found (hl : cfg.table.length < 256) (hb : ∀ e ∈ cfg.table, Missed s e) :
    Ends cfg s ⟨none, readsOf s cfg.table⟩ := by
  have ht : cfg.table = [] ++ cfg.table ++ [] := by simp
  have hs : findSymbol cfg s (1 + cfg.table.length) 0 = _ := findSymbol_skip 1 ht hl hb
  refine ⟨_, hs.trans ?_⟩
  simp [findSymbol, readsOf]

/-- The search ends with the first entry that is found among the first 256, or behind a table of
fewer entries. -/
theorem ends_iff :
    Ends cfg s r ↔
      (∃ before e after, cfg.table = before ++ e :: after ∧ before.length < 256 ∧
        (∀ e ∈ before, Missed s e) ∧ ¬ Missed s e ∧
        r = ⟨some before.length, readsOf s (before ++ [e])⟩) ∨
      (cfg.table.length < 256 ∧ (∀ e ∈ cfg.table, Missed s e) ∧
        r = ⟨none, readsOf s cfg.table⟩) := by
  constructor
  · intro h
    cases hf : (cfg.table.take 256).find? fun e => (matchMnemonic s e.mnemonic).1 with
    | none =>
      have hm : ∀ e ∈ cfg.table.take 256, Missed s e := by simpa using hf
      rcases Nat.lt_or_ge cfg.table.length 256 with hl | hl
      · rw [List.take_of_length_le (Nat.le_of_lt hl)] at hm
        exact .inr ⟨hl, hm, h.unique (ends_not_found hl hm)⟩
      · obtain ⟨fuel, hr⟩ := h
        rw [findSymbol_never (fun i hi => ?_) (by decide)] at hr
        · exact nomatch hr
        · have hi' : i < cfg.table.length := by omega
          exact ⟨_, List.getElem?_eq_getElem hi',
            hm _ (List.mem_take_iff_getElem.mpr ⟨i, by omega, rfl⟩)⟩
    | some e =>
      obtain ⟨he, before, rest, ht, hb⟩ := List.find?_eq_some_iff_append.mp hf
      have hlen : before.length < 256 := by
        have hl := congrArg List.length ht
        rw [List.length_take, List.length_append, List.length_cons] at hl
        omega
      have htable : cfg.table = before ++ e :: (rest ++ cfg.table.drop 256) := by
        rw [← List.cons_append, ← List.append_assoc, ← ht, List.take_append_drop]
      have hb' : ∀ e ∈ before, Missed s e := by simpa using hb
      have he' : ¬ Missed s e := by simp [he]
      exact .inl ⟨before, e, _, htable, hlen, hb', he',
        h.unique (ends_found htable hlen hb' he')⟩
  · rintro (⟨before, e, after, ht, hl, hb, he, rfl⟩ | ⟨hl, hb, rfl⟩)
    · exact ends_found ht hl hb he
    · exact ends_not_found hl hb

end Searching

section Outcome

/-- Where an entry is first in the table, if it is there. -/
def firstNamed (t : List (BitVec 8)) : Option ℕ := cfg.table.findIdx? (·.mnemonic = t)

/-- The calls of `ucis_finish` for what its loop has found behind `n` characters. -/
def endCalls (n : ℕ) : Option ℕ → List Call
  | some i => List.replicate (n + 1) .tapBackspace ++ registerUcis cfg i
  | none => []

/-- A press of the key ends the session: the text with the symbol before it is replaced by the first
entry with this name, or by nothing without one, and no read of `input` is behind the array. -/
def Inserts (t : List (BitVec 8)) (keycode : Keycode) (s : State) : Prop :=
  ∃ fuel s' reads, processUcis cfg fuel keycode true s = some (false, s') ∧
    s'.calls = s.calls ++ endCalls cfg t.length (firstNamed cfg t) ∧
    s'.reads = s.reads ++ reads ∧ ∀ j ∈ reads, j < cfg.maxInputLength

/-- Nothing is left behind the text, and the first entry that begins with the text, which the index
reaches, is no longer than it; or each entry is to be passed over, and the index reaches the end of
the table. -/
def Told (t : List (BitVec 8)) (s : State) : Prop :=
  (s.count < cfg.maxInputLength ∧ s.input s.count = 0 ∧
    ∃ before e after, cfg.table = before ++ e :: after ∧ before.length < 256 ∧ e.mnemonic = t ∧
      ∀ e ∈ before, ¬ t <+: e.mnemonic) ∨
  (cfg.table.length < 256 ∧ ∀ e ∈ cfg.table, Passed cfg s t e.mnemonic)

variable {cfg} {s : State} {t : List (BitVec 8)} {keycode : Keycode}

theorem endCalls_injective (n : ℕ) : Function.Injective (endCalls cfg n) := by
  have hne : ∀ i, endCalls cfg n (some i) ≠ [] := by
    intro i
    simp [endCalls]
  rintro (_ | i) (_ | j) h
  · rfl
  · exact absurd h.symm (hne j)
  · exact absurd h (hne i)
  · have hr := List.append_cancel_left h
    rw [registerUcis, registerUcis, List.cons.injEq, Call.registerUcis.injEq] at hr
    rw [hr.1]

theorem processUcis_end (h : Holding cfg s t) (hk : keycode = kcSpace ∨ keycode = kcEnter)
    (fuel : ℕ) :
    processUcis cfg fuel keycode true s = (findSymbol cfg s fuel 0).map fun r =>
      (false, { s with active := false, calls := s.calls ++ endCalls cfg t.length r.found,
                       reads := s.reads ++ r.reads }) := by
  have hadd : ucisAdd keycode s = (false, s) := by
    rcases hk with rfl | rfl <;> rfl
  have hb : keycode ≠ kcBackspace ∧ keycode ≠ kcEscape := by
    rcases hk with rfl | rfl <;> decide
  have hs : ¬ (cfg.maxInputLength ≤ s.count ∧ ¬ (keycode = kcSpace ∨ keycode = kcEnter ∨
      keycode = kcEscape ∨ keycode = kcBackspace)) := by
    rintro ⟨-, hn⟩
    exact hn (hk.imp_right .inl)
  rw [processUcis, if_pos ⟨h.active, rfl⟩, if_neg hs]
  simp only [hadd, hb.1, hb.2, hk, Bool.false_eq_true, if_true, if_false, ucisFinish,
    Option.map_map, Function.comp_def, h.length_eq]
  refine Option.map_congr fun r _ => ?_
  rcases r with ⟨_ | i, reads⟩ <;> rfl

theorem inserts_iff_ends (h : Holding cfg s t) (hk : keycode = kcSpace ∨ keycode = kcEnter) :
    Inserts cfg t keycode s ↔ ∃ r, Ends cfg s r ∧ r.found = firstNamed cfg t ∧
      ∀ j ∈ r.reads, j < cfg.maxInputLength := by
  simp only [Inserts, processUcis_end h hk, Option.map_eq_some_iff, Prod.mk.injEq, true_and]
  constructor
  · rintro ⟨fuel, _, reads, ⟨r, hr, rfl⟩, hc, hrs, hb⟩
    obtain rfl := List.append_cancel_left hrs
    exact ⟨r, ⟨fuel, hr⟩, endCalls_injective _ (List.append_cancel_left hc), hb⟩
  · rintro ⟨r, ⟨fuel, hr⟩, hf, hb⟩
    exact ⟨fuel, _, r.reads, ⟨r, hr, rfl⟩, by rw [hf], rfl, hb⟩

theorem reads_within_iff {es : List Symbol} :
    (∀ j ∈ readsOf s es, j < cfg.maxInputLength) ↔ ∀ e ∈ es, Within cfg s e.mnemonic := by
  simp only [readsOf, List.mem_flatMap, forall_exists_index, and_imp, Within]
  exact ⟨fun h e he j hj => h j e he hj, fun h j e he hj => h e he j hj⟩

theorem firstNamed_eq_none : firstNamed cfg t = none ↔ ∀ e ∈ cfg.table, e.mnemonic ≠ t := by
  simp [firstNamed]

theorem firstNamed_eq_some {before after : List Symbol} {e : Symbol}
    (ht : cfg.table = before ++ e :: after) :
    firstNamed cfg t = some before.length ↔ e.mnemonic = t ∧ ∀ e ∈ before, e.mnemonic ≠ t := by
  rw [firstNamed, ht, List.findIdx?_eq_some_iff_getElem]
  constructor
  · rintro ⟨_, he, hb⟩
    refine ⟨by simpa using he, fun e' he' => ?_⟩
    obtain ⟨j, hj, rfl⟩ := List.mem_iff_getElem.mp he'
    simpa [List.getElem_append_left hj] using hb j hj
  · rintro ⟨he, hb⟩
    refine ⟨by simp, by simpa using he, fun j hj => ?_⟩
    simpa [List.getElem_append_left hj] using hb _ (List.getElem_mem hj)

theorem Holding.inserts_iff (h : Holding cfg s t) (hk : keycode = kcSpace ∨ keycode = kcEnter) :
    Inserts cfg t keycode s ↔ Told cfg t s := by
  have hno : ∀ {m}, s.count < cfg.maxInputLength → s.input s.count = 0 →
      (Passed cfg s t m ↔ ¬ t <+: m) := fun hc h0 => by
    rw [Passed, if_neg fun hn => hn.2 h0]
  rw [inserts_iff_ends h hk]
  constructor
  · rintro ⟨r, hr, hf, hw⟩
    rcases ends_iff.mp hr with ⟨before, e, after, ht, hl, hb, he, rfl⟩ | ⟨hl, hb, rfl⟩
    · obtain ⟨rfl, hne⟩ := (firstNamed_eq_some ht).mp hf.symm
      rw [reads_within_iff] at hw
      obtain ⟨hc, h0⟩ := h.found_iff.mp ⟨Bool.not_eq_false _ ▸ he, hw e (by simp)⟩
      refine .inl ⟨hc, h0, before, e, after, ht, hl, rfl, fun e' he' => ?_⟩
      exact (hno hc h0).mp (h.passed_iff.mp ⟨hb e' he', hw e' (by simp [he']), hne e' he'⟩)
    · have hne := firstNamed_eq_none.mp hf.symm
      rw [reads_within_iff] at hw
      exact .inr ⟨hl, fun e he => h.passed_iff.mp ⟨hb e he, hw e he, hne e he⟩⟩
  · rintro (⟨hc, h0, before, e, after, ht, hl, rfl, hb⟩ | ⟨hl, hb⟩)
    · have hp : ∀ e' ∈ before, _ := fun e' he' => h.passed_iff.mpr ((hno hc h0).mpr (hb e' he'))
      obtain ⟨hm, hw⟩ := h.found_iff.mpr ⟨hc, h0⟩
      have hb' : ∀ e' ∈ before, Missed s e' := fun e' he' => (hp e' he').1
      refine ⟨_, ends_iff.mpr (.inl ⟨before, e, after, ht, hl, hb', ?_, rfl⟩),
        ((firstNamed_eq_some ht).mpr ⟨rfl, fun e' he' => (hp e' he').2.2⟩).symm,
        reads_within_iff.mpr fun e' he' => ?_⟩
      · rw [Missed, hm]
        decide
      · rcases List.mem_append.mp he' with he' | he'
        · exact (hp e' he').2.1
        · rw [List.mem_singleton.mp he']
          exact hw
    · have hp : ∀ e ∈ cfg.table, _ := fun e he => h.passed_iff.mpr (hb e he)
      exact ⟨_, ends_iff.mpr (.inr ⟨hl, fun e he => (hp e he).1, rfl⟩),
        (firstNamed_eq_none.mpr fun e he => (hp e he).2.2).symm,
        reads_within_iff.mpr fun e he => (hp e he).2.1⟩

end Outcome

section Sessions

/-- The text of the session, if there is one. A key that has no place left is not typed. -/
def typedStep : Option (List (BitVec 8)) → Event → Option (List (BitVec 8))
  | _, .start => some []
  | none, .key _ _ => none
  | some t, .key _ false => some t
  | some t, .key keycode true =>
    if keycode = kcSpace ∨ keycode = kcEnter ∨ keycode = kcEscape then none
    else if keycode = kcBackspace then some t.dropLast
    else if keycodeToChar keycode = 0 ∨ cfg.maxInputLength ≤ t.length then some t
    else some (t ++ [keycodeToChar keycode])

def typed (events : List Event) : Option (List (BitVec 8)) := events.foldl (typedStep cfg) none

/-- The statics before the first session: `input` is zero, and any memory is behind it. -/
def boot (memory : Mem (BitVec 8)) : State where
  input := fun i => if i < cfg.maxInputLength then 0 else memory i

variable {cfg} {s s' : State} {t : List (BitVec 8)} {fuel : ℕ} {keycode : Keycode}

/-- The state holds the text of the session, or no session is active. -/
def Holds (cfg : Config) (s : State) : Option (List (BitVec 8)) → Prop
  | none => s.active = false
  | some t => Holding cfg s t

theorem holding_ucisStart : Holding cfg (ucisStart s) [] :=
  ⟨rfl, Nat.zero_le _, rfl, List.not_mem_nil⟩

theorem Holding.add (h : Holding cfg s t) (hc : keycodeToChar keycode ≠ 0)
    (hl : s.count < cfg.maxInputLength) :
    Holding cfg (ucisAdd keycode s).2 (t ++ [keycodeToChar keycode]) := by
  have hn : (s.count + 1) % 256 = s.count + 1 := by
    have := cfg.maxInputLength_le
    omega
  rw [ucisAdd, if_pos hc, hn]
  refine ⟨h.active, hl, ?_, ?_⟩
  · show (s.input.write s.count [keycodeToChar keycode]).read 0 (s.count + 1) = _
    rw [Mem.read_append, Mem.read_write_disjoint _ (.inl (Nat.le_of_eq (Nat.zero_add _))), h.chars,
      Nat.zero_add]
    exact congrArg (t ++ ·) (Mem.read_write s.input s.count [keycodeToChar keycode])
  · rw [List.mem_append, List.mem_singleton, not_or]
    exact ⟨h.nul_not_mem, hc.symm⟩

theorem Holding.removeLast (h : Holding cfg s t) : Holding cfg (ucisRemoveLast s).2 t.dropLast := by
  have h0 : 0 ∉ t.dropLast := fun hm => h.nul_not_mem (List.dropLast_subset t hm)
  rcases Nat.eq_zero_or_pos s.count with hc | hc
  · have ht : t = [] := by rw [← List.length_eq_zero_iff, h.length_eq, hc]
    rw [ucisRemoveLast, if_neg (not_not_intro hc)]
    subst ht
    exact h
  · rw [ucisRemoveLast, if_pos (Nat.ne_of_gt hc)]
    refine ⟨h.active, Nat.le_trans (Nat.sub_le _ _) h.count_le, ?_, h0⟩
    show s.input.read 0 (s.count - 1) = _
    have hr := Mem.read_append s.input 0 (s.count - 1) 1
    rw [Nat.sub_add_cancel hc, h.chars] at hr
    rw [hr, List.dropLast_append_of_ne_nil (by simp [Mem.read])]
    simp [Mem.read]

theorem ucisAdd_of_eq_zero (h : keycodeToChar keycode = 0) : ucisAdd keycode s = (false, s) := by
  rw [ucisAdd, if_neg (not_not_intro h)]

theorem ucisAdd_fst (h : keycodeToChar keycode ≠ 0) : (ucisAdd keycode s).1 = true := by
  rw [ucisAdd, if_pos h]

theorem Holding.processUcis_other (h : Holding cfg s t)
    (hk : ¬ (keycode = kcSpace ∨ keycode = kcEnter ∨ keycode = kcEscape ∨ keycode = kcBackspace)) :
    processUcis cfg fuel keycode true s =
      if cfg.maxInputLength ≤ s.count then some (false, s)
      else some (true, (ucisAdd keycode s).2) := by
  rw [processUcis, if_pos ⟨h.active, rfl⟩]
  by_cases hl : cfg.maxInputLength ≤ s.count
  · rw [if_pos hl]
    exact if_pos ⟨hl, hk⟩
  · rw [if_neg hl]
    refine (if_neg fun hn => hl hn.1).trans ?_
    simp only [not_or] at hk
    rcases eq_or_ne (keycodeToChar keycode) 0 with h0 | h0
    · simp [ucisAdd_of_eq_zero h0, hk]
    · simp [ucisAdd_fst h0]

theorem Holding.processUcis_escape (h : Holding cfg s t) :
    processUcis cfg fuel kcEscape true s = some (false, ucisCancel s) := by
  simp [processUcis, h.active, ucisAdd_of_eq_zero (show keycodeToChar kcEscape = 0 from rfl),
    show kcEscape ≠ kcBackspace by decide]

theorem Holding.processUcis_backspace (h : Holding cfg s t) :
    processUcis cfg fuel kcBackspace true s = some (ucisRemoveLast s) := by
  simp [processUcis, h.active, ucisAdd_of_eq_zero (show keycodeToChar kcBackspace = 0 from rfl)]

theorem Holding.press (h : Holding cfg s t)
    (hs : (processUcis cfg fuel keycode true s).map Prod.snd = some s') :
    Holds cfg s' (typedStep cfg (some t) (.key keycode true)) := by
  rw [typedStep]
  by_cases he : keycode = kcSpace ∨ keycode = kcEnter
  · rw [if_pos (he.imp_right .inl)]
    rw [processUcis_end h he, Option.map_map, Option.map_eq_some_iff] at hs
    obtain ⟨r, -, rfl⟩ := hs
    rfl
  rcases eq_or_ne keycode kcEscape with rfl | hesc
  · rw [if_pos (.inr (.inr rfl))]
    rw [h.processUcis_escape, Option.map_some, Option.some_inj] at hs
    obtain rfl := hs
    rfl
  have hend : ¬ (keycode = kcSpace ∨ keycode = kcEnter ∨ keycode = kcEscape) := by
    rintro (h | h | h)
    · exact he (.inl h)
    · exact he (.inr h)
    · exact hesc h
  rw [if_neg hend]
  rcases eq_or_ne keycode kcBackspace with rfl | hback
  · rw [if_pos rfl]
    rw [h.processUcis_backspace, Option.map_some, Option.some_inj] at hs
    obtain rfl := hs
    exact h.removeLast
  rw [if_neg hback]
  have hk : ¬ (keycode = kcSpace ∨ keycode = kcEnter ∨ keycode = kcEscape ∨
      keycode = kcBackspace) := by
    rintro (h | h | h | h)
    · exact he (.inl h)
    · exact he (.inr h)
    · exact hesc h
    · exact hback h
  rw [h.processUcis_other hk, ← h.length_eq] at hs
  by_cases hl : cfg.maxInputLength ≤ t.length
  · rw [if_pos hl, Option.map_some, Option.some_inj] at hs
    obtain rfl := hs
    rw [if_pos (.inr hl)]
    exact h
  rw [if_neg hl, Option.map_some, Option.some_inj] at hs
  obtain rfl := hs
  rcases eq_or_ne (keycodeToChar keycode) 0 with h0 | h0
  · rw [if_pos (.inl h0), ucisAdd_of_eq_zero h0]
    exact h
  · rw [if_neg (not_or.mpr ⟨h0, hl⟩)]
    exact h.add h0 (h.length_eq ▸ Nat.not_le.mp hl)

theorem Holds.step {o : Option (List (BitVec 8))} (h : Holds cfg s o) {event : Event}
    (hs : step cfg fuel s event = some s') : Holds cfg s' (typedStep cfg o event) := by
  rcases event with _ | ⟨keycode, _ | _⟩
  · obtain rfl := Option.some_inj.mp hs
    cases o <;> exact holding_ucisStart
  · have hp : processUcis cfg fuel keycode false s = some (true, s) := by simp [processUcis]
    rw [Ucis.step, hp, Option.map_some, Option.some_inj] at hs
    obtain rfl := hs
    cases o <;> exact h
  · rcases o with _ | t
    · have hp : processUcis cfg fuel keycode true s = some (true, s) := by
        simp [processUcis, show s.active = false from h]
      rw [Ucis.step, hp, Option.map_some, Option.some_inj] at hs
      obtain rfl := hs
      exact h
    · exact Holding.press h hs

theorem Holds.run {o : Option (List (BitVec 8))} {events : List Event} (h : Holds cfg s o)
    (hr : run cfg fuel s events = some s') : Holds cfg s' (events.foldl (typedStep cfg) o) := by
  induction events generalizing s o with
  | nil =>
    obtain rfl := Option.some_inj.mp hr
    exact h
  | cons event events ih =>
    rw [Ucis.run, List.foldlM_cons, Option.bind_eq_bind, Option.bind_eq_some_iff] at hr
    obtain ⟨s₁, hs, hr⟩ := hr
    exact ih (h.step hs) hr

/-- What the end of any session of any run does, by what the sessions before it and its corrections
have left behind its text. -/
theorem run_inserts_iff {memory : Mem (BitVec 8)} {events : List Event}
    (h : run cfg fuel (boot cfg memory) events = some s) (ht : typed cfg events = some t)
    (hk : keycode = kcSpace ∨ keycode = kcEnter) :
    Inserts cfg t keycode s ↔ Told cfg t s := by
  have hb : Holds cfg (boot cfg memory) none := rfl
  have hs : Holds cfg s (typed cfg events) := hb.run h
  rw [ht] at hs
  exact Holding.inserts_iff hs hk

/-- The entries `poop` and `rofl`. -/
def twoSymbols : Config where
  table := [⟨[0x70, 0x6F, 0x6F, 0x70], [0x1F4A9], by decide⟩,
    ⟨[0x72, 0x6F, 0x66, 0x6C], [0x1F923], by decide⟩]

def session (keycodes : List Keycode) : List Event := .start :: keycodes.map (.key · true)

def poopThenRofl : List Event :=
  session [0x13, 0x12, 0x12, 0x13, kcSpace] ++ session [0x15, 0x12, 0x09, 0x0F]

theorem poopThenRofl_inserts : ∃ s,
    run twoSymbols 3 (boot twoSymbols fun _ => 0) poopThenRofl = some s ∧
      Inserts twoSymbols [0x72, 0x6F, 0x66, 0x6C] kcEnter s := by
  have hr : run twoSymbols 3 (boot twoSymbols fun _ => 0) poopThenRofl = some _ := rfl
  have ht : typed twoSymbols poopThenRofl = some [0x72, 0x6F, 0x66, 0x6C] := rfl
  refine ⟨_, hr, (run_inserts_iff hr ht (.inr rfl)).mpr (.inl ⟨by decide, by decide, ?_⟩)⟩
  exact ⟨[_], _, [], rfl, by decide, rfl, by decide⟩

def correctedPoop : List Event := session [0x13, 0x12, 0x12, 0x13, 0x16, kcBackspace]

theorem correctedPoop_not_inserts : ∃ s,
    run twoSymbols 3 (boot twoSymbols fun _ => 0) correctedPoop = some s ∧
      typed twoSymbols correctedPoop = some [0x70, 0x6F, 0x6F, 0x70] ∧
      firstNamed twoSymbols [0x70, 0x6F, 0x6F, 0x70] = some 0 ∧
      ¬ Inserts twoSymbols [0x70, 0x6F, 0x6F, 0x70] kcSpace s := by
  have hr : run twoSymbols 3 (boot twoSymbols fun _ => 0) correctedPoop = some _ := rfl
  have hb : Holds twoSymbols (boot twoSymbols fun _ => 0) none := rfl
  have hh : Holding twoSymbols _ [0x70, 0x6F, 0x6F, 0x70] := hb.run hr
  refine ⟨_, hr, rfl, rfl, fun hi => ?_⟩
  rcases (hh.inserts_iff (.inl rfl)).mp hi with ⟨-, h0, -⟩ | ⟨-, hp⟩
  · exact absurd h0 (by decide)
  · have hpoop := hp _ List.mem_cons_self
    rw [Passed, if_pos (by decide)] at hpoop
    exact hpoop.1 rfl

end Sessions

end Qmk.Ucis
