import Mathlib.Tactic.IntervalCases
import Qmk.Combos.Stranded
import Qmk.Selection

/-! # Which combos are activated

Of the combos that a sequence of presses completes, those that wait for the end of the term have no
key in common. A combo that was completed and does not wait has given way to one that has a key in
common with it and at least as many keys, and that one may have given way in turn.
-/

namespace Qmk.Combos

variable {cfg : Config} {α : Type*}

/-- Nothing is buffered, and a combo that is not disabled has no key down. -/
structure Rested (s : State cfg α) : Prop where
  enabled : s.enabled = true
  keyBuffer : s.keyBuffer = []
  comboBuffer : s.comboBuffer = []
  idle : ∀ j < cfg.table.length, (s.combos j).disabled = false →
    (s.combos j).active = false ∧ (s.combos j).state = 0

/-- The combo is in the table, and is not disabled at the start of the presses. -/
def Offers (s₀ : State cfg α) (j : ℕ) : Prop :=
  j < cfg.table.length ∧ (s₀.combos j).disabled = false

/-- The combos have a key in common. -/
def Shares (cfg : Config) (j k : ℕ) : Prop := ∃ c ∈ (cfg.combo j).keys, c ∈ (cfg.combo k).keys

def Config.keyCount (cfg : Config) (j : ℕ) : ℕ := (cfg.combo j).keys.length

/-- The places of the keys of combo `j` that the presses have. -/
def indices (cfg : Config) (buf : List (QueuedRecord α)) (j : ℕ) : Set ℕ :=
  {i | ∃ q ∈ buf, findKeyIndex (cfg.combo j).keys q.record.keycode = some i}

/-- The combos that have all their keys, of which `seen` has the places. -/
def candidates (s₀ : State cfg α) (seen : ℕ → Set ℕ) : Set ℕ :=
  {j | Offers s₀ j ∧ (cfg.combo j).keys ≠ [] ∧ cfg.keyCount j ≤ cfg.stateBits ∧
    ∀ i < cfg.keyCount j, i ∈ seen j}

def State.waiting (s : State cfg α) : Set ℕ :=
  {j | j ∈ s.comboBuffer ∧ (s.combos j).disabled = false}

section Overlaps

variable {s : State cfg α} {idx j k : ℕ} {ring kept : List ℕ}

theorem shares_comm (h : Shares cfg j k) : Shares cfg k j := by
  obtain ⟨c, hj, hk⟩ := h
  exact ⟨c, hk, hj⟩

theorem overlaps_eq_none_iff : overlaps cfg j k = none ↔ ¬ Shares cfg j k := by
  rw [overlaps_eq_none, Shares, not_exists]
  exact forall_congr' fun c => not_and.symm

theorem overlaps_eq_left (hne : j ≠ k) (h : overlaps cfg j k = some j) :
    Shares cfg j k ∧ cfg.keyCount j ≤ cfg.keyCount k := by
  have hshares : Shares cfg j k := by
    by_contra hnot
    rw [overlaps_eq_none_iff.mpr hnot] at h
    cases h
  simp only [overlaps] at h
  split_ifs at h with hany hlt
  · exact absurd (Option.some.inj h).symm hne
  · exact ⟨hshares, Nat.le_of_not_lt hlt⟩

theorem overlaps_eq_right (hne : j ≠ k) (h : overlaps cfg j k = some k) :
    Shares cfg j k ∧ cfg.keyCount k < cfg.keyCount j := by
  have hshares : Shares cfg j k := by
    by_contra hnot
    rw [overlaps_eq_none_iff.mpr hnot] at h
    cases h
  simp only [overlaps] at h
  split_ifs at h with hany hlt
  · exact ⟨hshares, hlt⟩
  · exact absurd (Option.some.inj h) hne

theorem dropOverlaps_newly (idx : ℕ) (ring kept : List ℕ) (s : State cfg α)
    (hd : (s.combos j).disabled = false)
    (hd' : ((dropOverlaps idx ring kept s).2.combos j).disabled = true) :
    (j ∈ ring ∧ overlaps cfg j idx = some j) ∨
      (dropOverlaps idx ring kept s).1 = true ∧ j = idx := by
  fun_induction dropOverlaps idx ring kept s with
  | case1 => exact absurd (hd.symm.trans hd') (by decide)
  | case2 l rest kept s ho ih =>
    exact (ih hd hd').imp_left fun h => ⟨List.mem_cons_of_mem _ h.1, h.2⟩
  | case3 l rest kept s ho =>
    have hj := ((disableCombo_disabled _ j s).mp hd').resolve_left (by simp [hd])
    exact .inr ⟨rfl, hj⟩
  | case4 l rest s d ho t hne ih =>
    by_cases hj : j = d
    · have hl := (overlaps_cases ho).resolve_right hne
      have hmem : j ∈ l :: rest := by
        rw [hj, hl]
        exact List.mem_cons_self
      exact .inl ⟨hmem, by rw [hj, hl, ho, hl]⟩
    · have hsame : (t.combos j).disabled = false := by rwa [disableCombo_of_ne s hj]
      exact (ih hsame hd').imp_left fun h => ⟨List.mem_cons_of_mem _ h.1, h.2⟩
  | case5 l rest kept s d ho t hne hkept ih =>
    by_cases hj : j = d
    · have hl := (overlaps_cases ho).resolve_right hne
      have hmem : j ∈ l :: rest := by
        rw [hj, hl]
        exact List.mem_cons_self
      exact .inl ⟨hmem, by rw [hj, hl, ho, hl]⟩
    · have hsame : (t.combos j).disabled = false := by rwa [disableCombo_of_ne s hj]
      exact (ih hsame hd').imp_left fun h => ⟨List.mem_cons_of_mem _ h.1, h.2⟩

/-- A combo that gives way does so for a waiting one that has more keys. -/
theorem dropOverlaps_larger (h : (dropOverlaps idx ring kept s).1 = true) :
    ∃ j ∈ ring, overlaps cfg j idx = some idx := by
  fun_induction dropOverlaps idx ring kept s with
  | case1 => cases h
  | case2 _ _ _ _ _ ih =>
    obtain ⟨j, hj, ho⟩ := ih h
    exact ⟨j, List.mem_cons_of_mem _ hj, ho⟩
  | case3 l rest kept s ho => exact ⟨l, List.mem_cons_self, ho⟩
  | case4 _ _ _ _ _ _ _ ih =>
    obtain ⟨j, hj, ho⟩ := ih h
    exact ⟨j, List.mem_cons_of_mem _ hj, ho⟩
  | case5 _ _ _ _ _ _ _ _ _ ih =>
    obtain ⟨j, hj, ho⟩ := ih h
    exact ⟨j, List.mem_cons_of_mem _ hj, ho⟩

/-- If the completed combo does not give way, all that overlap with it do. -/
theorem dropOverlaps_drops (h : (dropOverlaps idx ring kept s).1 = false) :
    ∀ j ∈ ring, overlaps cfg j idx ≠ none →
      ((dropOverlaps idx ring kept s).2.combos j).disabled = true := by
  fun_induction dropOverlaps idx ring kept s with
  | case1 => exact fun j hj => absurd hj List.not_mem_nil
  | case2 l rest kept s ho ih =>
    rintro j (_ | ⟨_, hj⟩) hover
    · exact absurd ho hover
    · exact ih h j hj hover
  | case3 => cases h
  | case4 l rest s d ho t hne ih =>
    rintro j (_ | ⟨_, hj⟩) hover
    · have hd := (overlaps_cases ho).resolve_right hne
      exact dropOverlaps_disabled _ _ ((disableCombo_disabled d l s).mpr (.inr hd.symm))
    · exact ih h j hj hover
  | case5 l rest kept s d ho t hne hkept ih =>
    rintro j (_ | ⟨_, hj⟩) hover
    · have hd := (overlaps_cases ho).resolve_right hne
      exact dropOverlaps_disabled _ _ ((disableCombo_disabled d l s).mpr (.inr hd.symm))
    · exact ih h j hj hover

end Overlaps

section Buffering

variable {s : State cfg α} {idx : ℕ} {now : BitVec 16} {all : Set ℕ}

theorem bufferCombo_selects (hs : Selects (Shares cfg) cfg.keyCount all s.waiting)
    (hring : ∀ j ∈ s.comboBuffer, j ∈ all) (hidx : idx ∉ s.comboBuffer)
    (hd : (s.combos idx).disabled = false) (hlate : ¬ late now s)
    (hroom : (∃ j ∈ s.comboBuffer, overlaps cfg j idx = some idx) ∨
      (stayBehind cfg idx s.comboBuffer).length + 1 < cfg.comboBufferLength) :
    Selects (Shares cfg) cfg.keyCount (insert idx all) (bufferCombo idx now s).waiting := by
  set r := dropOverlaps idx s.comboBuffer [] s with hr
  have hsub : ∀ j ∈ r.2.comboBuffer, j ∈ s.comboBuffer :=
    fun j hj => (dropOverlaps_sublist idx s.comboBuffer [] s).subset hj
  have hrest : r.2.waiting ⊆ s.waiting := by
    rintro j ⟨hj, hjd⟩
    refine ⟨hsub j hj, ?_⟩
    rw [Bool.eq_false_iff]
    intro hdis
    exact absurd (hjd.symm.trans (dropOverlaps_disabled s.comboBuffer [] hdis)) (by decide)
  have hgone : ∀ j ∈ s.waiting, j ∉ r.2.waiting →
      Shares cfg j idx ∧ cfg.keyCount j ≤ cfg.keyCount idx := by
    rintro j ⟨hj, hjd⟩ hnot
    have hne : j ≠ idx := fun heq => hidx (heq ▸ hj)
    have hdis : (r.2.combos j).disabled = true := by
      rw [← Bool.not_eq_false]
      exact fun hstill => hnot ⟨dropOverlaps_stay idx s.comboBuffer [] s j hj hstill, hstill⟩
    rcases dropOverlaps_newly idx s.comboBuffer [] s hjd hdis with ⟨-, ho⟩ | ⟨-, heq⟩
    · exact overlaps_eq_left hne ho
    · exact absurd heq hne
  have hbuffer : bufferCombo idx now s = if r.1 then r.2 else pushCombo idx r.2 := if_neg hlate
  by_cases hdrop : r.1 = true
  · obtain ⟨j, hj, ho⟩ := dropOverlaps_larger hdrop
    have hne : j ≠ idx := fun heq => hidx (heq ▸ hj)
    obtain ⟨hshares, hlt⟩ := overlaps_eq_right hne ho
    rw [hbuffer, if_pos hdrop]
    exact hs.reject (hring j hj) (shares_comm hshares) hlt hrest hgone
  · have hfalse : r.1 = false := Bool.eq_false_iff.mpr hdrop
    obtain ⟨hall, hb⟩ := dropOverlaps_false hfalse
    have hlen : (stayBehind cfg idx s.comboBuffer).length + 1 < cfg.comboBufferLength := by
      rcases hroom with ⟨j, hj, ho⟩ | hlen
      · exact absurd ho (hall j hj)
      · exact hlen
    rw [List.nil_append, if_pos rfl, ← hr] at hb
    have hpush : (pushCombo idx r.2).comboBuffer = r.2.comboBuffer ++ [idx] := by
      simp only [pushCombo]
      rw [if_neg]
      rw [hb]
      omega
    have hstays : (r.2.combos idx).disabled = false := by
      rw [Bool.eq_false_iff]
      intro hdis
      rcases dropOverlaps_newly idx s.comboBuffer [] s hd hdis with ⟨hmem, -⟩ | ⟨htrue, -⟩
      · exact hidx hmem
      · exact hdrop htrue
    have hwaiting : (pushCombo idx r.2).waiting = insert idx r.2.waiting := by
      ext j
      simp only [State.waiting, hpush, Set.mem_ofPred_eq, Set.mem_insert_iff, List.mem_append,
        List.mem_singleton]
      constructor
      · rintro ⟨hj | hj, hjd⟩
        · exact .inr ⟨hj, hjd⟩
        · exact .inl hj
      · rintro (rfl | ⟨hj, hjd⟩)
        · exact ⟨.inr rfl, hstays⟩
        · exact ⟨.inl hj, hjd⟩
    rw [hbuffer, if_neg hdrop, hwaiting]
    refine hs.accept (fun _ _ => shares_comm) hrest ?_ hgone
    rintro j ⟨hj, hjd⟩ hshares
    have hover : overlaps cfg j idx ≠ none := fun hnone => overlaps_eq_none_iff.mp hnone hshares
    exact absurd (hjd.symm.trans (dropOverlaps_drops hfalse j (hsub j hj) hover)) (by decide)

end Buffering

section Loop

variable {s₀ s t : State cfg α} {seen : ℕ → Set ℕ} {idx i j : ℕ} {r : Record α}
  {now : BitVec 16}

/-- The invariant of the loop over the table; `seen` says which keys of a combo have been pressed.
A combo of the round is disabled only after it was completed. -/
structure Choosing (s₀ s : State cfg α) (seen : ℕ → Set ℕ) : Prop where
  enabled : s.enabled = true
  off : ∀ j < cfg.table.length, (s₀.combos j).disabled = true →
    (s.combos j).disabled = true ∧ j ∉ s.comboBuffer
  active : ∀ j, Offers s₀ j → (s.combos j).active = false
  places : ∀ j, Offers s₀ j → ∀ i ∈ seen j, i < cfg.keyCount j
  bits : ∀ j, Offers s₀ j → (s.combos j).disabled = false → ∀ i,
    Bit s j i ↔ i ∈ seen j ∧ i < cfg.stateBits
  dropped : ∀ j, Offers s₀ j → (s.combos j).disabled = true → j ∈ candidates s₀ seen
  ring : ∀ j ∈ s.comboBuffer, j ∈ candidates s₀ seen
  nodup : s.comboBuffer.Nodup
  selects : Selects (Shares cfg) cfg.keyCount (candidates s₀ seen) s.waiting

/-- The keys of combo `j` that have been pressed when `r` has been pressed too. -/
def withKey (cfg : Config) (r : Record α) (j : ℕ) (places : Set ℕ) : Set ℕ :=
  {i | i ∈ places ∨ findKeyIndex (cfg.combo j).keys r.keycode = some i}

theorem Choosing.congr_seen {seen' : ℕ → Set ℕ} (h : Choosing s₀ s seen)
    (hseen : ∀ j < cfg.table.length, seen j = seen' j) : Choosing s₀ s seen' := by
  have hsame : candidates s₀ seen = candidates s₀ seen' := by
    ext j
    simp only [candidates, Set.mem_ofPred_eq]
    exact and_congr_right fun hj => by rw [hseen j hj.1]
  constructor
  · exact h.enabled
  · exact h.off
  · exact h.active
  · exact fun j hj => hseen j hj.1 ▸ h.places j hj
  · exact fun j hj => hseen j hj.1 ▸ h.bits j hj
  · exact hsame ▸ h.dropped
  · exact hsame ▸ h.ring
  · exact h.nodup
  · exact hsame ▸ h.selects

theorem Choosing.congr (h : Choosing s₀ s seen)
    (hcombos : ∀ j, (s₀.combos j).disabled = false → t.combos j = s.combos j)
    (hdisabled : ∀ j, (t.combos j).disabled = (s.combos j).disabled)
    (hb : t.comboBuffer = s.comboBuffer) (he : t.enabled = s.enabled) : Choosing s₀ t seen := by
  have hwaiting : t.waiting = s.waiting := by
    simp only [State.waiting, hb, hdisabled]
  constructor
  · exact he.trans h.enabled
  · intro j hj hoff
    rw [hdisabled, hb]
    exact h.off j hj hoff
  · exact fun j hj => hcombos j hj.2 ▸ h.active j hj
  · exact h.places
  · intro j hj hd i
    rw [Bit, hcombos j hj.2]
    exact h.bits j hj (hdisabled j ▸ hd) i
  · intro j hj
    rw [hdisabled]
    exact h.dropped j hj
  · rw [hb]
    exact h.ring
  · rw [hb]
    exact h.nodup
  · rw [hwaiting]
    exact h.selects

theorem Choosing.offers (h : Choosing s₀ s seen) (hj : j < cfg.table.length)
    (hd : (s.combos j).disabled = false) : Offers s₀ j := by
  refine ⟨hj, ?_⟩
  rw [Bool.eq_false_iff]
  intro hoff
  exact absurd (hd.symm.trans (h.off j hj hoff).1) (by decide)

/-- All bits are set exactly if all keys have been pressed. -/
theorem Choosing.full_iff (h : Choosing s₀ s seen) (hj : Offers s₀ idx)
    (hd : (s.combos idx).disabled = false) (hi : i < cfg.keyCount idx) :
    allComboKeysAreDown (keyStateDown (s.combos idx).state i) (cfg.combo idx).keys.length ↔
      cfg.keyCount idx ≤ cfg.stateBits ∧
        ∀ l < cfg.keyCount idx, l ∈ insert i (seen idx) := by
  have hbits := h.bits idx hj hd
  rw [allComboKeysAreDown_iff]
  refine and_congr_right fun hw => ?_
  have hbit (l : ℕ) : (keyStateDown (s.combos idx).state i).getLsbD l = true ↔
      l ∈ insert i (seen idx) ∧ l < cfg.stateBits := by
    rw [keyStateDown_bit, Set.mem_insert_iff, or_and_right, or_comm, eq_comm]
    exact or_congr_right (hbits l)
  constructor
  · intro hall l hl
    exact ((hbit l).mp ((hall l).mpr hl)).1
  · intro hall l
    rw [hbit]
    constructor
    · rintro ⟨rfl | hl, -⟩
      · exact hi
      · exact h.places idx hj l hl
    · intro hl
      exact ⟨hall l hl, hl.trans_le hw⟩

theorem mem_candidates_update (hj : Offers s₀ idx) (hi : i < cfg.keyCount idx)
    (hnew : i ∉ seen idx) (l : ℕ) :
    l ∈ candidates s₀ (Function.update seen idx (insert i (seen idx))) ↔
      l ∈ candidates s₀ seen ∨ l = idx ∧ cfg.keyCount idx ≤ cfg.stateBits ∧
        ∀ k < cfg.keyCount idx, k ∈ insert i (seen idx) := by
  simp only [candidates, Set.mem_ofPred_eq]
  rcases eq_or_ne l idx with rfl | hne
  · have hkeys : (cfg.combo l).keys ≠ [] := by
      rintro hnil
      simp [Config.keyCount, hnil] at hi
    simp only [Function.update_self, true_and, hj, hkeys, ne_eq, not_false_eq_true]
    constructor
    · exact .inr
    · rintro (⟨-, hall⟩ | hall)
      · exact absurd (hall i hi) hnew
      · exact hall
  · simp only [Function.update_of_ne hne, hne, false_and, or_false]

/-- A combo that is neither disabled nor active gets a new key. -/
theorem Choosing.chordPress (h : Choosing s₀ s seen) (hj : idx < cfg.table.length)
    (hd : (s.combos idx).disabled = false) (hi : i < cfg.keyCount idx) (hnew : i ∉ seen idx)
    (hlate : ¬ late now s)
    (hroom : allComboKeysAreDown (keyStateDown (s.combos idx).state i)
        (cfg.combo idx).keys.length →
      (∃ j ∈ s.comboBuffer, overlaps cfg j idx = some idx) ∨
        (stayBehind cfg idx s.comboBuffer).length + 1 < cfg.comboBufferLength) :
    Choosing s₀ (chordPress idx i now s) (Function.update seen idx (insert i (seen idx))) := by
  have hoffers := h.offers hj hd
  have hactive := h.active idx hoffers
  have hkeys : (cfg.combo idx).keys ≠ [] := by
    rintro hnil
    simp [Config.keyCount, hnil] at hi
  have hcandidates := mem_candidates_update hoffers hi hnew
  have hfull := h.full_iff hoffers hd hi
  have hout : idx ∉ s.comboBuffer := fun hmem => hnew ((h.ring idx hmem).2.2.2 i hi)
  have hpressed : Pressed s (Combos.chordPress idx i now s) idx i :=
    pressed_chordPress hkeys hactive fun hf => .inr (hroom hf)
  set t := Combos.chordPress idx i now s with ht
  set u : State cfg α := { s.modify idx (fun c => { c with state := keyStateDown c.state i }) with
    longestTerm := max s.longestTerm cfg.comboTerm } with hu
  have hcase : t = if allComboKeysAreDown (keyStateDown (s.combos idx).state i)
      (cfg.combo idx).keys.length then bufferCombo idx now u else u := by
    simp only [ht, Combos.chordPress, hactive, Bool.false_eq_true, if_false, ← hu]
    rw [show (u.combos idx).state = keyStateDown (s.combos idx).state i by simp [hu, State.modify]]
  have hdisabled (l : ℕ) : (u.combos l).disabled = (s.combos l).disabled := by
    rcases eq_or_ne l idx with rfl | hne
    · simp [hu, State.modify]
    · simp [hu, State.modify, hne]
  have hwaiting : u.waiting = s.waiting := by
    simp only [State.waiting, hdisabled]
    rfl
  have hsubset : candidates s₀ seen ⊆
      candidates s₀ (Function.update seen idx (insert i (seen idx))) :=
    fun l hl => (hcandidates l).mpr (.inl hl)
  -- What is disabled or comes to the combo buffer has been completed.
  have hnewly (l : ℕ) (hl : Offers s₀ l) (hdis : (t.combos l).disabled = true) :
      l ∈ candidates s₀ (Function.update seen idx (insert i (seen idx))) := by
    by_cases hold : (s.combos l).disabled = true
    · exact hsubset (h.dropped l hl hold)
    · rw [hcase] at hdis
      split_ifs at hdis with hf
      · have hbuffer : bufferCombo idx now u =
            if (dropOverlaps idx u.comboBuffer [] u).1 then (dropOverlaps idx u.comboBuffer [] u).2
            else pushCombo idx (dropOverlaps idx u.comboBuffer [] u).2 := if_neg hlate
        have hdis' : ((dropOverlaps idx s.comboBuffer [] u).2.combos l).disabled = true := by
          rw [hbuffer] at hdis
          split_ifs at hdis
          · exact hdis
          · exact hdis
        rcases dropOverlaps_newly idx s.comboBuffer [] u ((hdisabled l).trans
          (Bool.eq_false_iff.mpr hold)) hdis' with ⟨hmem, -⟩ | ⟨-, rfl⟩
        · exact hsubset (h.ring l hmem)
        · exact (hcandidates l).mpr (.inr ⟨rfl, hfull.mp hf⟩)
      · exact absurd ((hdisabled l).symm.trans hdis) hold
  constructor
  · exact hpressed.enabled.trans h.enabled
  · intro l hl hoff
    obtain ⟨hdis, hnot⟩ := h.off l hl hoff
    refine ⟨hpressed.disabled l hdis, fun hmem => ?_⟩
    rcases hpressed.ring l hmem with hold | rfl
    · exact hnot hold
    · exact absurd (hd.symm.trans hdis) (by decide)
  · intro l hl
    rw [hpressed.active]
    exact h.active l hl
  · intro l hl k hk
    rcases eq_or_ne l idx with rfl | hne
    · rw [Function.update_self] at hk
      rcases hk with rfl | hk
      · exact hi
      · exact h.places l hl k hk
    · rw [Function.update_of_ne hne] at hk
      exact h.places l hl k hk
  · intro l hl hdis k
    have hdis' : (s.combos l).disabled = false := by
      rw [Bool.eq_false_iff]
      intro hold
      exact absurd (hdis.symm.trans (hpressed.disabled l hold)) (by decide)
    rcases eq_or_ne l idx with rfl | hne
    · rw [Bit, hpressed.self, keyStateDown_bit, Function.update_self, Set.mem_insert_iff,
        or_and_right, or_comm, eq_comm]
      exact or_congr_right (h.bits l hl hdis' k)
    · rw [Bit, hpressed.other l hne, Function.update_of_ne hne]
      exact h.bits l hl hdis' k
  · exact hnewly
  · intro l hl
    rcases hpressed.ring l hl with hold | rfl
    · exact hsubset (h.ring l hold)
    · rw [hcase] at hl
      split_ifs at hl with hf
      · exact (hcandidates l).mpr (.inr ⟨rfl, hfull.mp hf⟩)
      · exact absurd hl hout
  · exact hpressed.nodup h.nodup
  · rw [hcase]
    split_ifs with hf
    · have hinsert : candidates s₀ (Function.update seen idx (insert i (seen idx))) =
          insert idx (candidates s₀ seen) := by
        ext l
        rw [hcandidates, Set.mem_insert_iff, or_comm]
        exact or_congr_left (and_iff_left (hfull.mp hf))
      rw [hinsert]
      exact bufferCombo_selects (s := u) (hwaiting ▸ h.selects) h.ring hout
        ((hdisabled idx).trans hd) hlate (hroom hf)
    · have hsame : candidates s₀ (Function.update seen idx (insert i (seen idx))) =
          candidates s₀ seen := by
        ext l
        rw [hcandidates]
        exact or_iff_left fun hl => hf (hfull.mpr hl.2)
      rw [hsame, hwaiting]
      exact h.selects

theorem Choosing.single (h : Choosing s₀ s seen) (hj : idx < cfg.table.length)
    (hp : r.pressed = true) (hc : r.keycode ≠ 0)
    (hnew : ∀ i, findKeyIndex (cfg.combo idx).keys r.keycode = some i → i ∉ seen idx)
    (hlate : ¬ late now s) (hroom : RoomSingle r now s idx) :
    Choosing s₀ (processSingleCombo r now idx s).2
      (Function.update seen idx (withKey cfg r idx (seen idx))) := by
  cases hkey : findKeyIndex (cfg.combo idx).keys r.keycode with
  | none =>
    have hsame : withKey cfg r idx (seen idx) = seen idx := by
      ext i
      simp [withKey, hkey]
    rwa [processSingleCombo_none now hkey, hsame, Function.update_eq_self]
  | some i =>
    have hi : i < cfg.keyCount idx := findKeyIndex_lt hc hkey
    have hsame : withKey cfg r idx (seen idx) = insert i (seen idx) := by
      ext l
      simp only [withKey, hkey, Option.some.injEq, Set.mem_ofPred_eq, Set.mem_insert_iff]
      rw [or_comm, eq_comm]
    rw [hsame]
    by_cases hd : (s.combos idx).disabled = false
    · rw [processSingleCombo_press now hkey ⟨hp, hd, h.enabled⟩]
      refine h.chordPress hj hd hi (hnew i hkey) hlate fun hfull => ?_
      have hcompletes : completes r idx s = true := by
        simp [completes, hkey, hd, h.enabled, hfull]
      exact (hroom hcompletes).resolve_left hlate
    · -- A combo that is disabled is none of the round.
      have hdis : (s.combos idx).disabled = true := Bool.eq_true_of_not_eq_false hd
      have hoff : ¬ Offers s₀ idx := fun hoffers =>
        hnew i hkey ((h.dropped idx hoffers hdis).2.2.2 i hi)
      have hoff' : (s₀.combos idx).disabled = true :=
        Bool.eq_true_of_not_eq_false fun hfalse => hoff ⟨hj, hfalse⟩
      have hout := (h.off idx hj hoff').2
      rw [processSingleCombo_release now hkey fun hon => hd hon.2.1]
      have hcongr : Choosing s₀ (chordRelease idx i s).2 seen := by
        refine h.congr (fun l hl => chordRelease_of_ne ?_) (fun l => ?_) ?_
          (quiet_chordRelease idx i s).enabled
        · rintro rfl
          exact hoff ⟨hj, hl⟩
        · rcases eq_or_ne l idx with rfl | hne
          · simp only [chordRelease, dropComboFromBuffer, if_neg hout]
            split_ifs <;> simp [releaseCombo, State.emit]
          · rw [chordRelease_of_ne hne]
        · simp only [chordRelease, dropComboFromBuffer, if_neg hout]
          split_ifs <;> rfl
      have hother (l : ℕ) (hl : Offers s₀ l) :
          Function.update seen idx (insert i (seen idx)) l = seen l := by
        refine Function.update_of_ne ?_ _ _
        rintro rfl
        exact hoff hl
      have hsets : candidates s₀ (Function.update seen idx (insert i (seen idx))) =
          candidates s₀ seen := by
        ext l
        simp only [candidates, Set.mem_ofPred_eq]
        exact and_congr_right fun hl => by rw [hother l hl]
      constructor
      · exact hcongr.enabled
      · exact hcongr.off
      · exact hcongr.active
      · exact fun l hl => hother l hl ▸ hcongr.places l hl
      · exact fun l hl => hother l hl ▸ hcongr.bits l hl
      · exact hsets ▸ hcongr.dropped
      · exact hsets ▸ hcongr.ring
      · exact hcongr.nodup
      · exact hsets ▸ hcongr.selects

theorem Choosing.loop (hp : r.pressed = true) (hc : r.keycode ≠ 0) {idxs : List ℕ}
    (hnodup : idxs.Nodup) (h : Choosing s₀ s seen) (hlt : ∀ j ∈ idxs, j < cfg.table.length)
    (hnew : ∀ j ∈ idxs, ∀ i, findKeyIndex (cfg.combo j).keys r.keycode = some i → i ∉ seen j)
    (hlate : ¬ late now s) (hroom : (roomGuard cfg r now).Accepts s idxs) (b : Bool) :
    Choosing s₀ (processCombos r now idxs (b, s)).2
      (fun j => if j ∈ idxs then withKey cfg r j (seen j) else seen j) := by
  induction idxs generalizing s seen b with
  | nil => exact h
  | cons idx idxs ih =>
    obtain ⟨hidx, hnodup⟩ := List.nodup_cons.mp hnodup
    have hone := h.single (hlt idx List.mem_cons_self) hp hc (hnew idx List.mem_cons_self)
      hlate hroom.1
    have hlate' : ¬ late now (processSingleCombo r now idx s).2 := by
      rwa [late, timer_processSingleCombo]
    have hother (j : ℕ) (hj : j ∈ idxs) :
        Function.update seen idx (withKey cfg r idx (seen idx)) j = seen j := by
      refine Function.update_of_ne ?_ _ _
      rintro rfl
      exact hidx hj
    have hrest := ih hnodup hone (fun j hj => hlt j (List.mem_cons_of_mem _ hj))
      (fun j hj => hother j hj ▸ hnew j (List.mem_cons_of_mem _ hj)) hlate' hroom.2
      (b || (processSingleCombo r now idx s).1)
    refine hrest.congr_seen fun j _ => ?_
    rcases eq_or_ne j idx with rfl | hne
    · simp [hidx]
    · simp [hne]

end Loop

section Rounds

variable {s₀ s t : State cfg α} {r : Record α} {now : BitVec 16} {j : ℕ}

/-- The presses of a sequence, in the form in which the key buffer holds them. -/
def queued (presses : List (Record α × BitVec 16)) : List (QueuedRecord α) :=
  presses.map fun p => ⟨p.1, .key⟩

def pressCalls (presses : List (Record α × BitVec 16)) : List (Call α) :=
  presses.map fun p => .event p.1 p.2

/-- A press of a key of some combo that is not disabled, within the combo term. The keycode is not
`KC_NO` and is not yet in the key buffer, and both buffers have room. -/
def FitsRound (s₀ s : State cfg α) (r : Record α) (now : BitVec 16) : Prop :=
  r.pressed = true ∧ r.keycode ≠ 0 ∧ r.keycode ∉ [qkComboOn, qkComboOff, qkComboToggle] ∧
    (∃ j ∈ List.range cfg.table.length, (s₀.combos j).disabled = false ∧
      r.keycode ∈ (cfg.combo j).keys) ∧
    ¬ late now s ∧ (∀ q ∈ s.keyBuffer, q.record.keycode ≠ r.keycode) ∧
    s.keyBuffer.length < cfg.keyBufferLength ∧
    (roomGuard cfg r now).Accepts s (List.range cfg.table.length)

instance (s₀ s : State cfg α) (r : Record α) (now : BitVec 16) :
    Decidable (FitsRound s₀ s r now) :=
  inferInstanceAs (Decidable (_ ∧ _ ∧ _ ∧ _ ∧ _ ∧ _ ∧ _ ∧ _))

/-- The presses fit, each in the state in which it comes. -/
def FitRound (s₀ : State cfg α) : State cfg α → List (Record α × BitVec 16) → Prop
  | _, [] => True
  | s, p :: presses =>
    FitsRound s₀ s p.1 p.2 ∧ FitRound s₀ (step s (.event p.1 p.2)) presses

instance instDecidableFitRound (s₀ : State cfg α) : (s : State cfg α) →
    (presses : List (Record α × BitVec 16)) → Decidable (FitRound s₀ s presses)
  | _, [] => isTrue trivial
  | s, p :: presses =>
    have := instDecidableFitRound s₀ (step s (.event p.1 p.2)) presses
    inferInstanceAs (Decidable (_ ∧ _))

/-- The call applies what waits: the task when the term is over, a release, or a press that no
combo takes. -/
def Applies (s : State cfg α) : Call α → Prop
  | .task now => s.enabled = true ∧ s.timer ≠ 0 ∧ s.longestTerm < (now - s.timer).toNat
  | .event r _ => r.pressed = true → r.keycode ∉ [qkComboOn, qkComboOff, qkComboToggle] ∧
      ∀ j ∈ List.range cfg.table.length, ¬ Counts s r j
  | .enable | .disable | .toggle => False

instance (s : State cfg α) (c : Call α) : Decidable (Applies s c) :=
  match c with
  | .task _ => inferInstanceAs (Decidable (_ ∧ _ ∧ _))
  | .event .. => inferInstanceAs (Decidable (_ → _))
  | .enable | .disable | .toggle => isFalse id

/-- The combos of the round that have all their keys among the presses. -/
def completed (s₀ : State cfg α) (presses : List (Record α × BitVec 16)) : Set ℕ :=
  candidates s₀ (indices cfg (queued presses))

/-- The combos that a step activates. -/
def activated (s t : State cfg α) : Set ℕ :=
  {j | j < cfg.table.length ∧ (s.combos j).active = false ∧ (t.combos j).active = true}

structure Round (s₀ s : State cfg α) : Prop where
  coded : Coded s.keyBuffer
  choosing : Choosing s₀ s (indices cfg s.keyBuffer)

theorem Rested.round (h : Rested s) : Round s s := by
  have hnone (j : ℕ) : indices cfg s.keyBuffer j = ∅ := by
    simp [indices, h.keyBuffer]
  have hempty : candidates s (indices cfg s.keyBuffer) = ∅ := by
    ext j
    simp only [candidates, hnone, Set.mem_ofPred_eq, Set.mem_empty_iff_false, iff_false]
    rintro ⟨-, hkeys, -, hall⟩
    exact hall 0 (List.length_pos_iff.mpr hkeys)
  have hwaiting : s.waiting = ∅ := by
    simp [State.waiting, h.comboBuffer]
  constructor
  · simp [Coded, h.keyBuffer]
  · constructor
    · exact h.enabled
    · intro j hj hd
      exact ⟨hd, by simp [h.comboBuffer]⟩
    · exact fun j hj => (h.idle j hj.1 hj.2).1
    · simp [hnone]
    · intro j hj _ i
      simp [hnone, Bit, (h.idle j hj.1 hj.2).2]
    · intro j hj hd
      exact absurd (hj.2.symm.trans hd) (by decide)
    · simp [h.comboBuffer]
    · simp [h.comboBuffer]
    · rw [hempty, hwaiting]
      exact selects_empty

theorem rested_start : Rested (State.start cfg α) :=
  ⟨rfl, rfl, rfl, fun _ _ _ => ⟨rfl, rfl⟩⟩

theorem Round.press (h : Round s₀ s) (hfits : FitsRound s₀ s r now) :
    Round s₀ (step s (.event r now)) ∧
      (step s (.event r now)).keyBuffer = s.keyBuffer ++ [⟨r, .key⟩] := by
  obtain ⟨hp, hc, hplain, ⟨j, hj, hd₀, hmem⟩, hlate, hnew, hlen, hroom⟩ := hfits
  have hchoosing := h.choosing
  have hnot (k i : ℕ) (hi : findKeyIndex (cfg.combo k).keys r.keycode = some i) :
      i ∉ indices cfg s.keyBuffer k := by
    rintro ⟨q, hq, hqi⟩
    exact hnew q hq (findKeyIndex_inj (h.coded q hq) hc hqi hi)
  -- The combo of the key is not disabled, so that it takes the press.
  have hcounts : ∃ k ∈ List.range cfg.table.length, Counts s r k := by
    obtain ⟨i, hi⟩ := findKeyIndex_of_mem hc hmem
    refine ⟨j, hj, i, hi, .inl ⟨?_, hchoosing.enabled⟩⟩
    rw [Bool.eq_false_iff]
    intro hd
    have hcand := hchoosing.dropped j ⟨List.mem_range.mp hj, hd₀⟩ hd
    exact hnot j i hi (hcand.2.2.2 i (findKeyIndex_lt hc hi))
  set p := processCombos r now (List.range cfg.table.length) (false, s) with hprocess
  have htaken : p.1 = true :=
    (processCombos_counts hp now _ List.nodup_range false s).mpr (.inr hcounts)
  have hbuffer : p.2.keyBuffer = s.keyBuffer :=
    (quiet_processCombos r now (List.range cfg.table.length) (false, s)).keyBuffer
  have hstep : step s (.event r now) = { p.2 with
      timer := now
      keyBuffer := s.keyBuffer ++ [⟨r, .key⟩]
      trace := p.2.trace ++ [.swallowed r] } := by
    simp only [List.mem_cons, List.not_mem_nil, or_false, not_or] at hplain
    have hlen' : p.2.keyBuffer.length < cfg.keyBufferLength := hbuffer ▸ hlen
    simp only [step, processCombo, hplain, false_and, if_false, processKey, ← hprocess, hp, htaken,
      true_and, if_true, queuePress, State.emit, hlen']
    rw [hbuffer]
  have hloop := hchoosing.loop hp hc List.nodup_range (fun k hk => List.mem_range.mp hk)
    (fun k _ => hnot k) hlate hroom false
  rw [hstep]
  refine ⟨⟨?_, ?_⟩, rfl⟩
  · intro q hq
    rcases List.mem_append.mp hq with hq | hq
    · exact h.coded q hq
    · rw [List.mem_singleton.mp hq]
      exact hc
  · have hseen : Choosing s₀ p.2 (indices cfg (s.keyBuffer ++ [⟨r, .key⟩])) := by
      refine hloop.congr_seen fun k hk => ?_
      rw [if_pos (List.mem_range.mpr hk)]
      ext i
      simp [withKey, indices, or_and_right, exists_or]
    exact hseen.congr (fun _ _ => rfl) (fun _ => rfl) rfl rfl

theorem Round.presses {presses : List (Record α × BitVec 16)} (h : Round s₀ s)
    (hfit : FitRound s₀ s presses) :
    Round s₀ (run s (pressCalls presses)) ∧
      (run s (pressCalls presses)).keyBuffer = s.keyBuffer ++ queued presses := by
  induction presses generalizing s with
  | nil => exact ⟨h, (List.append_nil _).symm⟩
  | cons p presses ih =>
    obtain ⟨hround, hbuffer⟩ := h.press hfit.1
    obtain ⟨hrest, hbuffer'⟩ := ih hround hfit.2
    refine ⟨hrest, hbuffer'.trans ?_⟩
    rw [hbuffer, List.append_assoc]
    rfl

end Rounds

section Applying

variable {s₀ s t u : State cfg α} {r : Record α} {now : BitVec 16} {idx j : ℕ}

theorem covers_congr {keys : List ℕ} {w : ℕ} {buf buf' : List (QueuedRecord α)}
    (h : buf.map QueuedRecord.record = buf'.map QueuedRecord.record) :
    Covers keys w buf ↔ Covers keys w buf' := by
  have hmem (i : ℕ) : (∃ q ∈ buf, findKeyIndex keys q.record.keycode = some i) ↔
      ∃ q ∈ buf', findKeyIndex keys q.record.keycode = some i := by
    have hmap (b : List (QueuedRecord α)) :
        (∃ q ∈ b, findKeyIndex keys q.record.keycode = some i) ↔
          ∃ r ∈ b.map QueuedRecord.record, findKeyIndex keys r.keycode = some i := by
      simp
    rw [hmap, h, hmap]
  simp only [Covers, hmem]

theorem coded_congr {buf buf' : List (QueuedRecord α)}
    (h : buf.map QueuedRecord.record = buf'.map QueuedRecord.record) : Coded buf ↔ Coded buf' := by
  have hmap (b : List (QueuedRecord α)) :
      Coded b ↔ ∀ r ∈ b.map QueuedRecord.record, r.keycode ≠ 0 := by
    simp [Coded]
  rw [hmap, h, hmap]

theorem applyCombo_frame (idx : ℕ) (s : State cfg α) :
    (applyCombo idx s).keyBuffer.map QueuedRecord.record =
      s.keyBuffer.map QueuedRecord.record ∧
    ∀ j, j ≠ idx → (applyCombo idx s).combos j = s.combos j := by
  simp only [applyCombo]
  by_cases hd : (s.combos idx).disabled = true
  · rw [if_pos hd]
    exact ⟨rfl, fun _ _ => rfl⟩
  · rw [if_neg hd]
    constructor
    · rw [(quiet_dropComboFromBuffer idx _).keyBuffer]
      split_ifs <;> exact applyLoop_records idx _ _ _
    · intro j hj
      simp only [dropComboFromBuffer]
      split_ifs <;> simp [State.emit, disableCombo, State.modify, hj]

theorem dropComboFromBuffer_active (idx j : ℕ) (s : State cfg α) :
    ((dropComboFromBuffer idx s).combos j).active = (s.combos j).active := by
  have hdisable : ((disableCombo idx s).combos j).active = (s.combos j).active := by
    rcases eq_or_ne j idx with rfl | hne
    · simp [disableCombo]
    · rw [disableCombo_of_ne s hne]
  simp only [dropComboFromBuffer]
  split_ifs
  · exact hdisable
  · exact hdisable
  · rfl

theorem applyCombo_active (hkeys : (cfg.combo idx).keys ≠ []) (hc : Coded s.keyBuffer) :
    ((applyCombo idx s).combos idx).active = true ↔ (s.combos idx).active = true ∨
      (s.combos idx).disabled = false ∧
        Covers (cfg.combo idx).keys cfg.stateBits s.keyBuffer := by
  have hdone : (applyLoop idx (cfg.combo idx).keys (0 : BitVec cfg.stateBits)
      s.keyBuffer).2.2 = true ↔ Covers (cfg.combo idx).keys cfg.stateBits s.keyBuffer :=
    applyLoop_zero_done hkeys hc
  rw [← hdone]
  simp only [applyCombo]
  generalize applyLoop idx (cfg.combo idx).keys (0 : BitVec cfg.stateBits) s.keyBuffer = loop
  by_cases hd : (s.combos idx).disabled = true
  · simp [hd]
  · rw [if_neg hd, dropComboFromBuffer_active]
    by_cases hlast : loop.2.2 = true
    · rw [if_pos hlast]
      simp [hd, hlast]
    · rw [if_neg hlast]
      simp [State.emit, hlast]

theorem foldl_applyCombo_active {ring : List ℕ} (hnodup : ring.Nodup)
    (hkeys : ∀ k ∈ ring, (cfg.combo k).keys ≠ []) (hc : Coded s.keyBuffer) (j : ℕ) :
    ((ring.foldl (fun s idx => applyCombo idx s) s).combos j).active = true ↔
      (s.combos j).active = true ∨ j ∈ ring ∧ (s.combos j).disabled = false ∧
        Covers (cfg.combo j).keys cfg.stateBits s.keyBuffer := by
  induction ring generalizing s with
  | nil => simp
  | cons idx ring ih =>
    obtain ⟨hidx, hnodup⟩ := List.nodup_cons.mp hnodup
    obtain ⟨hrecords, hother⟩ := applyCombo_frame idx s
    have hc' : Coded (applyCombo idx s).keyBuffer := (coded_congr hrecords).mpr hc
    rw [List.foldl_cons, ih hnodup (fun k hk => hkeys k (List.mem_cons_of_mem _ hk)) hc',
      covers_congr hrecords]
    rcases eq_or_ne j idx with rfl | hne
    · rw [applyCombo_active (hkeys j List.mem_cons_self) hc]
      simp [hidx]
    · simp [hother j hne, hne]

theorem clearCombos_active (s : State cfg α) (j : ℕ) :
    ((clearCombos s).combos j).active = (s.combos j).active := by
  simp only [clearCombos]
  split_ifs <;> rfl

theorem flush_active (s : State cfg α) (j : ℕ) : ((flush s).combos j).active =
    ((s.comboBuffer.foldl (fun s idx => applyCombo idx s) s).combos j).active := by
  simp only [flush]
  split_ifs with hb
  · exact clearCombos_active _ j
  · rw [not_not.mp hb]
    exact clearCombos_active _ j

/-- The keys of an event that is no combo press may only let go of combos and of places in the
combo buffer that do not count any more. -/
structure LetsGo (s t : State cfg α) : Prop where
  disabled : ∀ j, (t.combos j).disabled = (s.combos j).disabled
  active : ∀ j, (t.combos j).active = true → (s.combos j).active = true
  ring : t.comboBuffer.Sublist s.comboBuffer
  stay : ∀ j ∈ s.comboBuffer, (s.combos j).disabled = false → j ∈ t.comboBuffer

theorem LetsGo.refl (s : State cfg α) : LetsGo s s :=
  ⟨fun _ => rfl, fun _ h => h, .refl _, fun _ h _ => h⟩

theorem LetsGo.trans (h : LetsGo s t) (h' : LetsGo t u) : LetsGo s u where
  disabled j := (h'.disabled j).trans (h.disabled j)
  active j hj := h.active j (h'.active j hj)
  ring := h'.ring.trans h.ring
  stay j hj hd := h'.stay j (h.stay j hj hd) ((h.disabled j).trans hd)

theorem letsGo_modify (s : State cfg α) (idx : ℕ)
    (f : ComboState cfg.stateBits → ComboState cfg.stateBits)
    (hd : (f (s.combos idx)).disabled = (s.combos idx).disabled)
    (ha : (f (s.combos idx)).active = true → (s.combos idx).active = true) :
    LetsGo s (s.modify idx f) := by
  constructor
  · intro j
    rcases eq_or_ne j idx with rfl | hne
    · rw [modify_self, hd]
    · rw [modify_of_ne f hne]
  · intro j hj
    rcases eq_or_ne j idx with rfl | hne
    · exact ha (modify_self f ▸ hj)
    · rwa [modify_of_ne f hne] at hj
  · exact .refl _
  · exact fun _ hj _ => hj

theorem letsGo_dropComboFromBuffer (hd : (s.combos idx).disabled = true) :
    LetsGo s (dropComboFromBuffer idx s) := by
  have hdisable : LetsGo s (disableCombo idx s) := letsGo_modify s idx _ hd.symm id
  simp only [dropComboFromBuffer]
  split_ifs with hmem hhead
  · refine hdisable.trans ⟨fun _ => rfl, fun _ h => h, List.tail_sublist _, fun j hj hjd => ?_⟩
    have hne : j ≠ idx := by
      rintro rfl
      rw [hdisable.disabled, hd] at hjd
      cases hjd
    obtain ⟨rest, hrest⟩ := List.head?_eq_some_iff.mp hhead
    rw [hrest] at hj ⊢
    exact (List.mem_cons.mp hj).resolve_left hne
  · exact hdisable
  · exact .refl s

theorem letsGo_chordRelease (idx i : ℕ) (s : State cfg α) : LetsGo s (chordRelease idx i s).2 := by
  have hbits (t : State cfg α) :
      LetsGo t (t.modify idx fun c => { c with state := keyStateUp c.state i }) :=
    letsGo_modify t idx _ rfl id
  simp only [chordRelease]
  split_ifs with hfull hd
  · exact (letsGo_dropComboFromBuffer hd).trans (hbits _)
  · exact hbits _
  · have hemit : LetsGo s (s.emit (.comboEvent idx (cfg.combo idx).keycode false)) :=
      ⟨fun _ => rfl, fun _ h => h, .refl _, fun _ h _ => h⟩
    have hrelease : LetsGo (s.emit (.comboEvent idx (cfg.combo idx).keycode false))
        (releaseCombo idx s) :=
      letsGo_modify _ idx (fun c => { c with active := false }) rfl fun h => Bool.noConfusion h
    exact (hemit.trans hrelease).trans (hbits _)
  · exact hbits _
  · exact hbits _

theorem letsGo_processCombos {idxs : List ℕ} (hnodup : idxs.Nodup) (b : Bool)
    (h : r.pressed = true → ∀ j ∈ idxs, ¬ Counts s r j) :
    LetsGo s (processCombos r now idxs (b, s)).2 := by
  induction idxs generalizing s b with
  | nil => exact .refl s
  | cons idx idxs ih =>
    obtain ⟨hidx, hnodup⟩ := List.nodup_cons.mp hnodup
    have hone : LetsGo s (processSingleCombo r now idx s).2 ∧
        ∀ j, j ≠ idx → (processSingleCombo r now idx s).2.combos j = s.combos j := by
      cases hkey : findKeyIndex (cfg.combo idx).keys r.keycode with
      | none =>
        rw [processSingleCombo_none now hkey]
        exact ⟨.refl s, fun _ _ => rfl⟩
      | some i =>
        have hon : ¬ (r.pressed ∧ (s.combos idx).disabled = false ∧ s.enabled) := by
          rintro ⟨hp, hon⟩
          exact h hp idx List.mem_cons_self ⟨i, hkey, .inl hon⟩
        rw [processSingleCombo_release now hkey hon]
        exact ⟨letsGo_chordRelease idx i s, fun j hj => chordRelease_of_ne hj⟩
    refine hone.1.trans (ih hnodup _ fun hp j hj => ?_)
    have hne : j ≠ idx := by
      rintro rfl
      exact hidx hj
    rw [Counts, hone.2 j hne, (quiet_processSingleCombo r now idx s).enabled]
    exact h hp j (List.mem_cons_of_mem _ hj)

theorem Round.activated_of_active (h : Round s₀ s) (hgo : LetsGo s t)
    (hbuffer : t.keyBuffer = s.keyBuffer)
    (hactive : ∀ j, (u.combos j).active =
      ((t.comboBuffer.foldl (fun s idx => applyCombo idx s) t).combos j).active) :
    activated s u = s.waiting := by
  have hchoosing := h.choosing
  have hring : ∀ k ∈ t.comboBuffer, k ∈ candidates s₀ (indices cfg s.keyBuffer) :=
    fun k hk => hchoosing.ring k (hgo.ring.subset hk)
  have hfold := foldl_applyCombo_active (hchoosing.nodup.sublist hgo.ring)
    (fun k hk => (hring k hk).2.1) (hbuffer ▸ h.coded)
  ext j
  simp only [activated, State.waiting, Set.mem_ofPred_eq, hactive, hfold, hgo.disabled]
  constructor
  · rintro ⟨-, hidle, hold | ⟨hmem, hd, -⟩⟩
    · exact absurd (hidle.symm.trans (hgo.active j hold)) (by decide)
    · exact ⟨hgo.ring.subset hmem, hd⟩
  · rintro ⟨hmem, hd⟩
    obtain ⟨hoffers, -, hw, hall⟩ := hchoosing.ring j hmem
    refine ⟨hoffers.1, hchoosing.active j hoffers, .inr ⟨hgo.stay j hmem hd, hd, hw, ?_⟩⟩
    rw [hbuffer]
    exact hall

theorem Round.activated (h : Round s₀ s) {c : Call α} (hc : Applies s c) :
    activated s (step s c) = s.waiting := by
  cases c with
  | task now =>
    refine h.activated_of_active (.refl s) rfl fun j => ?_
    obtain ⟨he, ht, hterm⟩ := hc
    rw [step, comboTask, if_pos ⟨he, ht, hterm⟩]
    split_ifs with hb
    · exact clearCombos_active _ j
    · rw [not_not.mp hb]
      exact clearCombos_active _ j
  | event r now =>
    set p := processCombos r now (List.range cfg.table.length) (false, s) with hprocess
    have hgo : LetsGo s p.2 :=
      letsGo_processCombos List.nodup_range false fun hp => (hc hp).2
    have hbuffer : p.2.keyBuffer = s.keyBuffer :=
      (quiet_processCombos r now (List.range cfg.table.length) (false, s)).keyBuffer
    refine h.activated_of_active hgo hbuffer fun j => ?_
    have hnot : ¬ (r.pressed ∧ p.1) := by
      rintro ⟨hp, htaken⟩
      have hcounts := (processCombos_counts hp now _ List.nodup_range false s).mp htaken
      obtain ⟨k, hk, hcount⟩ := hcounts.resolve_left (by decide)
      exact (hc hp).2 k hk hcount
    have hplain (k : ℕ) (hk : k ∈ [qkComboOn, qkComboOff, qkComboToggle]) :
        ¬ (r.keycode = k ∧ r.pressed) := by
      rintro ⟨rfl, hp⟩
      exact (hc hp).1 hk
    have hstep : step s (.event r now) =
        (flush p.2).emit (if p.1 then .swallowed r else .passed r) := by
      rw [step, processCombo, if_neg (hplain _ (by simp)), if_neg (hplain _ (by simp)),
        if_neg (hplain _ (by simp)), processKey, ← hprocess, if_neg hnot]
    rw [hstep]
    exact flush_active p.2 j
  | enable => exact hc.elim
  | disable => exact hc.elim
  | toggle => exact hc.elim

/-- The combos that are activated when the presses of a round are applied have no key in common,
and from every completed combo a chain of completed combos leads to one of them, in which each has
a key in common with the next one, which has at least as many keys. -/
theorem round_selects (s₀ : State cfg α) (hrested : Rested s₀)
    (presses : List (Record α × BitVec 16)) (hfit : FitRound s₀ s₀ presses) (c : Call α)
    (hc : Applies (run s₀ (pressCalls presses)) c) :
    Selects (Shares cfg) cfg.keyCount (completed s₀ presses)
      (activated (run s₀ (pressCalls presses)) (step (run s₀ (pressCalls presses)) c)) := by
  obtain ⟨hround, hbuffer⟩ := hrested.round.presses hfit
  have hselects := hround.choosing.selects
  rwa [hbuffer, hrested.keyBuffer, List.nil_append, ← hround.activated hc] at hselects

end Applying

section Chains

instance (j : ℕ) (s₀ : State cfg α) (presses : List (Record α × BitVec 16)) :
    Decidable (j ∈ completed s₀ presses) :=
  inferInstanceAs (Decidable ((_ ∧ _) ∧ _ ≠ _ ∧ _ ≤ _ ∧ ∀ i < cfg.keyCount j,
    ∃ q ∈ queued presses, findKeyIndex (cfg.combo j).keys q.record.keycode = some i))

instance (j : ℕ) (s t : State cfg α) : Decidable (j ∈ activated s t) :=
  inferInstanceAs (Decidable (_ ∧ _ ∧ _))

instance (j k : ℕ) : Decidable (Shares cfg j k) :=
  inferInstanceAs (Decidable (∃ c ∈ (cfg.combo j).keys, c ∈ (cfg.combo k).keys))

/-- Every combo that is completed and not activated has a key in common with an activated one that
has at least as many keys. -/
def Maximal (cfg : Config) (all selected : Set ℕ) : Prop :=
  selected.Pairwise (fun j k => ¬ Shares cfg j k) ∧
    ∀ j ∈ all, j ∉ selected → ∃ k ∈ selected, Shares cfg j k ∧ cfg.keyCount j ≤ cfg.keyCount k

/-- Presses within the combo term. -/
def InTerm : State cfg α → List (Record α × BitVec 16) → Prop
  | _, [] => True
  | s, p :: presses =>
    (p.1.pressed = true ∧ ¬ late p.2 s) ∧ InTerm (step s (.event p.1 p.2)) presses

instance instDecidableInTerm : (s : State cfg α) → (presses : List (Record α × BitVec 16)) →
    Decidable (InTerm s presses)
  | _, [] => isTrue trivial
  | s, p :: presses =>
    have := instDecidableInTerm (step s (.event p.1 p.2)) presses
    inferInstanceAs (Decidable ((_ ∧ _) ∧ _))

/-- Keys with these keycodes are pressed, one every millisecond. -/
def typed (keycodes : List ℕ) : List (Record ℕ × BitVec 16) :=
  keycodes.zipIdx.map fun p => (⟨p.2, p.1, true⟩, BitVec.ofNat 16 (p.2 + 1))

/-- The state after the keys, and that after the task has applied what waits. -/
def afterTyped (cfg : Config) (keycodes : List ℕ) : State cfg ℕ :=
  run (State.start cfg ℕ) (pressCalls (typed keycodes))

def afterTask (cfg : Config) (keycodes : List ℕ) : State cfg ℕ :=
  step (afterTyped cfg keycodes) (.task 100)

/-- Three pairs, each with a key in common with the next one. -/
def chain : Config :=
  { pairs with
    table := [⟨[11, 12], 20, by decide⟩, ⟨[12, 13], 21, by decide⟩, ⟨[13, 14], 22, by decide⟩] }

theorem round_selects_chain : FitRound (State.start chain ℕ) (State.start chain ℕ)
      (typed [11, 12, 13, 14]) ∧
    Selects (Shares chain) chain.keyCount (completed (State.start chain ℕ) (typed [11, 12, 13, 14]))
      (activated (afterTyped chain [11, 12, 13, 14]) (afterTask chain [11, 12, 13, 14])) := by
  have hfit : FitRound (State.start chain ℕ) (State.start chain ℕ) (typed [11, 12, 13, 14]) := by
    decide +kernel
  exact ⟨hfit, round_selects _ rested_start _ hfit (.task 100) (by decide +kernel)⟩

/-- Eight keys for one combo, and a pair. -/
def eightKeys : Config :=
  { pairs with table := [⟨[1, 2, 3, 4, 5, 6, 7, 8], 20, by decide⟩, ⟨[9, 10], 21, by decide⟩] }

/-- The first pair of the chain has given way to the second one, which has given way to the third
one. And a completed combo may be lost altogether: when a fourth combo comes to the combo buffer,
when a ninth key comes to the key buffer, when a keycode of it is pressed at two places, and when
`KC_NO` is pressed. -/
theorem chain_not_maximal :
    (InTerm (State.start chain ℕ) (typed [11, 12, 13, 14]) ∧
      Applies (afterTyped chain [11, 12, 13, 14]) (.task 100) ∧
      ¬ Maximal chain (completed (State.start chain ℕ) (typed [11, 12, 13, 14]))
        (activated (afterTyped chain [11, 12, 13, 14]) (afterTask chain [11, 12, 13, 14]))) ∧
    ∀ p ∈ [(pairs, [1, 2, 3, 4, 5, 6, 7, 8]), (eightKeys, [9, 1, 2, 3, 4, 5, 6, 7, 8]),
        (chain, [11, 12, 12]), (chain, [11, 0, 12])],
      InTerm (State.start p.1 ℕ) (typed p.2) ∧ Applies (afterTyped p.1 p.2) (.task 100) ∧
      0 ∈ completed (State.start p.1 ℕ) (typed p.2) ∧
      ∀ k < p.1.table.length, k ∉ activated (afterTyped p.1 p.2) (afterTask p.1 p.2) := by
  refine ⟨⟨by decide +kernel, by decide +kernel, ?_⟩, by decide +kernel⟩
  rintro ⟨-, hmaximal⟩
  obtain ⟨k, hk, hshares, -⟩ := hmaximal 0 (by decide +kernel) (by decide +kernel)
  have hlt : k < 3 := hk.1
  interval_cases k
  · exact absurd hk (by decide +kernel)
  · exact absurd hk (by decide +kernel)
  · exact absurd hshares (by decide +kernel)

end Chains

end Qmk.Combos
