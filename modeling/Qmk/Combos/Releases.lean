import Qmk.Combos.Tracking

/-! # Swallowed releases

The release of a key is swallowed exactly when its press was consumed by a combo
that was activated. This holds as long as the two buffers have room, no key is
`KC_NO`, and no two keys with the same keycode of the table are down at once. A
combo buffer that has just been filled looks empty: its combos are not applied,
but releases of their keys are swallowed.
-/

namespace Qmk.Combos

variable {cfg : Config} {α : Type*}

section Input

variable [DecidableEq α]

def Call.holds (h : Held α) : Call α → Held α
  | .event r _ => if r.pressed then h ++ [r.entry] else h.filter (·.1 ≠ r.key)
  | .task _ | .enable | .disable | .toggle => h

/-- Every key alternates press and release, and is released with the keycode of its press. -/
def alternation (α : Type*) [DecidableEq α] : Monitor (Call α) (Held α) where
  next := Call.holds
  ok h
    | .event r _ => if r.pressed then ∀ p ∈ h, p.1 ≠ r.key else r.entry ∈ h
    | .task _ | .enable | .disable | .toggle => True

instance : ∀ (h : Held α) c, Decidable ((alternation α).ok h c)
  | h, .event r _ => inferInstanceAs
      (Decidable (if r.pressed then ∀ p ∈ h, p.1 ≠ r.key else r.entry ∈ h))
  | _, .task _ | _, .enable | _, .disable | _, .toggle => isTrue trivial

/-- The combos that wait behind those at the front that give way to combo `idx`. -/
def stayBehind (cfg : Config) (idx : ℕ) (ring : List ℕ) : List ℕ :=
  ring.dropWhile fun j => decide (overlaps cfg j idx = some j ∧ j ≠ idx)

/-- A combo that is completed in time, and does not give way to one that is waiting, finds the
combo buffer with two places left. -/
def RoomSingle (r : Record α) (now : BitVec 16) (s : State cfg α) (idx : ℕ) : Prop :=
  completes r idx s = true → late now s ∨ (∃ j ∈ s.comboBuffer, overlaps cfg j idx = some idx) ∨
    (stayBehind cfg idx s.comboBuffer).length + 1 < cfg.comboBufferLength

instance (r : Record α) (now : BitVec 16) (s : State cfg α) (idx : ℕ) :
    Decidable (RoomSingle r now s idx) :=
  inferInstanceAs (Decidable (_ → _))

/-- The loop over the table, each combo judged in the state in which it is reached. -/
def roomGuard (cfg : Config) (r : Record α) (now : BitVec 16) : Monitor ℕ (State cfg α) where
  next s idx := (processSingleCombo r now idx s).2
  ok := RoomSingle r now

instance (r : Record α) (now : BitVec 16) : ∀ s idx, Decidable ((roomGuard cfg r now).ok s idx) :=
  fun s idx => inferInstanceAs (Decidable (RoomSingle r now s idx))

/-- The key is not `KC_NO`, no other key is down with the same keycode of the table, and there is
room in both buffers. -/
def ClearPress (r : Record α) (now : BitVec 16) (s : State cfg α) (h : Held α) : Prop :=
  r.keycode ≠ 0 ∧ (InTable cfg r.keycode → ∀ p ∈ h, p.2 ≠ r.keycode) ∧
    (¬ switchKeycode r.keycode →
      (InTable cfg r.keycode → s.keyBuffer.length < cfg.keyBufferLength) ∧
      (roomGuard cfg r now).Accepts s (List.range cfg.table.length))

instance (r : Record α) (now : BitVec 16) (s : State cfg α) (h : Held α) :
    Decidable (ClearPress r now s h) :=
  inferInstanceAs (Decidable (_ ∧ _ ∧ _))

def releaseGuard (cfg : Config) (α : Type*) [DecidableEq α] :
    Monitor (Call α) (State cfg α × Held α) where
  next p c := (step p.1 c, c.holds p.2)
  ok p
    | .event r now => r.pressed = true → ClearPress r now p.1 p.2
    | .task _ | .enable | .disable | .toggle => True

instance : ∀ (p : State cfg α × Held α) c, Decidable ((releaseGuard cfg α).ok p c)
  | p, .event r now => inferInstanceAs (Decidable (r.pressed = true → ClearPress r now p.1 p.2))
  | _, .task _ | _, .enable | _, .disable | _, .toggle => isTrue trivial

end Input

section Overlapping

variable {s : State cfg α} {idx : ℕ} {ring kept : List ℕ}

theorem disableCombo_disabled (d j : ℕ) (s : State cfg α) :
    ((disableCombo d s).combos j).disabled = true ↔ (s.combos j).disabled = true ∨ j = d := by
  rcases eq_or_ne j d with rfl | hne
  · simp [disableCombo]
  · simp [disableCombo_of_ne s hne, hne]

theorem dropOverlaps_disabled (ring kept : List ℕ) {j : ℕ} (hd : (s.combos j).disabled = true) :
    ((dropOverlaps idx ring kept s).2.combos j).disabled = true := by
  rcases dropOverlaps_combos idx ring kept s j with he | he
  · rw [he]
    exact hd
  · rw [he]

theorem dropOverlaps_sublist (idx : ℕ) (ring kept : List ℕ) (s : State cfg α) :
    (dropOverlaps idx ring kept s).2.comboBuffer.Sublist (kept ++ ring) := by
  fun_induction dropOverlaps idx ring kept s with
  | case1 => simp
  | case2 _ _ _ _ _ ih => simpa using ih
  | case3 => exact .refl _
  | case4 _ _ _ _ _ _ _ ih => exact ih.trans (List.sublist_cons_self _ _)
  | case5 _ _ _ _ _ _ _ _ _ ih => simpa using ih

theorem dropOverlaps_stay (idx : ℕ) (ring kept : List ℕ) (s : State cfg α) :
    ∀ j ∈ kept ++ ring, ((dropOverlaps idx ring kept s).2.combos j).disabled = false →
      j ∈ (dropOverlaps idx ring kept s).2.comboBuffer := by
  fun_induction dropOverlaps idx ring kept s with
  | case1 => exact fun j hj _ => by simpa using hj
  | case2 _ _ _ _ _ ih => simpa using ih
  | case3 => exact fun j hj _ => hj
  | case4 l rest s d ho t hne ih =>
    intro j hj hd
    rcases List.mem_cons.mp hj with rfl | hj
    · rcases overlaps_cases ho with rfl | rfl
      · rw [dropOverlaps_disabled rest [] ((disableCombo_disabled d d s).mpr (Or.inr rfl))] at hd
        cases hd
      · exact absurd rfl hne
    · exact ih j hj hd
  | case5 _ _ _ _ _ _ _ _ _ ih => simpa using ih

theorem dropOverlaps_true (h : (dropOverlaps idx ring kept s).1 = true) :
    ((dropOverlaps idx ring kept s).2.combos idx).disabled = true := by
  fun_induction dropOverlaps idx ring kept s with
  | case1 => cases h
  | case2 _ _ _ _ _ ih => exact ih h
  | case3 => exact (disableCombo_disabled _ _ _).mpr (Or.inr rfl)
  | case4 _ _ _ _ _ _ _ ih => exact ih h
  | case5 _ _ _ _ _ _ _ _ _ ih => exact ih h

/-- A combo that no waiting one makes give way; what is left of the combo buffer. -/
theorem dropOverlaps_false (h : (dropOverlaps idx ring kept s).1 = false) :
    (∀ j ∈ ring, overlaps cfg j idx ≠ some idx) ∧
    (dropOverlaps idx ring kept s).2.comboBuffer =
      kept ++ if kept = [] then stayBehind cfg idx ring else ring := by
  fun_induction dropOverlaps idx ring kept s with
  | case1 => simp [stayBehind]
  | case2 j rest kept s ho ih =>
    obtain ⟨hall, hb⟩ := ih h
    refine ⟨?_, ?_⟩
    · rintro l (_ | ⟨_, hl⟩)
      · simp [ho]
      · exact hall l hl
    · rw [hb]
      simp [stayBehind, ho]
  | case3 => cases h
  | case4 j rest s d ho t hne ih =>
    obtain ⟨hall, hb⟩ := ih h
    refine ⟨?_, ?_⟩
    · rintro l (_ | ⟨_, hl⟩)
      · simpa [ho] using hne
      · exact hall l hl
    · have hd : d = j := (overlaps_cases ho).resolve_right hne
      subst hd
      rw [hb]
      simp [stayBehind, ho, hne]
  | case5 j rest kept s d ho t hne hkept ih =>
    obtain ⟨hall, hb⟩ := ih h
    refine ⟨?_, ?_⟩
    · rintro l (_ | ⟨_, hl⟩)
      · simpa [ho] using hne
      · exact hall l hl
    · rw [hb]
      simp [hkept]

theorem overlaps_self (hk : (cfg.combo idx).keys ≠ []) : overlaps cfg idx idx = some idx := by
  obtain ⟨c, hc⟩ := List.exists_mem_of_ne_nil _ hk
  rw [overlaps, if_pos, if_neg (lt_irrefl _)]
  simp only [List.any_eq_true, List.contains_iff_mem]
  exact ⟨c, hc, hc⟩

/-- What `bufferCombo` does with a completed combo. -/
structure Offered (s t : State cfg α) (idx : ℕ) : Prop where
  state : ∀ j, (t.combos j).state = (s.combos j).state
  active : ∀ j, (t.combos j).active = (s.combos j).active
  disabled : ∀ j, (s.combos j).disabled = true → (t.combos j).disabled = true
  enabled : t.enabled = s.enabled
  ring : ∀ j ∈ t.comboBuffer, j ∈ s.comboBuffer ∨ j = idx
  nodup : s.comboBuffer.Nodup → t.comboBuffer.Nodup
  stay : ∀ j ∈ s.comboBuffer, (t.combos j).disabled = false → j ∈ t.comboBuffer

theorem offered_disableCombo (idx : ℕ) (s : State cfg α) : Offered s (disableCombo idx s) idx where
  state j := by
    rcases eq_or_ne j idx with rfl | hne
    · simp [disableCombo]
    · rw [disableCombo_of_ne s hne]
  active j := by
    rcases eq_or_ne j idx with rfl | hne
    · simp [disableCombo]
    · rw [disableCombo_of_ne s hne]
  disabled j hd := (disableCombo_disabled idx j s).mpr (Or.inl hd)
  enabled := rfl
  ring _ hj := Or.inl hj
  nodup hn := hn
  stay _ hj _ := hj

theorem offered_bufferCombo (hk : (cfg.combo idx).keys ≠ []) {now : BitVec 16}
    (hroom : late now s ∨ (∃ j ∈ s.comboBuffer, overlaps cfg j idx = some idx) ∨
      (stayBehind cfg idx s.comboBuffer).length + 1 < cfg.comboBufferLength) :
    Offered s (bufferCombo idx now s) idx ∧
    (((bufferCombo idx now s).combos idx).disabled = false →
      idx ∈ (bufferCombo idx now s).comboBuffer) := by
  have hcombos := dropOverlaps_combos idx s.comboBuffer [] s
  have hquiet := quiet_dropOverlaps idx s.comboBuffer [] s
  have hsub := dropOverlaps_sublist idx s.comboBuffer [] s
  have hstay := dropOverlaps_stay idx s.comboBuffer [] s
  have hstate : ∀ j, ((dropOverlaps idx s.comboBuffer [] s).2.combos j).state =
      (s.combos j).state := fun j => by rcases hcombos j with he | he <;> rw [he]
  have hactive : ∀ j, ((dropOverlaps idx s.comboBuffer [] s).2.combos j).active =
      (s.combos j).active := fun j => by rcases hcombos j with he | he <;> rw [he]
  rw [List.nil_append] at hsub hstay
  simp only [bufferCombo]
  split_ifs with hl ht
  · refine ⟨offered_disableCombo idx s, fun hd => ?_⟩
    rw [(disableCombo_disabled idx idx s).mpr (Or.inr rfl)] at hd
    cases hd
  · refine ⟨⟨hstate, hactive, fun j hd => dropOverlaps_disabled _ _ hd, hquiet.enabled,
      fun j hj => Or.inl (hsub.subset hj), fun hn => hn.sublist hsub, hstay⟩, fun hd => ?_⟩
    rw [dropOverlaps_true ht] at hd
    cases hd
  · obtain ⟨hall, hb⟩ := dropOverlaps_false (Bool.eq_false_iff.mpr ht)
    rw [List.nil_append, if_pos rfl] at hb
    have hlen : (stayBehind cfg idx s.comboBuffer).length + 1 < cfg.comboBufferLength := by
      rcases hroom with hlate | ⟨j, hj, hdom⟩ | hlen
      · exact absurd hlate hl
      · exact absurd hdom (hall j hj)
      · exact hlen
    have hpush : (pushCombo idx (dropOverlaps idx s.comboBuffer [] s).2).comboBuffer =
        (dropOverlaps idx s.comboBuffer [] s).2.comboBuffer ++ [idx] := by
      simp only [pushCombo]
      rw [if_neg]
      rw [hb]
      omega
    have hidx : idx ∉ (dropOverlaps idx s.comboBuffer [] s).2.comboBuffer :=
      fun hm => hall idx (hsub.subset hm) (overlaps_self hk)
    refine ⟨⟨hstate, hactive, fun j hd => dropOverlaps_disabled _ _ hd, hquiet.enabled, ?_, ?_, ?_⟩,
      fun _ => ?_⟩
    · intro j hj
      rw [hpush] at hj
      rcases List.mem_append.mp hj with hj | hj
      · exact Or.inl (hsub.subset hj)
      · exact Or.inr (List.mem_singleton.mp hj)
    · intro hn
      rw [hpush, List.nodup_append]
      refine ⟨hn.sublist hsub, List.nodup_singleton _, ?_⟩
      rintro j hj l hl rfl
      rw [List.mem_singleton.mp hl] at hj
      exact hidx hj
    · intro j hj hd
      rw [hpush]
      exact List.mem_append_left _ (hstay j hj hd)
    · rw [hpush]
      exact List.mem_append_right _ (List.mem_singleton_self _)

end Overlapping

section Press

variable {s t : State cfg α} {h : Held α} {f : α → Fate} {buf : List (QueuedRecord α)}
  {r : Record α} {now : BitVec 16} {idx i : ℕ}

/-- What `chordPress` does with a combo that is not active. -/
structure Pressed (s t : State cfg α) (idx i : ℕ) : Prop where
  self : (t.combos idx).state = keyStateDown (s.combos idx).state i
  other : ∀ j, j ≠ idx → (t.combos j).state = (s.combos j).state
  active : ∀ j, (t.combos j).active = (s.combos j).active
  disabled : ∀ j, (s.combos j).disabled = true → (t.combos j).disabled = true
  enabled : t.enabled = s.enabled
  ring : ∀ j ∈ t.comboBuffer, j ∈ s.comboBuffer ∨ j = idx
  nodup : s.comboBuffer.Nodup → t.comboBuffer.Nodup
  stay : ∀ j ∈ s.comboBuffer, (t.combos j).disabled = false → j ∈ t.comboBuffer
  waits : allComboKeysAreDown (t.combos idx).state (cfg.combo idx).keys.length →
    (t.combos idx).disabled = false → idx ∈ t.comboBuffer

theorem pressed_chordPress (hk : (cfg.combo idx).keys ≠ []) (ha : (s.combos idx).active = false)
    (hroom : allComboKeysAreDown (keyStateDown (s.combos idx).state i)
        (cfg.combo idx).keys.length →
      late now s ∨ (∃ j ∈ s.comboBuffer, overlaps cfg j idx = some idx) ∨
        (stayBehind cfg idx s.comboBuffer).length + 1 < cfg.comboBufferLength) :
    Pressed s (chordPress idx i now s) idx i := by
  set u : State cfg α := { s.modify idx (fun c => { c with state := keyStateDown c.state i }) with
    longestTerm := max s.longestTerm cfg.comboTerm } with hu
  have hself : u.combos idx =
      { s.combos idx with state := keyStateDown (s.combos idx).state i } := by
    simp [hu, State.modify]
  have hother : ∀ j, j ≠ idx → u.combos j = s.combos j := by
    intro j hj
    simp [hu, State.modify, hj]
  have hactive : ∀ j, (u.combos j).active = (s.combos j).active := by
    intro j
    rcases eq_or_ne j idx with rfl | hne
    · rw [hself]
    · rw [hother j hne]
  have hdisabled : ∀ j, (u.combos j).disabled = (s.combos j).disabled := by
    intro j
    rcases eq_or_ne j idx with rfl | hne
    · rw [hself]
    · rw [hother j hne]
  have hstate : (u.combos idx).state = keyStateDown (s.combos idx).state i := by rw [hself]
  simp only [chordPress, ha, Bool.false_eq_true, if_false, ← hu]
  split_ifs with hfull
  · rw [hstate] at hfull
    obtain ⟨ho, hw⟩ := offered_bufferCombo (s := u) hk (hroom hfull)
    refine ⟨(ho.state idx).trans hstate, fun j hj => ?_, fun j => (ho.active j).trans (hactive j),
      fun j hd => ho.disabled j ((hdisabled j).trans hd), ho.enabled, ho.ring, ho.nodup, ho.stay,
      fun _ => hw⟩
    rw [ho.state, hother j hj]
  · refine ⟨hstate, fun j hj => by rw [hother j hj], hactive, fun j hd => (hdisabled j).trans hd,
      rfl, fun j hj => Or.inl hj, id, fun j hj _ => hj, fun h => absurd h hfull⟩

/-- A press of `r` that is new: its key is down, and nothing has become of the press. -/
structure NewPress (cfg : Config) (h : Held α) (f : α → Fate) (buf : List (QueuedRecord α))
    (r : Record α) : Prop where
  heldOk : HeldOk cfg h
  mem : r.entry ∈ h
  coded : Coded buf
  held : ∀ q ∈ buf, q.record.entry ∈ h
  key_ne : ∀ q ∈ buf, q.record.key ≠ r.key
  fate : (f r.key).consumed = false

theorem NewPress.keycode_ne (hn : NewPress cfg h f buf r) : r.keycode ≠ 0 :=
  hn.heldOk.coded _ hn.mem

theorem NewPress.not_bit (hn : NewPress cfg h f buf r) (hs : Sound s h f) (hm : Mirrors s h buf idx)
    (hj : idx < cfg.table.length) (hi : findKeyIndex (cfg.combo idx).keys r.keycode = some i) :
    ¬ Bit s idx i := by
  intro hb
  cases ha : (s.combos idx).active with
  | true =>
    obtain ⟨p, hp, hpi, hpc⟩ := hs.consumed idx hj ha i hb
    obtain rfl := hn.heldOk.eq_of_index hp hn.mem hj hpi hi
    rw [show (f r.entry.1).consumed = false from hn.fate] at hpc
    cases hpc
  | false =>
    obtain ⟨q, hq, hqh, hqi⟩ := hm.bits ha i hb
    have he := hn.heldOk.eq_of_index hqh hn.mem hj hqi hi
    exact hn.key_ne q hq (congrArg Prod.fst he)

theorem chordRelease_fresh (hb : ¬ Bit s idx i) (hi : i < (cfg.combo idx).keys.length) :
    chordRelease idx i s = (false, s) := by
  have hup : keyStateUp (s.combos idx).state i = (s.combos idx).state := by
    apply BitVec.eq_of_getLsbD_eq
    intro j _
    rw [Bool.eq_iff_iff, keyStateUp_bit]
    refine ⟨And.left, fun hj => ⟨hj, ?_⟩⟩
    rintro rfl
    exact hb hj
  have hfull : ¬ allComboKeysAreDown (s.combos idx).state (cfg.combo idx).keys.length :=
    fun hall => hb (((allComboKeysAreDown_iff.mp hall).2 i).mpr hi)
  have hnot : keyNotYetReleased (s.combos idx).state i = false := Bool.eq_false_iff.mpr hb
  have hsame : (s.modify idx fun c => { c with state := keyStateUp c.state i }) = s := by
    simp [State.modify, hup]
  simp only [chordRelease, hfull, hnot, and_false, if_false, Bool.false_eq_true]
  rw [hsame]

theorem processSingleCombo_fresh (hc : r.keycode ≠ 0) (now : BitVec 16)
    (hb : ∀ i, findKeyIndex (cfg.combo idx).keys r.keycode = some i → ¬ Bit s idx i) :
    (∃ i, findKeyIndex (cfg.combo idx).keys r.keycode = some i ∧
      (s.combos idx).disabled = false ∧ s.enabled = true ∧
      processSingleCombo r now idx s = (true, chordPress idx i now s)) ∨
    processSingleCombo r now idx s = (false, s) ∧
      (r.pressed = true → s.enabled = true →
        findKeyIndex (cfg.combo idx).keys r.keycode = none ∨ (s.combos idx).disabled = true) := by
  rcases hi : findKeyIndex (cfg.combo idx).keys r.keycode with _ | i
  · exact Or.inr ⟨processSingleCombo_none now hi, fun _ _ => Or.inl rfl⟩
  · by_cases hp : r.pressed ∧ (s.combos idx).disabled = false ∧ s.enabled
    · exact Or.inl ⟨i, rfl, hp.2.1, hp.2.2, processSingleCombo_press now hi hp⟩
    · refine Or.inr ⟨?_, fun hpr he => Or.inr ?_⟩
      · rw [processSingleCombo_release now hi hp]
        exact chordRelease_fresh (hb i hi) (findKeyIndex_lt hc hi)
      · by_contra hd
        exact hp ⟨hpr, Bool.eq_false_iff.mpr hd, he⟩

theorem processCombos_untaken (hc : r.keycode ≠ 0) (now : BitVec 16) {idxs : List ℕ} {b : Bool}
    (hb : ∀ j ∈ idxs, ∀ i, findKeyIndex (cfg.combo j).keys r.keycode = some i → ¬ Bit s j i)
    (hfalse : (processCombos r now idxs (b, s)).1 = false) :
    b = false ∧ (processCombos r now idxs (b, s)).2 = s := by
  induction idxs generalizing b with
  | nil => exact ⟨hfalse, rfl⟩
  | cons idx idxs ih =>
    have hb' : ∀ j ∈ idxs, ∀ i, findKeyIndex (cfg.combo j).keys r.keycode = some i → ¬ Bit s j i :=
      fun j hj => hb j (List.mem_cons_of_mem _ hj)
    rcases processSingleCombo_fresh hc now (hb idx List.mem_cons_self) with
      ⟨i, -, -, -, he⟩ | ⟨he, -⟩
    · -- once taken, always taken
      have htaken : ∀ (l : List ℕ) (u : State cfg α),
          (processCombos r now l (true, u)).1 = true := by
        intro l
        induction l with
        | nil => exact fun _ => rfl
        | cons k l ih => exact fun u => ih _
      simp only [processCombos, he, Bool.or_true] at hfalse
      rw [htaken] at hfalse
      cases hfalse
    · simp only [processCombos, he, Bool.or_false] at hfalse ⊢
      exact ih hb' hfalse

/-- The waiting combos and the active ones, after a press of combo `idx`, which is not active. -/
theorem Sound.pressed (hs : Sound s h f) (hp : Pressed s t idx i) (he : s.enabled = true)
    (ha : (s.combos idx).active = false) (hj : idx < cfg.table.length)
    (hk : (cfg.combo idx).keys ≠ []) : Sound t h f := by
  have hne : ∀ {j}, (s.combos j).active = true → j ≠ idx := by
    rintro j hact rfl
    rw [ha] at hact
    cases hact
  constructor
  · exact hp.nodup hs.nodup
  · intro j hjt
    rcases hp.ring j hjt with hjs | rfl
    · exact hs.ring j hjs
    · exact ⟨hj, hk⟩
  · intro hoff
    rw [hp.enabled, he] at hoff
    cases hoff
  · intro j hact
    rw [hp.active] at hact
    exact hp.disabled j (hs.active j hact)
  · intro j hjl hact i' hi'
    rw [hp.active] at hact
    rw [Bit, hp.other j (hne hact)] at hi'
    exact hs.consumed j hjl hact i' hi'
  · intro p hpm hpc
    obtain ⟨j, hjl, hact, i', hi', hb⟩ := hs.active_of p hpm hpc
    refine ⟨j, hjl, (hp.active j).trans hact, i', hi', ?_⟩
    rw [Bit, hp.other j (hne hact)]
    exact hb
  · exact hs.once

theorem Mirrors.pressed {j : ℕ} (hm : Mirrors s h buf j) (hw : Waits s buf j)
    (hp : Pressed s t idx i) (hj : j ≠ idx) : Mirrors t h buf j ∧ Waits t buf j := by
  have hd : (t.combos j).disabled = false → (s.combos j).disabled = false := by
    intro hd
    rw [Bool.eq_false_iff]
    intro hd'
    rw [hp.disabled j hd'] at hd
    cases hd
  refine ⟨⟨?_, ?_⟩, ?_⟩
  · simpa only [Bit, hp.active, hp.other j hj] using hm.bits
  · intro hdt
    simpa only [Bit, hp.other j hj] using hm.covered (hd hdt)
  · exact fun hdt hk hc => hp.stay j (hw (hd hdt) hk hc) hdt

theorem Mirrors.pressed_self (hm : Mirrors s h buf idx) (hn : NewPress cfg h f buf r)
    (hp : Pressed s t idx i) (ha : (s.combos idx).active = false)
    (hd : (s.combos idx).disabled = false)
    (hi : findKeyIndex (cfg.combo idx).keys r.keycode = some i) :
    Mirrors t h (buf ++ [⟨r, .key⟩]) idx ∧ Waits t (buf ++ [⟨r, .key⟩]) idx := by
  have hmt : Mirrors t h (buf ++ [⟨r, .key⟩]) idx := by
    constructor
    · intro _ i' hi'
      rw [Bit, hp.self, keyStateDown_bit] at hi'
      rcases hi' with hb | ⟨rfl, -⟩
      · obtain ⟨q, hq, hqh, hqi⟩ := hm.bits ha i' hb
        exact ⟨q, List.mem_append_left _ hq, hqh, hqi⟩
      · exact ⟨_, List.mem_append_right _ (List.mem_singleton_self _), hn.mem, hi⟩
    · intro _ q hq hqh i' hqi hlt
      rw [Bit, hp.self, keyStateDown_bit]
      rcases List.mem_append.mp hq with hq | hq
      · exact Or.inl (hm.covered hd q hq hqh i' hqi hlt)
      · rw [List.mem_singleton.mp hq] at hqi
        exact Or.inr ⟨Option.some.inj (hi.symm.trans hqi), hlt⟩
  refine ⟨hmt, fun hdt _ hcov => hp.waits ?_ hdt⟩
  refine (hmt.full_iff ?_ ?_ hdt ((hp.active idx).trans ha)).mpr hcov
  · intro q hq
    rcases List.mem_append.mp hq with hq | hq
    · exact hn.coded q hq
    · rw [List.mem_singleton.mp hq]
      exact hn.keycode_ne
  · intro q hq
    rcases List.mem_append.mp hq with hq | hq
    · exact hn.held q hq
    · rw [List.mem_singleton.mp hq]
      exact hn.mem

/-- A press of a key that the combo does not have, or that finds it disabled. -/
theorem Mirrors.untouched (hm : Mirrors s h buf idx) (hw : Waits s buf idx)
    (hu : findKeyIndex (cfg.combo idx).keys r.keycode = none ∨ (s.combos idx).disabled = true) :
    Mirrors s h (buf ++ [⟨r, .key⟩]) idx ∧ Waits s (buf ++ [⟨r, .key⟩]) idx := by
  have hnone : (s.combos idx).disabled = false →
      findKeyIndex (cfg.combo idx).keys r.keycode = none :=
    fun hd => hu.resolve_right (by simp [hd])
  refine ⟨⟨?_, ?_⟩, ?_⟩
  · intro ha i' hi'
    obtain ⟨q, hq, hqh, hqi⟩ := hm.bits ha i' hi'
    exact ⟨q, List.mem_append_left _ hq, hqh, hqi⟩
  · intro hd q hq hqh i' hqi hlt
    rcases List.mem_append.mp hq with hq | hq
    · exact hm.covered hd q hq hqh i' hqi hlt
    · rw [List.mem_singleton.mp hq, hnone hd] at hqi
      cases hqi
  · intro hd hk hcov
    refine hw hd hk ⟨hcov.1, fun i' hi' => ?_⟩
    obtain ⟨q, hq, hqi⟩ := hcov.2 i' hi'
    rcases List.mem_append.mp hq with hq | hq
    · exact ⟨q, hq, hqi⟩
    · rw [List.mem_singleton.mp hq, hnone hd] at hqi
      cases hqi

/-- The loop over the table on a new press. The combos `idxs` are still to come; the others have
seen the press. -/
theorem NewPress.loop (hn : NewPress cfg h f buf r) (hpr : r.pressed = true) {idxs : List ℕ}
    (hnd : idxs.Nodup) (hlt : ∀ j ∈ idxs, j < cfg.table.length) (he : s.enabled = true)
    (hs : Sound s h f) (htodo : ∀ j ∈ idxs, Mirrors s h buf j ∧ Waits s buf j)
    (hdone : ∀ j < cfg.table.length, j ∉ idxs →
      Mirrors s h (buf ++ [⟨r, .key⟩]) j ∧ Waits s (buf ++ [⟨r, .key⟩]) j)
    (hroom : (roomGuard cfg r now).Accepts s idxs) (b : Bool) :
    Sound (processCombos r now idxs (b, s)).2 h f ∧ ∀ j < cfg.table.length,
      Mirrors (processCombos r now idxs (b, s)).2 h (buf ++ [⟨r, .key⟩]) j ∧
      Waits (processCombos r now idxs (b, s)).2 (buf ++ [⟨r, .key⟩]) j := by
  induction idxs generalizing s b with
  | nil => exact ⟨hs, fun j hj => hdone j hj List.not_mem_nil⟩
  | cons idx idxs ih =>
    obtain ⟨hidx, hnd⟩ := List.nodup_cons.mp hnd
    have hj := hlt idx List.mem_cons_self
    obtain ⟨hm, hw⟩ := htodo idx List.mem_cons_self
    obtain ⟨hone, hrest⟩ := hroom
    have hlt' : ∀ j ∈ idxs, j < cfg.table.length := fun j hj => hlt j (List.mem_cons_of_mem _ hj)
    change (roomGuard cfg r now).Accepts (processSingleCombo r now idx s).2 idxs at hrest
    rcases processSingleCombo_fresh hn.keycode_ne now
      (fun i hi => hn.not_bit hs hm hj hi) with ⟨i, hi, hd, -, heq⟩ | ⟨heq, huntaken⟩
    · have ha := hs.inactive hd
      have hk : (cfg.combo idx).keys ≠ [] :=
        List.ne_nil_of_mem (mem_of_findKeyIndex hn.keycode_ne hi)
      have hp : Pressed s (chordPress idx i now s) idx i := by
        refine pressed_chordPress hk ha fun hfull => hone ?_
        simp [completes, hi, hd, he, hfull]
      rw [heq] at hrest
      simp only [processCombos, heq]
      refine ih hnd hlt' (hp.enabled.trans he) (hs.pressed hp he ha hj hk) ?_ ?_ hrest _
      · intro j hjm
        obtain ⟨hmj, hwj⟩ := htodo j (List.mem_cons_of_mem _ hjm)
        refine hmj.pressed hwj hp ?_
        rintro rfl
        exact hidx hjm
      · intro j hjl hjm
        rcases eq_or_ne j idx with rfl | hne
        · exact hm.pressed_self hn hp ha hd hi
        · obtain ⟨hmj, hwj⟩ := hdone j hjl (by simp [hne, hjm])
          exact hmj.pressed hwj hp hne
    · rw [heq] at hrest
      simp only [processCombos, heq]
      refine ih hnd hlt' he hs (fun j hjm => htodo j (List.mem_cons_of_mem _ hjm)) ?_ hrest _
      intro j hjl hjm
      rcases eq_or_ne j idx with rfl | hne
      · exact hm.untouched hw (huntaken hpr he)
      · exact hdone j hjl (by simp [hne, hjm])

theorem processCombos_off (hc : r.keycode ≠ 0) (now : BitVec 16) {idxs : List ℕ} {b : Bool}
    (hb : ∀ j ∈ idxs, ∀ i, findKeyIndex (cfg.combo j).keys r.keycode = some i → ¬ Bit s j i)
    (hoff : s.enabled = false) : (processCombos r now idxs (b, s)).1 = b := by
  induction idxs generalizing b with
  | nil => rfl
  | cons idx idxs ih =>
    rcases processSingleCombo_fresh hc now (hb idx List.mem_cons_self) with
      ⟨i, -, -, he, -⟩ | ⟨he, -⟩
    · rw [hoff] at he
      cases he
    · simp only [processCombos, he, Bool.or_false]
      exact ih fun j hj => hb j (List.mem_cons_of_mem _ hj)

theorem HeldOk.hold (hh : HeldOk cfg h) (hk : ∀ p ∈ h, p.1 ≠ r.key) (hc : r.keycode ≠ 0)
    (hcode : InTable cfg r.keycode → ∀ p ∈ h, p.2 ≠ r.keycode) : HeldOk cfg (h ++ [r.entry]) := by
  constructor
  · intro p hp
    rcases List.mem_append.mp hp with hp | hp
    · exact hh.coded p hp
    · rw [List.mem_singleton.mp hp]
      exact hc
  · intro p hp p' hp' he
    rcases List.mem_append.mp hp with hp | hp <;> rcases List.mem_append.mp hp' with hp' | hp'
    · exact hh.keys p hp p' hp' he
    · rw [List.mem_singleton.mp hp'] at he
      exact absurd he (hk p hp)
    · rw [List.mem_singleton.mp hp] at he
      exact absurd he.symm (hk p' hp')
    · rw [List.mem_singleton.mp hp, List.mem_singleton.mp hp']
  · intro p hp p' hp' he hin
    rcases List.mem_append.mp hp with hp | hp <;> rcases List.mem_append.mp hp' with hp' | hp'
    · exact hh.codes p hp p' hp' he hin
    · rw [List.mem_singleton.mp hp'] at he
      rw [he] at hin
      exact absurd he (hcode hin p hp)
    · rw [List.mem_singleton.mp hp] at he hin
      exact absurd he.symm (hcode hin p' hp')
    · rw [List.mem_singleton.mp hp, List.mem_singleton.mp hp']

theorem Tracked.queue (ht : Tracked s h f buf) (hn : NewPress cfg h f buf r)
    (hfate : f r.key = ⟨false, false⟩) (hs : Sound t h f)
    (hm : ∀ j < cfg.table.length, Mirrors t h (buf ++ [⟨r, .key⟩]) j ∧
      Waits t (buf ++ [⟨r, .key⟩]) j) (hin : InTable cfg r.keycode) (he : t.enabled = true) :
    Tracked t h f (buf ++ [⟨r, .key⟩]) := by
  have hmem : ∀ q ∈ buf ++ [⟨r, .key⟩], q ∈ buf ∨ q = ⟨r, .key⟩ := by simp
  have hheld : ∀ q ∈ buf ++ [⟨r, .key⟩], q.record.entry ∈ h := by
    intro q hq
    rcases hmem q hq with hq | rfl
    · exact ht.held q hq
    · exact hn.mem
  refine ⟨⟨ht.heldOk, hs, ⟨?_, ?_, ?_, ?_, ?_⟩, fun j hj => (hm j hj).1⟩, hheld,
    fun j hj => (hm j hj).2, fun hoff => ?_⟩
  · intro q hq
    rcases hmem q hq with hq | rfl
    · exact ht.buffered.coded q hq
    · exact hn.keycode_ne
  · rw [List.map_append, List.nodup_append]
    refine ⟨ht.buffered.codes, List.nodup_singleton _, ?_⟩
    rintro c hc d hd rfl
    obtain ⟨q, hq, rfl⟩ := List.mem_map.mp hc
    have hcode : q.record.keycode = r.keycode := by simpa using hd
    have hqr := ht.heldOk.codes _ hn.mem _ (ht.held q hq) hcode.symm hin
    exact hn.key_ne q hq (congrArg Prod.fst hqr).symm
  · intro q hq
    rcases hmem q hq with hq | rfl
    · exact ht.buffered.pending q hq
    · exact hfate
  · exact fun q hq p hp hpq => ht.heldOk.keys p hp _ (hheld q hq) hpq
  · intro q hq q' hq' hqq
    exact congrArg Prod.snd (ht.heldOk.keys _ (hheld q hq) _ (hheld q' hq') hqq)
  · rw [he] at hoff
    cases hoff

end Press

section Runs

variable [DecidableEq α] {s t : State cfg α} {h : Held α} {f : α → Fate}
  {buf : List (QueuedRecord α)} {r : Record α} {now : BitVec 16}

theorem Tracked.hold (ht : Tracked s h f buf) (hk : ∀ p ∈ h, p.1 ≠ r.key) (hc : r.keycode ≠ 0)
    (hcode : InTable cfg r.keycode → ∀ p ∈ h, p.2 ≠ r.keycode) (b : Bool) :
    Tracked s (h ++ [r.entry]) (Function.update f r.key ⟨false, b⟩) buf := by
  have hfate : ∀ p ∈ h, Function.update f r.key ⟨false, b⟩ p.1 = f p.1 :=
    fun p hp => Function.update_of_ne (hk p hp) _ _
  have hbuf : ∀ q ∈ buf, q.record.key ≠ r.key := fun q hq => hk _ (ht.held q hq)
  -- a consumed press is one of before
  have hold : ∀ p ∈ h ++ [r.entry],
      (Function.update f r.key ⟨false, b⟩ p.1).consumed = true → p ∈ h := by
    intro p hp hpc
    rcases List.mem_append.mp hp with hp | hp
    · exact hp
    · rw [List.mem_singleton.mp hp, Record.entry, Function.update_self] at hpc
      cases hpc
  refine ⟨⟨ht.heldOk.hold hk hc hcode, ⟨ht.sound.nodup, ht.sound.ring, ht.sound.off,
    ht.sound.active, ?_, ?_, ?_⟩, ⟨ht.buffered.coded, ht.buffered.codes, ?_, ?_, ht.buffered.same⟩,
    fun j hj => ⟨?_, ?_⟩⟩, ?_, ht.waiting, ht.empty⟩
  · intro j hj ha i hi
    obtain ⟨p, hp, hpi, hpc⟩ := ht.sound.consumed j hj ha i hi
    exact ⟨p, List.mem_append_left _ hp, hpi, by rwa [hfate p hp]⟩
  · intro p hp hpc
    have hph := hold p hp hpc
    rw [hfate p hph] at hpc
    exact ht.sound.active_of p hph hpc
  · intro k hkc
    rcases eq_or_ne k r.key with rfl | hne
    · rw [Function.update_self] at hkc
      cases hkc
    · rw [Function.update_of_ne hne] at hkc ⊢
      exact ht.sound.once k hkc
  · intro q hq
    rw [Function.update_of_ne (hbuf q hq)]
    exact ht.buffered.pending q hq
  · intro q hq p hp hpk
    rcases List.mem_append.mp hp with hp | hp
    · exact ht.buffered.matched q hq p hp hpk
    · rw [List.mem_singleton.mp hp] at hpk
      exact absurd hpk.symm (hbuf q hq)
  · intro ha i hi
    obtain ⟨q, hq, hqh, hqi⟩ := (ht.mirrors j hj).bits ha i hi
    exact ⟨q, hq, List.mem_append_left _ hqh, hqi⟩
  · exact fun hd q hq _ => (ht.mirrors j hj).covered hd q hq (ht.held q hq)
  · exact fun q hq => List.mem_append_left _ (ht.held q hq)

/-- What a call does: its effects are in order, and what is tracked stays tracked. -/
structure Steps (s t : State cfg α) (h : Held α) (f : α → Fate) : Prop where
  trace : ∃ es, t.trace = s.trace ++ es ∧ (fateRules α).Accepts f es ∧
    Tracked t h ((fateRules α).after f es) t.keyBuffer

theorem Settled.steps (hs : Settled s t h f) : Steps s t h f := by
  obtain ⟨hk, es, ht, hno, htr, -⟩ := hs
  refine ⟨es, ht, accepts_noAnswer hno f, ?_⟩
  rw [hk]
  exact htr

theorem Tracked.steps (ht : Tracked s h f s.keyBuffer) : Steps s s h f :=
  ⟨[], (List.append_nil _).symm, trivial, ht⟩

theorem Steps.passed (hs : Steps s t h f) (hp : r.pressed = true) (hk : ∀ p ∈ h, p.1 ≠ r.key)
    (hc : r.keycode ≠ 0) (hcode : InTable cfg r.keycode → ∀ p ∈ h, p.2 ≠ r.keycode) :
    Steps s (t.emit (.passed r)) (h ++ [r.entry]) f := by
  obtain ⟨es, ht, hacc, htr⟩ := hs
  refine ⟨es ++ [.passed r], ?_, ?_, ?_⟩
  · simp [State.emit, ht]
  · rw [Monitor.accepts_append]
    refine ⟨hacc, ?_, trivial⟩
    intro hr
    rw [hp] at hr
    cases hr
  · rw [Monitor.after_append, Monitor.after_cons, Monitor.after_nil]
    have hnext : (fateRules α).next ((fateRules α).after f es) (.passed r) =
        Function.update ((fateRules α).after f es) r.key ⟨false, true⟩ := if_pos hp
    rw [hnext]
    exact (htr.hold hk hc hcode true).congr rfl rfl rfl

theorem Tracked.enable (ht : Tracked s h f s.keyBuffer) : Steps s (comboEnable s) h f := by
  refine ⟨[], (List.append_nil _).symm, trivial, ?_⟩
  obtain ⟨⟨h1, ⟨h2, h3, h4, h5, h6, h7, h8⟩, h9, h10⟩, h11, h12, h13⟩ := ht
  have hon : (comboEnable s).enabled = false → False := by simp [comboEnable]
  exact ⟨⟨h1, ⟨h2, h3, fun hoff => (hon hoff).elim, h5, h6, h7, h8⟩, h9,
    fun j hj => ⟨(h10 j hj).bits, (h10 j hj).covered⟩⟩, h11, h12, fun hoff => (hon hoff).elim⟩

theorem Tracked.disable (ht : Tracked s h f s.keyBuffer) : Steps s (comboDisable s) h f := by
  have hr : Ready { s with timer := 0, enabled := false, comboBuffer := [] } h f s.keyBuffer := by
    obtain ⟨⟨h1, ⟨h2, h3, h4, h5, h6, h7, h8⟩, h9, h10⟩, h11, h12, h13⟩ := ht
    exact ⟨h1, ⟨List.nodup_nil, by simp, fun _ => rfl, h5, h6, h7, h8⟩, h9,
      fun j hj => ⟨(h10 j hj).bits, (h10 j hj).covered⟩⟩
  have hs : Settled { s with timer := 0, enabled := false, comboBuffer := [] }
      (comboDisable s) h f := hr.settle (Ready.applied_nil rfl) rfl rfl rfl rfl rfl
  exact ⟨hs.steps.trace⟩

theorem Tracked.toggle (ht : Tracked s h f s.keyBuffer) : Steps s (comboToggle s) h f := by
  rw [comboToggle]
  split_ifs
  · exact ht.disable
  · exact ht.enable

theorem Tracked.task (ht : Tracked s h f s.keyBuffer) (now : BitVec 16) :
    Steps s (comboTask now s) h f := by
  have hr : Ready s h f s.keyBuffer := ht.toReady
  rw [comboTask]
  split_ifs with htime hb
  · exact Settled.steps (hr.settle hr.applied rfl rfl rfl rfl rfl)
  · exact Settled.steps (hr.settle (Ready.applied_nil (not_not.mp hb)) rfl rfl rfl rfl rfl)
  · exact ht.steps

theorem Tracked.processKey_press (ht : Tracked s h f s.keyBuffer) (hp : r.pressed = true)
    (hk : ∀ p ∈ h, p.1 ≠ r.key) (hc : r.keycode ≠ 0)
    (hcode : InTable cfg r.keycode → ∀ p ∈ h, p.2 ≠ r.keycode)
    (hroom : InTable cfg r.keycode → s.keyBuffer.length < cfg.keyBufferLength)
    (hloop : (roomGuard cfg r now).Accepts s (List.range cfg.table.length)) :
    Steps s (processKey r now s) (h ++ [r.entry]) f := by
  have hheld := ht.hold hk hc hcode false
  have hn : NewPress cfg (h ++ [r.entry]) (Function.update f r.key ⟨false, false⟩) s.keyBuffer r :=
    { heldOk := hheld.heldOk
      mem := List.mem_append_right _ (List.mem_singleton_self _)
      coded := ht.buffered.coded
      held := hheld.held
      key_ne := fun q hq => hk _ (ht.held q hq)
      fate := by rw [Function.update_self] }
  have hbit : ∀ j ∈ List.range cfg.table.length, ∀ i,
      findKeyIndex (cfg.combo j).keys r.keycode = some i → ¬ Bit s j i := by
    intro j hj i hi
    have hj := List.mem_range.mp hj
    exact hn.not_bit hheld.sound (hheld.mirrors j hj) hj hi
  simp only [processKey]
  rcases htaken : (processCombos r now (List.range cfg.table.length) (false, s)).1 with _ | _
  · -- no combo takes the key: what is held is flushed before the key is passed
    obtain ⟨-, hsame⟩ := processCombos_untaken hc now hbit htaken
    simp only [hp, Bool.false_eq_true, and_false, if_false, hsame]
    exact ht.toReady.flush.steps.passed hp hk hc hcode
  · have hquiet := quiet_processCombos r now (List.range cfg.table.length) (false, s)
    obtain ⟨j, hj, i, hi⟩ :=
      (processCombos_taken htaken).resolve_left (by simp)
    have hin := inTable_of_findKeyIndex (List.mem_range.mp hj) hc hi
    -- a combo takes presses only while the combos are switched on
    have he : s.enabled = true := by
      by_contra hoff
      rw [processCombos_off hc now hbit (Bool.eq_false_iff.mpr hoff)] at htaken
      cases htaken
    obtain ⟨hs, hm⟩ := hn.loop hp List.nodup_range (fun j hj => List.mem_range.mp hj) he
      hheld.sound (fun j hj => ⟨hheld.mirrors j (List.mem_range.mp hj),
        hheld.waiting j (List.mem_range.mp hj)⟩)
      (fun j hj hnot => absurd (List.mem_range.mpr hj) hnot) hloop false
    obtain ⟨es, hes, hquietes⟩ := hquiet.trace
    simp only [hp, and_self, if_true, queuePress, hquiet.keyBuffer, if_pos (hroom hin)]
    refine ⟨es ++ [.swallowed r], ?_, ?_, ?_⟩
    · simp [State.emit, hes]
    · rw [Monitor.accepts_append]
      refine ⟨accepts_noAnswer (fun e he => ?_) f, ?_, trivial⟩
      · exact (hquietes e he).noAnswer
      · intro hr
        rw [hp] at hr
        cases hr
    · have hnext : (fateRules α).after f (es ++ [.swallowed r]) =
          Function.update f r.key ⟨false, false⟩ := by
        rw [Monitor.after_append, after_comboEvents hquietes]
        exact if_pos hp
      rw [hnext]
      refine (hheld.queue hn ?_ hs hm hin (hquiet.enabled.trans he)).congr rfl rfl rfl
      rw [Function.update_self]

theorem Tracked.processKey_release (ht : Tracked s h f s.keyBuffer) (now : BitVec 16)
    (hp : r.pressed = false) (hr : r.entry ∈ h) :
    Steps s (processKey r now s) (h.filter (·.1 ≠ r.key)) f := by
  have hquiet := quiet_processCombos r now (List.range cfg.table.length) (false, s)
  obtain ⟨hg, hans⟩ := letGo_loop hp now List.nodup_range s false
  have hready := ht.letGo hr hg hquiet.enabled
  have hsw := ht.swallows_iff hr hg hquiet.keyBuffer
  simp only [processKey, hp, Bool.false_eq_true, false_and, if_false]
  set t := (processCombos r now (List.range cfg.table.length) (false, s)).2
  obtain ⟨es, hes, hces⟩ := hquiet.trace
  rw [← hquiet.keyBuffer] at hready
  obtain ⟨hk, es', hes', hno, htr, hcons⟩ := hready.flush
  -- the answer agrees with the fate of the press
  have hfate : (processCombos r now (List.range cfg.table.length) (false, s)).1 = true ↔
      ((fateRules α).after f es' r.key).consumed = true := by
    rw [hans, hcons, ← hsw]
    simp
  set e : Effect α :=
    if (processCombos r now (List.range cfg.table.length) (false, s)).1 then .swallowed r
    else .passed r with he
  have hnext : (fateRules α).next ((fateRules α).after f es') e = (fateRules α).after f es' := by
    rw [he]
    split_ifs <;> exact if_neg (by simp [hp])
  have hok : (fateRules α).ok ((fateRules α).after f es') e := by
    rw [he]
    split_ifs with hb
    · intro _
      have hc := hfate.mp hb
      have hth := htr.sound.once r.key hc
      rcases hv : (fateRules α).after f es' r.key with ⟨c, d⟩
      rw [hv] at hc hth
      obtain rfl : c = true := hc
      obtain rfl : d = false := hth
      rfl
    · exact fun _ => Bool.eq_false_iff.mpr (mt hfate.mpr hb)
  refine ⟨es ++ es' ++ [e], ?_, ?_, ?_⟩
  · simp [State.emit, hes', hes]
  · rw [Monitor.accepts_append, Monitor.accepts_append, Monitor.after_append,
      after_comboEvents hces]
    refine ⟨⟨accepts_noAnswer (fun d hd => ?_) f, accepts_noAnswer hno f⟩, hok, trivial⟩
    exact (hces d hd).noAnswer
  · rw [Monitor.after_append, Monitor.after_append, after_comboEvents hces, Monitor.after_cons,
      Monitor.after_nil, hnext]
    have hb : ((flush t).emit e).keyBuffer = [] := hk
    rw [hb]
    exact htr.congr rfl rfl rfl

theorem Tracked.step (ht : Tracked s h f s.keyBuffer) {c : Call α} (ha : (alternation α).ok h c)
    (hc : (releaseGuard cfg α).ok (s, h) c) : Steps s (step s c) (c.holds h) f := by
  cases c with
  | event r now =>
    change if r.pressed then ∀ p ∈ h, p.1 ≠ r.key else r.entry ∈ h at ha
    change r.pressed = true → ClearPress r now s h at hc
    change Steps s (processCombo r now s)
      (if r.pressed then h ++ [r.entry] else h.filter (·.1 ≠ r.key)) f
    cases hp : r.pressed with
    | true =>
      rw [hp, if_pos rfl] at ha
      obtain ⟨hne, hcode, hroom⟩ := hc hp
      rw [if_pos rfl, processCombo]
      simp only [hp, and_true]
      split_ifs with hon hoff htog
      · exact ht.enable.passed hp ha hne hcode
      · exact ht.disable.passed hp ha hne hcode
      · exact ht.toggle.passed hp ha hne hcode
      · obtain ⟨hbuf, hloop⟩ := hroom (by rintro (hk | hk | hk) <;> contradiction)
        exact ht.processKey_press hp ha hne hcode hbuf hloop
    | false =>
      rw [hp, if_neg Bool.false_ne_true] at ha
      rw [if_neg Bool.false_ne_true, processCombo]
      simp only [hp, Bool.false_eq_true, and_false, if_false]
      exact ht.processKey_release now hp ha
  | task now => exact ht.task now
  | enable => exact ht.enable
  | disable => exact ht.disable
  | toggle => exact ht.toggle

theorem Tracked.run (ht : Tracked s h f s.keyBuffer) {calls : List (Call α)}
    (ha : (alternation α).Accepts h calls) (hc : (releaseGuard cfg α).Accepts (s, h) calls) :
    ∃ es, (run s calls).trace = s.trace ++ es ∧ (fateRules α).Accepts f es := by
  induction calls generalizing s h f with
  | nil => exact ⟨[], (List.append_nil _).symm, trivial⟩
  | cons c calls ih =>
    obtain ⟨es, hes, hacc, ht'⟩ := (ht.step ha.1 hc.1).trace
    obtain ⟨es', hes', hacc'⟩ := ih ht' ha.2 hc.2
    refine ⟨es ++ es', ?_, ?_⟩
    · change (Combos.run (Combos.step s c) calls).trace = _
      rw [hes', hes, List.append_assoc]
    · rw [Monitor.accepts_append]
      exact ⟨hacc, hacc'⟩

omit [DecidableEq α] in
theorem tracked_start : Tracked (State.start cfg α) [] (fun _ => ⟨false, false⟩) [] := by
  refine ⟨⟨⟨?_, ?_, ?_⟩, ⟨?_, ?_, ?_, ?_, ?_, ?_, ?_⟩, ⟨?_, ?_, ?_, ?_, ?_⟩, fun j hj => ⟨?_, ?_⟩⟩,
    ?_, fun j hj hd hk hcov => ?_, fun _ => rfl⟩
  all_goals try simp [State.start, Coded, Bit]
  obtain ⟨q, hq, -⟩ := hcov.2 0 (List.length_pos_iff.mpr hk)
  cases hq

/-- In every run in which each key alternates press and release and each press is clear, a release
is swallowed exactly when the press was consumed by a combo that was activated, and passed when
the press went through. -/
theorem releases_follow_presses {calls : List (Call α)} (ha : (alternation α).Accepts [] calls)
    (hc : (releaseGuard cfg α).Accepts (State.start cfg α, []) calls) :
    (fateRules α).Accepts (fun _ => ⟨false, false⟩) (run (State.start cfg α) calls).trace := by
  obtain ⟨es, hes, hacc⟩ := Tracked.run (s := State.start cfg α) tracked_start ha hc
  rw [hes]
  exact hacc

end Runs

section Examples

/-- Four combos of two, as many as there are places for waiting ones. -/
def pairs : Config where
  table := [⟨[1, 2], 20, by decide⟩, ⟨[3, 4], 21, by decide⟩, ⟨[5, 6], 22, by decide⟩,
    ⟨[7, 8], 23, by decide⟩]
  comboTerm := 50
  keyBufferLength := 8
  comboBufferLength := 4
  stateBits := 8

/-- Two combos, of which one is activated by a release and one by the task, and a key that is no
combo's. -/
def twoPairs : List (Call ℕ) :=
  [press 1 1, press 2 2, release 1 3, press 3 4, press 4 5, .task 100, release 2 101, press 1 102,
    press 12 103, release 4 104, release 1 105, release 3 106, release 12 107]

theorem releases_follow_presses_pairs :
    (alternation ℕ).Accepts [] twoPairs ∧
    (releaseGuard pairs ℕ).Accepts (State.start pairs ℕ, []) twoPairs ∧
    (fateRules ℕ).Accepts (fun _ => ⟨false, false⟩) (run (State.start pairs ℕ) twoPairs).trace := by
  have ha : (alternation ℕ).Accepts [] twoPairs := by decide +kernel
  have hc : (releaseGuard pairs ℕ).Accepts (State.start pairs ℕ, []) twoPairs := by
    decide +kernel
  exact ⟨ha, hc, @releases_follow_presses pairs ℕ _ twoPairs ha hc⟩

/-- The fourth pair takes the last place of the combo buffer, which looks empty from then on. -/
def fullComboBuffer : List (Call ℕ) :=
  [press 1 1, press 2 2, press 3 3, press 4 4, press 5 5, press 6 6, press 7 7, press 8 8,
    release 1 9]

/-- The press of key 1 is handed on from the key buffer, and its release is swallowed. -/
theorem full_combo_buffer_swallows_release :
    (alternation ℕ).Accepts [] fullComboBuffer ∧
    Effect.dumped ⟨1, 1, true⟩ ∈ (run (State.start pairs ℕ) fullComboBuffer).trace ∧
    Effect.swallowed ⟨1, 1, false⟩ ∈ (run (State.start pairs ℕ) fullComboBuffer).trace ∧
    ¬ (fateRules ℕ).Accepts (fun _ => ⟨false, false⟩)
      (run (State.start pairs ℕ) fullComboBuffer).trace := by
  have htrace : (run (State.start pairs ℕ) fullComboBuffer).trace =
      [.swallowed ⟨1, 1, true⟩, .swallowed ⟨2, 2, true⟩, .swallowed ⟨3, 3, true⟩,
        .swallowed ⟨4, 4, true⟩, .swallowed ⟨5, 5, true⟩, .swallowed ⟨6, 6, true⟩,
        .swallowed ⟨7, 7, true⟩, .swallowed ⟨8, 8, true⟩, .dumped ⟨1, 1, true⟩,
        .dumped ⟨2, 2, true⟩, .dumped ⟨3, 3, true⟩, .dumped ⟨4, 4, true⟩, .dumped ⟨5, 5, true⟩,
        .dumped ⟨6, 6, true⟩, .dumped ⟨7, 7, true⟩, .dumped ⟨8, 8, true⟩,
        .swallowed ⟨1, 1, false⟩] := by
    decide +kernel
  refine ⟨by decide +kernel, by simp [htrace], by simp [htrace], ?_⟩
  rw [htrace]
  simp [fateRules, nextFate]

end Examples

end Qmk.Combos
