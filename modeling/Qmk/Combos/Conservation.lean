import Qmk.Combos.Steps
import Qmk.Monitor

/-! # Conservation of presses

Every press that the engine is given is passed on, handed on from the key buffer,
taken by one combo that is activated, or still in the key buffer. This holds as
long as the key buffer has room, no key is `KC_NO`, and no combo is disabled in
the combo buffer behind one that stays there: `applyCombo` does not remove a
disabled combo, and after the flush it is enabled again and still waiting.
-/

namespace Qmk.Combos

variable {cfg : Config} {α : Type*}

def Effect.presses : Effect α → List (Record α)
  | .passed r => if r.pressed then [r] else []
  | .dumped r => [r]
  | .applied _ rs => rs
  | _ => []

/-- The presses that have left the engine. -/
def State.gone (s : State cfg α) : List (Record α) := s.trace.flatMap Effect.presses

section Guard

/-- The press of `r` completes combo `idx`. -/
def completes (r : Record α) (idx : ℕ) (s : State cfg α) : Bool :=
  match findKeyIndex (cfg.combo idx).keys r.keycode with
  | none => false
  | some i => !(s.combos idx).disabled && s.enabled &&
      decide (allComboKeysAreDown (keyStateDown (s.combos idx).state i) (cfg.combo idx).keys.length)

/-- The combo term has passed since the last key. -/
def late (now : BitVec 16) (s : State cfg α) : Prop :=
  s.timer ≠ 0 ∧ cfg.comboTerm < (now - s.timer).toNat

instance (now : BitVec 16) (s : State cfg α) : Decidable (late now s) :=
  inferInstanceAs (Decidable (_ ∧ _))

/-- The waiting combos that give way to combo `idx` are the first ones; `front` says that the
list is what is left at the front. -/
def DropsFromFront (cfg : Config) (idx : ℕ) : Bool → List ℕ → Prop
  | _, [] => True
  | front, j :: rest =>
    match overlaps cfg j idx with
    | none => DropsFromFront cfg idx false rest
    | some drop => if drop = idx then True else front = true ∧ DropsFromFront cfg idx true rest

instance decidableDropsFromFront (idx : ℕ) :
    ∀ (front : Bool) (ring : List ℕ), Decidable (DropsFromFront cfg idx front ring)
  | _, [] => isTrue trivial
  | front, j :: rest =>
    have := decidableDropsFromFront idx false rest
    have := decidableDropsFromFront idx true rest
    match h : overlaps cfg j idx with
    | none => decidable_of_iff (DropsFromFront cfg idx false rest) (by simp [DropsFromFront, h])
    | some drop => decidable_of_iff
        (if drop = idx then True else front = true ∧ DropsFromFront cfg idx true rest)
        (by simp [DropsFromFront, h])

/-- When the press completes the combo, the combo is not waiting already, and it is too late, or
the waiting combos that give way are the first ones. -/
def SafeSingle (r : Record α) (now : BitVec 16) (s : State cfg α) (idx : ℕ) : Prop :=
  completes r idx s = true →
    idx ∉ s.comboBuffer ∧ (late now s ∨ DropsFromFront cfg idx true s.comboBuffer)

instance (r : Record α) (now : BitVec 16) (s : State cfg α) (idx : ℕ) :
    Decidable (SafeSingle r now s idx) :=
  inferInstanceAs (Decidable (_ → _))

/-- The loop over the table, each combo judged in the state in which it is reached. -/
def singleGuard (cfg : Config) (r : Record α) (now : BitVec 16) : Monitor ℕ (State cfg α) where
  next s idx := (processSingleCombo r now idx s).2
  ok := SafeSingle r now

instance (r : Record α) (now : BitVec 16) :
    ∀ s idx, Decidable ((singleGuard cfg r now).ok s idx) :=
  fun s idx => inferInstanceAs (Decidable (SafeSingle r now s idx))

def switchKeycode (keycode : ℕ) : Prop :=
  keycode = qkComboOn ∨ keycode = qkComboOff ∨ keycode = qkComboToggle

instance (keycode : ℕ) : Decidable (switchKeycode keycode) :=
  inferInstanceAs (Decidable (_ ∨ _))

/-- The key is not `KC_NO`, the key buffer has room for a key that some combo has, and the loop
over the table is safe. -/
structure SafePress (r : Record α) (now : BitVec 16) (s : State cfg α) : Prop where
  keycode_ne : r.keycode ≠ 0
  room : (∃ c ∈ cfg.table, r.keycode ∈ c.keys) → s.keyBuffer.length < cfg.keyBufferLength
  loop : (singleGuard cfg r now).Accepts s (List.range cfg.table.length)

instance (r : Record α) (now : BitVec 16) (s : State cfg α) : Decidable (SafePress r now s) :=
  decidable_of_iff
    (r.keycode ≠ 0 ∧
      ((∃ c ∈ cfg.table, r.keycode ∈ c.keys) → s.keyBuffer.length < cfg.keyBufferLength) ∧
      (singleGuard cfg r now).Accepts s (List.range cfg.table.length))
    ⟨fun h => ⟨h.1, h.2.1, h.2.2⟩, fun h => ⟨h.1, h.2, h.3⟩⟩

def SafeCall (s : State cfg α) : Call α → Prop
  | .event r now => r.pressed = true → ¬ switchKeycode r.keycode → SafePress r now s
  | .task _ | .enable | .disable | .toggle => True

instance (s : State cfg α) : ∀ c : Call α, Decidable (SafeCall s c)
  | .event r now =>
    inferInstanceAs (Decidable (r.pressed = true → ¬ switchKeycode r.keycode → SafePress r now s))
  | .task _ | .enable | .disable | .toggle => isTrue trivial

def callGuard (cfg : Config) (α : Type*) : Monitor (Call α) (State cfg α) where
  next := step
  ok := SafeCall

instance : ∀ (s : State cfg α) c, Decidable ((callGuard cfg α).ok s c) :=
  fun s c => inferInstanceAs (Decidable (SafeCall s c))

end Guard

/-- What holds of the engine and the presses `buf` that it holds: the waiting combos are enabled,
have no key in common and are covered by the presses, and a bit of a combo that is not active
belongs to one of the presses. -/
structure Pending (s : State cfg α) (buf : List (QueuedRecord α)) : Prop where
  coded : Coded buf
  live : ∀ q ∈ buf, q.kind = .key
  enabled : ∀ j ∈ s.comboBuffer, (s.combos j).disabled = false
  covers : ∀ j ∈ s.comboBuffer, (cfg.combo j).keys ≠ [] ∧
    Covers (cfg.combo j).keys cfg.stateBits buf
  disjoint : s.comboBuffer.Pairwise fun j l => overlaps cfg j l = none
  bits : ∀ j < cfg.table.length, (s.combos j).active = false → ∀ i,
    (s.combos j).state.getLsbD i = true →
      ∃ q ∈ buf, findKeyIndex (cfg.combo j).keys q.record.keycode = some i
  active : ∀ j, (s.combos j).active = true → (s.combos j).disabled = true
  off : s.enabled = false → s.comboBuffer = []

section Overlaps

theorem overlaps_eq_none {j l : ℕ} :
    overlaps cfg j l = none ↔ ∀ c ∈ (cfg.combo j).keys, c ∉ (cfg.combo l).keys := by
  simp only [overlaps]
  split_ifs with h hl
  · simp only [List.any_eq_true, List.contains_iff_mem, false_iff] at h ⊢
    obtain ⟨c, hc, hc'⟩ := h
    exact fun hn => hn c hc hc'
  · simp only [List.any_eq_true, List.contains_iff_mem, false_iff] at h ⊢
    obtain ⟨c, hc, hc'⟩ := h
    exact fun hn => hn c hc hc'
  · simp only [List.any_eq_true, List.contains_iff_mem, true_iff] at h ⊢
    exact fun c hc hc' => h ⟨c, hc, hc'⟩

theorem overlaps_cases {j l d : ℕ} (h : overlaps cfg j l = some d) : d = j ∨ d = l := by
  simp only [overlaps] at h
  split_ifs at h
  · exact Or.inr (Option.some.inj h).symm
  · exact Or.inl (Option.some.inj h).symm

theorem nodup_of_disjoint {ring : List ℕ}
    (h : ring.Pairwise fun j l => overlaps cfg j l = none)
    (hk : ∀ j ∈ ring, (cfg.combo j).keys ≠ []) : ring.Nodup := by
  refine h.imp_of_mem ?_
  rintro j l hj - ho rfl
  obtain ⟨c, hc⟩ := List.exists_mem_of_ne_nil _ (hk j hj)
  exact overlaps_eq_none.mp ho c hc hc

end Overlaps

theorem Covers.mono {keys : List ℕ} {w : ℕ} {buf buf' : List (QueuedRecord α)}
    (h : Covers keys w buf) (hb : ∀ q ∈ buf, q ∈ buf') : Covers keys w buf' := by
  refine ⟨h.1, fun i hi => ?_⟩
  obtain ⟨q, hq, hqi⟩ := h.2 i hi
  exact ⟨q, hb q hq, hqi⟩

namespace Pending

variable {s t : State cfg α} {buf buf' : List (QueuedRecord α)}

theorem mono (h : Pending s buf) (hb : ∀ q ∈ buf, q ∈ buf') (hc : Coded buf')
    (hl : ∀ q ∈ buf', q.kind = .key) : Pending s buf' where
  coded := hc
  live := hl
  enabled := h.enabled
  covers j hj := ⟨(h.covers j hj).1, (h.covers j hj).2.mono hb⟩
  disjoint := h.disjoint
  bits j hjl hj i hi := by
    obtain ⟨q, hq, hqi⟩ := h.bits j hjl hj i hi
    exact ⟨q, hb q hq, hqi⟩
  active := h.active
  off := h.off

theorem nodup (h : Pending s buf) : s.comboBuffer.Nodup :=
  nodup_of_disjoint h.disjoint fun j hj => (h.covers j hj).1

theorem congr (h : Pending s buf) (hc : t.combos = s.combos) (hb : t.comboBuffer = s.comboBuffer)
    (he : t.enabled = s.enabled) : Pending t buf := by
  obtain ⟨h1, h2, h3, h4, h5, h6, h7, h8⟩ := h
  constructor
  · exact h1
  · exact h2
  · rw [hc, hb]
    exact h3
  · rw [hb]
    exact h4
  · rw [hb]
    exact h5
  · rw [hc]
    exact h6
  · rw [hc]
    exact h7
  · rw [he, hb]
    exact h8

theorem modify (h : Pending s buf) (idx : ℕ)
    (f : ComboState cfg.stateBits → ComboState cfg.stateBits)
    (hd : idx ∈ s.comboBuffer → (f (s.combos idx)).disabled = false)
    (hb : idx < cfg.table.length → (f (s.combos idx)).active = false → ∀ i,
      (f (s.combos idx)).state.getLsbD i = true →
        ∃ q ∈ buf, findKeyIndex (cfg.combo idx).keys q.record.keycode = some i)
    (ha : (f (s.combos idx)).active = true → (f (s.combos idx)).disabled = true) :
    Pending (s.modify idx f) buf where
  coded := h.coded
  live := h.live
  enabled := by
    intro j hj
    rcases eq_or_ne j idx with rfl | hne
    · rw [modify_self]
      exact hd hj
    · rw [modify_of_ne f hne]
      exact h.enabled j hj
  covers := h.covers
  disjoint := h.disjoint
  bits := by
    intro j hjl hj i hi
    rcases eq_or_ne j idx with rfl | hne
    · rw [modify_self] at hj hi
      exact hb hjl hj i hi
    · rw [modify_of_ne f hne] at hj hi
      exact h.bits j hjl hj i hi
  active := by
    intro j hj
    rcases eq_or_ne j idx with rfl | hne
    · rw [modify_self] at hj ⊢
      exact ha hj
    · rw [modify_of_ne f hne] at hj ⊢
      exact h.active j hj
  off := h.off

theorem disableCombo (h : Pending s buf) {idx : ℕ} (hr : idx ∉ s.comboBuffer) :
    Pending (disableCombo idx s) buf :=
  h.modify idx _ (fun hm => absurd hm hr) (fun hl ha => h.bits idx hl ha) fun _ => rfl

end Pending

section Buffering

variable {s : State cfg α} {idx : ℕ}

theorem disableCombo_of_ne (s : State cfg α) {j : ℕ} (h : j ≠ idx) :
    (disableCombo idx s).combos j = s.combos j :=
  modify_of_ne _ h

theorem dropOverlaps_combos (idx : ℕ) (ring kept : List ℕ) (s : State cfg α) (j : ℕ) :
    (dropOverlaps idx ring kept s).2.combos j = s.combos j ∨
    (dropOverlaps idx ring kept s).2.combos j = { s.combos j with disabled := true } := by
  have hdis : ∀ (d : ℕ) (s : State cfg α), (disableCombo d s).combos j = s.combos j ∨
      (disableCombo d s).combos j = { s.combos j with disabled := true } := by
    intro d s
    rcases eq_or_ne j d with rfl | hne
    · exact Or.inr (modify_self _)
    · exact Or.inl (disableCombo_of_ne s hne)
  have hstep : ∀ (d : ℕ) (s t : State cfg α), t.combos j = (disableCombo d s).combos j ∨
      t.combos j = { (disableCombo d s).combos j with disabled := true } →
      t.combos j = s.combos j ∨ t.combos j = { s.combos j with disabled := true } := by
    intro d s t ht
    rcases hdis d s with h | h
    · rwa [h] at ht
    · rw [h] at ht
      exact Or.inr (ht.elim id id)
  fun_induction dropOverlaps idx ring kept s with
  | case1 => exact Or.inl rfl
  | case2 _ _ _ _ _ ih => exact ih
  | case3 => exact hdis _ _
  | case4 _ _ _ _ _ _ _ ih => exact hstep _ _ _ ih
  | case5 _ _ _ _ _ _ _ _ _ ih => exact hstep _ _ _ ih

/-- When the combos that give way are the first ones, those that stay are not touched. -/
theorem dropOverlaps_front {ring kept : List ℕ} (s : State cfg α) (hn : ring.Nodup)
    (hi : idx ∉ ring) (hk : idx ∉ kept) (hd : ∀ j ∈ kept, j ∉ ring)
    (hf : DropsFromFront cfg idx (decide (kept = [])) ring) :
    ∃ rest, rest <:+ ring ∧ (kept ≠ [] → rest = ring) ∧
      (dropOverlaps idx ring kept s).2.comboBuffer = kept ++ rest ∧
      (∀ j ∈ kept ++ rest, (dropOverlaps idx ring kept s).2.combos j = s.combos j) ∧
      ((dropOverlaps idx ring kept s).1 = false →
        (∀ j ∈ rest, overlaps cfg j idx = none) ∧
        (dropOverlaps idx ring kept s).2.combos idx = s.combos idx) := by
  induction ring generalizing kept s with
  | nil =>
    refine ⟨[], List.suffix_rfl, fun _ => rfl, ?_, fun _ _ => rfl, fun _ => ⟨by simp, rfl⟩⟩
    simp [dropOverlaps]
  | cons j ring ih =>
    obtain ⟨hj, hn⟩ := List.nodup_cons.mp hn
    obtain ⟨hij, hi⟩ := not_or.mp (mt List.mem_cons.mpr hi)
    rcases ho : overlaps cfg j idx with _ | d
    · -- no common key: the entry stays, and from here on nothing may give way
      have hk' : idx ∉ kept ++ [j] := by
        simp [hk, hij]
      have hd' : ∀ l ∈ kept ++ [j], l ∉ ring := by
        intro l hl hm
        rcases List.mem_append.mp hl with hl | hl
        · exact hd l hl (List.mem_cons_of_mem _ hm)
        · rw [List.mem_singleton.mp hl] at hm
          exact hj hm
      have hf' : DropsFromFront cfg idx (decide (kept ++ [j] = [])) ring := by
        simpa [DropsFromFront, ho] using hf
      obtain ⟨rest, -, hr, hb, hc, hfalse⟩ := ih s hn hi hk' hd' hf'
      obtain rfl := hr (by simp)
      simp only [dropOverlaps, ho]
      rw [List.append_assoc] at hb hc
      refine ⟨j :: rest, List.suffix_rfl, fun _ => rfl, hb, hc, fun h => ?_⟩
      obtain ⟨hall, hidx⟩ := hfalse h
      refine ⟨?_, hidx⟩
      rintro l (_ | ⟨_, hl⟩)
      · exact ho
      · exact hall l hl
    · rcases eq_or_ne d idx with rfl | hne
      · simp only [dropOverlaps, ho, if_pos]
        refine ⟨j :: ring, List.suffix_rfl, fun _ => rfl, rfl, ?_, by simp⟩
        intro l hl
        apply disableCombo_of_ne
        rintro rfl
        simp [hk, hij, hi] at hl
      · simp only [DropsFromFront, ho, if_neg hne, decide_eq_true_eq] at hf
        obtain ⟨rfl, hf⟩ := hf
        obtain ⟨rest, hs, -, hb, hc, hfalse⟩ :=
          ih (disableCombo d s) hn hi List.not_mem_nil (by simp) hf
        simp only [dropOverlaps, ho, if_neg hne, if_pos]
        refine ⟨rest, hs.trans (List.suffix_cons _ _), fun h => absurd rfl h, hb, ?_, ?_⟩
        · intro l hl
          rw [hc l hl]
          apply disableCombo_of_ne
          rintro rfl
          rcases overlaps_cases ho with rfl | rfl
          · exact hj (hs.subset (by simpa using hl))
          · exact hne rfl
        · intro h
          obtain ⟨hall, hidx⟩ := hfalse h
          exact ⟨hall, hidx.trans (disableCombo_of_ne s hne.symm)⟩

end Buffering

section Single

variable {s : State cfg α} {buf : List (QueuedRecord α)} {idx i : ℕ}

theorem Pending.bufferCombo (h : Pending s buf) (now : BitVec 16)
    (hc : (cfg.combo idx).keys ≠ [] ∧ Covers (cfg.combo idx).keys cfg.stateBits buf)
    (hd : (s.combos idx).disabled = false) (he : s.enabled = true) (hr : idx ∉ s.comboBuffer)
    (hf : late now s ∨ DropsFromFront cfg idx true s.comboBuffer) :
    Pending (bufferCombo idx now s) buf := by
  simp only [Combos.bufferCombo]
  split_ifs with hl ht
  · exact h.disableCombo hr
  all_goals
    have hf := hf.resolve_left hl
    obtain ⟨rest, hs, -, hb, hsame, hfalse⟩ := dropOverlaps_front s h.nodup hr
      List.not_mem_nil (by simp) hf
    rw [List.nil_append] at hb hsame
    have hcombos := dropOverlaps_combos idx s.comboBuffer [] s
    have hen : (dropOverlaps idx s.comboBuffer [] s).2.enabled = true :=
      (quiet_dropOverlaps _ _ _ _).enabled.trans he
    have hrest : ∀ j ∈ rest, (s.combos j).disabled = false ∧ (cfg.combo j).keys ≠ [] ∧
        Covers (cfg.combo j).keys cfg.stateBits buf :=
      fun j hj => ⟨h.enabled j (hs.subset hj), h.covers j (hs.subset hj)⟩
    have hbits : ∀ j < cfg.table.length,
        ((dropOverlaps idx s.comboBuffer [] s).2.combos j).active = false → ∀ i,
        ((dropOverlaps idx s.comboBuffer [] s).2.combos j).state.getLsbD i = true →
          ∃ q ∈ buf, findKeyIndex (cfg.combo j).keys q.record.keycode = some i := by
      intro j hj ha i hi
      rcases hcombos j with he | he <;> rw [he] at ha hi <;> exact h.bits j hj ha i hi
    have hactive : ∀ j, ((dropOverlaps idx s.comboBuffer [] s).2.combos j).active = true →
        ((dropOverlaps idx s.comboBuffer [] s).2.combos j).disabled = true := by
      intro j hj
      rcases hcombos j with he | he
      · rw [he] at hj ⊢
        exact h.active j hj
      · rw [he]
  · refine ⟨h.coded, h.live, ?_, ?_, ?_, hbits, hactive, fun hoff => ?_⟩
    · rw [hb]
      intro j hj
      rw [hsame j hj]
      exact (hrest j hj).1
    · rw [hb]
      exact fun j hj => (hrest j hj).2
    · rw [hb]
      exact h.disjoint.sublist hs.sublist
    · rw [hen] at hoff
      cases hoff
  · obtain ⟨hall, hidx⟩ := hfalse (Bool.eq_false_iff.mpr ht)
    refine ⟨h.coded, h.live, ?_, ?_, ?_, hbits, hactive, fun hoff => ?_⟩
    · intro j hj
      simp only [pushCombo, hb] at hj ⊢
      split_ifs at hj with hfull
      · cases hj
      · rcases List.mem_append.mp hj with hj | hj
        · rw [hsame j hj]
          exact (hrest j hj).1
        · rw [List.mem_singleton.mp hj, hidx]
          exact hd
    · intro j hj
      simp only [pushCombo, hb] at hj
      split_ifs at hj with hfull
      · cases hj
      · rcases List.mem_append.mp hj with hj | hj
        · exact (hrest j hj).2
        · rw [List.mem_singleton.mp hj]
          exact hc
    · simp only [pushCombo, hb]
      split_ifs with hfull
      · exact .nil
      · refine List.pairwise_append.mpr
          ⟨h.disjoint.sublist hs.sublist, List.pairwise_singleton _ _, ?_⟩
        intro j hj l hl
        rw [List.mem_singleton.mp hl]
        exact hall j hj
    · change (dropOverlaps idx s.comboBuffer [] s).2.enabled = false at hoff
      rw [hen] at hoff
      cases hoff

theorem Pending.chordPress (h : Pending s buf) (now : BitVec 16) {q : QueuedRecord α} (hq : q ∈ buf)
    (hi : findKeyIndex (cfg.combo idx).keys q.record.keycode = some i)
    (hd : (s.combos idx).disabled = false) (he : s.enabled = true)
    (hlt : idx < cfg.table.length)
    (hsafe : allComboKeysAreDown (keyStateDown (s.combos idx).state i)
        (cfg.combo idx).keys.length →
      idx ∉ s.comboBuffer ∧ (late now s ∨ DropsFromFront cfg idx true s.comboBuffer)) :
    Pending (chordPress idx i now s) buf := by
  have ha : (s.combos idx).active = false := by
    rw [Bool.eq_false_iff]
    intro ha
    rw [h.active idx ha] at hd
    cases hd
  have hbits : ∀ j, (keyStateDown (s.combos idx).state i).getLsbD j = true →
      ∃ q ∈ buf, findKeyIndex (cfg.combo idx).keys q.record.keycode = some j := by
    intro j hj
    rcases (keyStateDown_bit _ i j).mp hj with hj | ⟨rfl, -⟩
    · exact h.bits idx hlt ha j hj
    · exact ⟨q, hq, hi⟩
  set t : State cfg α := { s.modify idx (fun c => { c with state := keyStateDown c.state i }) with
    longestTerm := max s.longestTerm cfg.comboTerm } with ht
  have hidx : t.combos idx =
      { s.combos idx with state := keyStateDown (s.combos idx).state i } := by
    simp [ht, State.modify]
  have hp : Pending t buf :=
    (h.modify idx (fun c => { c with state := keyStateDown c.state i }) (fun _ => hd)
      (fun _ _ => hbits) fun hact => h.active idx hact).congr rfl rfl rfl
  simp only [Combos.chordPress, ha, Bool.false_eq_true, if_false, ← ht, hidx]
  split_ifs with hfull
  · obtain ⟨hr, hf⟩ := hsafe hfull
    obtain ⟨hw, hall⟩ := allComboKeysAreDown_iff.mp hfull
    have hkeys : (cfg.combo idx).keys ≠ [] :=
      List.ne_nil_of_mem (mem_of_findKeyIndex (h.coded q hq) hi)
    refine hp.bufferCombo now ⟨hkeys, hw, fun j hj => hbits j ((hall j).mpr hj)⟩ ?_ he hr hf
    rw [hidx]
    exact hd
  · exact hp

theorem Pending.dropComboFromBuffer (h : Pending s buf) (hd : (s.combos idx).disabled = true) :
    dropComboFromBuffer idx s = s := by
  rw [Combos.dropComboFromBuffer, if_neg]
  intro hm
  rw [h.enabled idx hm] at hd
  cases hd

theorem Pending.chordRelease (h : Pending s buf) (idx i : ℕ) :
    Pending (chordRelease idx i s).2 buf := by
  have hup : ∀ t : State cfg α, Pending t buf →
      Pending (t.modify idx fun c => { c with state := keyStateUp c.state i }) buf := by
    intro t ht
    refine ht.modify idx _ (fun hm => ht.enabled idx hm) ?_ fun ha => ht.active idx ha
    intro hl ha j hj
    exact ht.bits idx hl ha j ((keyStateUp_bit _ i j).mp hj).1
  simp only [Combos.chordRelease]
  split_ifs with hfull hd hone hbit
  · rw [h.dropComboFromBuffer hd]
    exact hup s h
  · exact hup s h
  · -- the last key of an active combo: no bit is left when the combo is released
    obtain ⟨ha, hone, hi⟩ := hone
    have hd := h.active idx ha
    have hm : idx ∉ s.comboBuffer := by
      intro hm
      rw [h.enabled idx hm] at hd
      cases hd
    have hp := h.modify idx (fun c => { c with active := false, state := keyStateUp c.state i })
      (fun hm' => absurd hm' hm) (fun _ _ j hj => ?_) (fun ha => by cases ha)
    · refine hp.congr ?_ rfl rfl
      funext j
      rcases eq_or_ne j idx with rfl | hne
      · simp [releaseCombo, State.modify, State.emit]
      · simp [releaseCombo, State.modify, State.emit, hne]
    · obtain ⟨hj, hne⟩ := (keyStateUp_bit _ i j).mp hj
      exact absurd (onlyOne_bit hone hi hj).symm hne
  · exact hup s h
  · exact hup s h

end Single

section Loop

variable {s : State cfg α} {buf : List (QueuedRecord α)} {r : Record α} {now : BitVec 16}

/-- The presses that count once some combo has taken the press `r`. -/
def withPress (buf : List (QueuedRecord α)) (r : Record α) (taken : Bool) :
    List (QueuedRecord α) :=
  if taken then buf ++ [⟨r, .key⟩] else buf

theorem Pending.take (h : Pending s buf) (hr : r.keycode ≠ 0) (taken : Bool) :
    Pending s (withPress buf r taken) := by
  cases taken with
  | false => exact h
  | true =>
    refine h.mono (fun q hq => List.mem_append_left _ hq) ?_ ?_
    · intro q hq
      rcases List.mem_append.mp hq with hq | hq
      · exact h.coded q hq
      · rw [List.mem_singleton.mp hq]
        exact hr
    · intro q hq
      rcases List.mem_append.mp hq with hq | hq
      · exact h.live q hq
      · rw [List.mem_singleton.mp hq]

theorem withPress_or (buf : List (QueuedRecord α)) (r : Record α) (t t' : Bool)
    (h : Pending s (withPress buf r t)) (hr : r.keycode ≠ 0) :
    Pending s (withPress buf r (t || t')) := by
  cases t with
  | false => exact Pending.take h hr t'
  | true => exact h

theorem Pending.single_press {t : Bool} (h : Pending s (withPress buf r t))
    (hr : r.keycode ≠ 0) {idx : ℕ} (hlt : idx < cfg.table.length) (hs : SafeSingle r now s idx) :
    Pending (processSingleCombo r now idx s).2
      (withPress buf r (t || (processSingleCombo r now idx s).1)) := by
  rcases hi : findKeyIndex (cfg.combo idx).keys r.keycode with _ | i
  · rw [processSingleCombo_none now hi, Bool.or_false]
    exact h
  · by_cases hc : r.pressed ∧ (s.combos idx).disabled = false ∧ s.enabled
    · rw [processSingleCombo_press now hi hc, Bool.or_true]
      obtain ⟨-, hd, he⟩ := hc
      have ht := withPress_or buf r t true h hr
      rw [Bool.or_true] at ht
      refine ht.chordPress now (q := ⟨r, .key⟩) (List.mem_append_right _ List.mem_cons_self) hi hd
        he hlt fun hfull => hs ?_
      simp [completes, hi, hd, he, hfull]
    · rw [processSingleCombo_release now hi hc]
      exact withPress_or buf r t _ (h.chordRelease idx i) hr

theorem Pending.loop_press {t : Bool} (h : Pending s (withPress buf r t))
    (hr : r.keycode ≠ 0) {idxs : List ℕ} (hlt : ∀ idx ∈ idxs, idx < cfg.table.length)
    (hs : (singleGuard cfg r now).Accepts s idxs) :
    Pending (processCombos r now idxs (t, s)).2
      (withPress buf r (processCombos r now idxs (t, s)).1) := by
  induction idxs generalizing s t with
  | nil => exact h
  | cons idx idxs ih =>
    exact ih (h.single_press hr (hlt idx List.mem_cons_self) hs.1)
      (fun j hj => hlt j (List.mem_cons_of_mem _ hj)) hs.2

theorem Pending.loop_release (h : Pending s buf) (hp : r.pressed = false) (idxs : List ℕ)
    (t : Bool) : Pending (processCombos r now idxs (t, s)).2 buf := by
  induction idxs generalizing s t with
  | nil => exact h
  | cons idx idxs ih =>
    refine ih ?_ _
    rcases hi : findKeyIndex (cfg.combo idx).keys r.keycode with _ | i
    · rw [processSingleCombo_none now hi]
      exact h
    · rw [processSingleCombo_release now hi (by simp [hp])]
      exact h.chordRelease idx i

theorem processCombos_taken {idxs : List ℕ} {t : Bool}
    (h : (processCombos r now idxs (t, s)).1 = true) :
    t = true ∨ ∃ idx ∈ idxs, ∃ i, findKeyIndex (cfg.combo idx).keys r.keycode = some i := by
  induction idxs generalizing s t with
  | nil => exact Or.inl h
  | cons idx idxs ih =>
    rcases ih h with ht | ⟨j, hj, hi⟩
    · rcases hi : findKeyIndex (cfg.combo idx).keys r.keycode with _ | i
      · rw [processSingleCombo_none now hi, Bool.or_false] at ht
        exact Or.inl ht
      · exact Or.inr ⟨idx, List.mem_cons_self, i, hi⟩
    · exact Or.inr ⟨j, List.mem_cons_of_mem _ hj, hi⟩

end Loop

section Flush

variable {s : State cfg α}

@[simp] theorem gone_emit (s : State cfg α) (e : Effect α) :
    (s.emit e).gone = s.gone ++ e.presses := by
  simp [State.gone, State.emit]

theorem Quiet.gone {t : State cfg α} (h : Quiet s t) : t.gone = s.gone := by
  obtain ⟨-, -, es, ht, hes⟩ := h
  have hnil : es.flatMap Effect.presses = [] := by
    rw [List.flatMap_eq_nil_iff]
    intro e he
    cases e <;> first | rfl | exact (hes _ he).elim
  rw [State.gone, State.gone, ht, List.flatMap_append, hnil, List.append_nil]

/-- What holds while the waiting combos `ring` are still to be applied. -/
structure Flushing (s : State cfg α) (ring : List ℕ) : Prop where
  comboBuffer : s.comboBuffer = ring
  coded : Coded s.keyBuffer
  enabled : ∀ j ∈ ring, (s.combos j).disabled = false
  covers : ∀ j ∈ ring, (cfg.combo j).keys ≠ [] ∧
    Covers (cfg.combo j).keys cfg.stateBits s.keyBuffer
  live : ∀ j ∈ ring, ∀ q ∈ s.keyBuffer, ∀ i,
    findKeyIndex (cfg.combo j).keys q.record.keycode = some i → q.kind = .key
  disjoint : ring.Pairwise fun j l => overlaps cfg j l = none
  active : ∀ j, (s.combos j).active = true → (s.combos j).disabled = true

theorem Pending.flushing (h : Pending s s.keyBuffer) : Flushing s s.comboBuffer where
  comboBuffer := rfl
  coded := h.coded
  enabled := h.enabled
  covers := h.covers
  live _ _ q hq _ _ := h.live q hq
  disjoint := h.disjoint
  active := h.active

theorem coded_of_records {buf buf' : List (QueuedRecord α)} (h : Coded buf)
    (hr : buf'.map QueuedRecord.record = buf.map QueuedRecord.record) : Coded buf' := by
  intro q hq
  have hm : q.record ∈ buf.map QueuedRecord.record := hr ▸ List.mem_map_of_mem hq
  obtain ⟨p, hp, hpq⟩ := List.mem_map.mp hm
  rw [← hpq]
  exact h p hp

theorem covers_of_records {keys : List ℕ} {w : ℕ} {buf buf' : List (QueuedRecord α)}
    (h : Covers keys w buf)
    (hr : buf'.map QueuedRecord.record = buf.map QueuedRecord.record) : Covers keys w buf' := by
  refine ⟨h.1, fun i hi => ?_⟩
  obtain ⟨q, hq, hqi⟩ := h.2 i hi
  have hm : q.record ∈ buf'.map QueuedRecord.record := hr.symm ▸ List.mem_map_of_mem hq
  obtain ⟨p, hp, hpq⟩ := List.mem_map.mp hm
  exact ⟨p, hp, by rw [hpq, hqi]⟩

theorem applyCombo_first {j : ℕ} {ring : List ℕ} (hb : s.comboBuffer = j :: ring)
    (hd : (s.combos j).disabled = false)
    (hdone : (applyLoop j (cfg.combo j).keys (0 : BitVec cfg.stateBits) s.keyBuffer).2.2 = true) :
    applyCombo j s =
      { s with
        keyBuffer :=
          (applyLoop j (cfg.combo j).keys (0 : BitVec cfg.stateBits) s.keyBuffer).1
        comboBuffer := ring
        combos := Function.update s.combos j
          { s.combos j with active := true, disabled := true }
        trace := s.trace ++ [.applied j
          (applyLoop j (cfg.combo j).keys (0 : BitVec cfg.stateBits) s.keyBuffer).2.1] } := by
  rw [applyCombo, if_neg (by simp [hd])]
  dsimp only
  rw [if_pos hdone]
  simp [dropComboFromBuffer, disableCombo, State.modify, State.emit, hb]

theorem Flushing.applyCombo {j : ℕ} {ring : List ℕ} (h : Flushing s (j :: ring)) :
    Flushing (applyCombo j s) ring ∧
    (s.gone ++ livePresses s.keyBuffer).Perm
      ((applyCombo j s).gone ++ livePresses (applyCombo j s).keyBuffer) ∧
    (applyCombo j s).enabled = s.enabled := by
  obtain ⟨hk, hcov⟩ := h.covers j List.mem_cons_self
  obtain ⟨hdj, hdr⟩ := List.pairwise_cons.mp h.disjoint
  have hdone : (applyLoop j (cfg.combo j).keys (0 : BitVec cfg.stateBits) s.keyBuffer).2.2 = true :=
    (applyLoop_zero_done hk h.coded).mpr hcov
  have hrec := applyLoop_records j (cfg.combo j).keys (0 : BitVec cfg.stateBits) s.keyBuffer
  have hmem := applyLoop_mem j (cfg.combo j).keys (0 : BitVec cfg.stateBits) s.keyBuffer
  have hperm := applyLoop_perm j (cfg.combo j).keys (0 : BitVec cfg.stateBits) s.keyBuffer
    (h.live j List.mem_cons_self)
  have hnj : ∀ l ∈ ring, l ≠ j := by
    rintro l hl rfl
    obtain ⟨c, hc⟩ := List.exists_mem_of_ne_nil _ hk
    exact overlaps_eq_none.mp (hdj l hl) c hc hc
  rw [applyCombo_first h.comboBuffer (h.enabled j List.mem_cons_self) hdone]
  set t := applyLoop j (cfg.combo j).keys (0 : BitVec cfg.stateBits) s.keyBuffer
  have hcoded : Coded t.1 := coded_of_records h.coded hrec
  refine ⟨⟨rfl, hcoded, ?_, ?_, ?_, hdr, ?_⟩, ?_, rfl⟩
  · intro l hl
    simp only [Function.update_of_ne (hnj l hl)]
    exact h.enabled l (List.mem_cons_of_mem _ hl)
  · intro l hl
    obtain ⟨hkl, hcl⟩ := h.covers l (List.mem_cons_of_mem _ hl)
    exact ⟨hkl, covers_of_records hcl hrec⟩
  · intro l hl q hq i hi
    rcases hmem q hq with hq' | ⟨i', hi'⟩
    · exact h.live l (List.mem_cons_of_mem _ hl) q hq' i hi
    · have hc := hcoded q hq
      exact absurd (mem_of_findKeyIndex hc hi)
        (overlaps_eq_none.mp (hdj l hl) _ (mem_of_findKeyIndex hc hi'))
  · intro l hl
    rcases eq_or_ne l j with rfl | hne
    · simp
    · simp only [Function.update_of_ne hne] at hl ⊢
      exact h.active l hl
  · simp only [State.gone, List.flatMap_append, List.flatMap_cons, List.flatMap_nil,
      List.append_nil, List.append_assoc, Effect.presses]
    exact hperm.append_left _

theorem Flushing.foldl {ring : List ℕ} (h : Flushing s ring) :
    Flushing (ring.foldl (fun s idx => Combos.applyCombo idx s) s) [] ∧
    (s.gone ++ livePresses s.keyBuffer).Perm
      ((ring.foldl (fun s idx => Combos.applyCombo idx s) s).gone ++
        livePresses (ring.foldl (fun s idx => Combos.applyCombo idx s) s).keyBuffer) ∧
    (ring.foldl (fun s idx => Combos.applyCombo idx s) s).enabled = s.enabled := by
  induction ring generalizing s with
  | nil => exact ⟨h, .refl _, rfl⟩
  | cons j ring ih =>
    obtain ⟨hf, hp, he⟩ := h.applyCombo
    obtain ⟨hf', hp', he'⟩ := ih hf
    exact ⟨hf', hp.trans hp', he'.trans he⟩

theorem dumpRecord_presses (cfg : Config) (buf : List (QueuedRecord α)) :
    (buf.flatMap (dumpRecord cfg)).flatMap Effect.presses = livePresses buf := by
  induction buf with
  | nil => rfl
  | cons q buf ih =>
    rw [List.flatMap_cons, List.flatMap_append, ih, livePresses_cons]
    rcases hq : q.kind with _ | _ | idx <;> simp [dumpRecord, hq, Effect.presses]

theorem gone_dumpKeyBuffer (s : State cfg α) :
    (dumpKeyBuffer s).gone = s.gone ++ livePresses s.keyBuffer := by
  rw [State.gone, dumpKeyBuffer, List.flatMap_append, dumpRecord_presses]
  rfl

theorem pending_clearCombos {t : State cfg α} (hb : t.comboBuffer = [])
    (ha : ∀ j, (t.combos j).active = true → (t.combos j).disabled = true) :
    Pending (clearCombos t) [] where
  coded := by simp [Coded]
  live := by simp
  enabled := by simp [clearCombos, hb]
  covers := by simp [clearCombos, hb]
  disjoint := by simp [clearCombos, hb]
  bits := by
    intro j hj hact i hi
    simp only [clearCombos] at hact hi
    split_ifs at hact hi with hc
    · simp at hi
    · exact absurd ⟨hj, hact⟩ hc
  active := by
    intro j hj
    simp only [clearCombos] at hj ⊢
    split_ifs at hj ⊢ with hc
    · rw [hc.2] at hj
      cases hj
    · exact ha j hj
  off _ := hb

/-- A flush: every press that was held has left the engine. -/
structure Flushed (s t : State cfg α) : Prop where
  pending : Pending t []
  keyBuffer : t.keyBuffer = []
  gone : (s.gone ++ livePresses s.keyBuffer).Perm t.gone

theorem Pending.applyCombos (h : Pending s s.keyBuffer) : Flushed s (applyCombos s) := by
  obtain ⟨hf, hp, -⟩ := h.flushing.foldl
  refine ⟨pending_clearCombos hf.comboBuffer hf.active, rfl, ?_⟩
  change (s.gone ++ livePresses s.keyBuffer).Perm (dumpKeyBuffer _).gone
  rw [gone_dumpKeyBuffer]
  exact hp

theorem Pending.dump (h : Pending s s.keyBuffer) (hb : s.comboBuffer = []) :
    Flushed s (clearCombos { dumpKeyBuffer s with timer := 0 }) := by
  refine ⟨pending_clearCombos hb h.active, rfl, ?_⟩
  change (s.gone ++ livePresses s.keyBuffer).Perm (dumpKeyBuffer s).gone
  rw [gone_dumpKeyBuffer]

theorem Pending.flush (h : Pending s s.keyBuffer) : Flushed s (flush s) := by
  rw [Combos.flush]
  split_ifs with hb
  · exact h.applyCombos
  · exact h.dump (not_not.mp hb)

end Flush

section Runs

variable {s : State cfg α} {hs : List (Record α)}

/-- The press that a call hands to the engine. -/
def Call.presses : Call α → List (Record α)
  | .event r _ => if r.pressed then [r] else []
  | .task _ | .enable | .disable | .toggle => []

/-- The presses `hs` that have been handed to the engine have left it or are held. -/
structure Conserves (s : State cfg α) (hs : List (Record α)) : Prop where
  pending : Pending s s.keyBuffer
  presses : hs.Perm (s.gone ++ livePresses s.keyBuffer)

theorem Conserves.flushed (h : Conserves s hs) {t : State cfg α} (hf : Flushed s t) :
    Conserves t hs := by
  constructor
  · rw [hf.keyBuffer]
    exact hf.pending
  · rw [hf.keyBuffer]
    simpa [livePresses] using h.presses.trans hf.gone

theorem Conserves.emit (h : Conserves s hs) (e : Effect α) :
    Conserves (s.emit e) (hs ++ e.presses) := by
  constructor
  · exact h.pending.congr rfl rfl rfl
  · rw [gone_emit, List.append_assoc]
    refine (h.presses.append_right _).trans ?_
    rw [List.append_assoc]
    exact List.perm_append_comm.append_left _

theorem Conserves.quiet (h : Conserves s hs) {t : State cfg α} (hq : Quiet s t)
    (hp : Pending t t.keyBuffer) : Conserves t hs := by
  refine ⟨hp, ?_⟩
  rw [hq.gone, hq.keyBuffer]
  exact h.presses

theorem Conserves.enable (h : Conserves s hs) : Conserves (comboEnable s) hs := by
  obtain ⟨⟨h1, h2, h3, h4, h5, h6, h7, -⟩, hp⟩ := h
  exact ⟨⟨h1, h2, h3, h4, h5, h6, h7, fun h => by cases h⟩, hp⟩

theorem Conserves.disable (h : Conserves s hs) : Conserves (comboDisable s) hs := by
  refine h.flushed ⟨?_, rfl, ?_⟩
  · have ht := pending_clearCombos
      (t := { s with timer := 0, enabled := false, comboBuffer := [] }) rfl h.pending.active
    exact ht.congr rfl rfl rfl
  · rw [comboDisable, gone_dumpKeyBuffer]
    exact .refl _

theorem Conserves.toggle (h : Conserves s hs) : Conserves (comboToggle s) hs := by
  rw [comboToggle]
  split_ifs
  · exact h.disable
  · exact h.enable

theorem Conserves.task (h : Conserves s hs) (now : BitVec 16) : Conserves (comboTask now s) hs := by
  rw [comboTask]
  split_ifs with ht hb
  · have hf := h.pending.applyCombos
    exact h.flushed ⟨hf.pending.congr rfl rfl rfl, hf.keyBuffer, hf.gone⟩
  · exact h.flushed (h.pending.dump (not_not.mp hb))
  · exact h

theorem Conserves.processKey_press (h : Conserves s hs) {r : Record α} {now : BitVec 16}
    (hp : r.pressed = true) (hsafe : SafePress r now s) :
    Conserves (processKey r now s) (hs ++ [r]) := by
  have hloop := h.pending.take hsafe.keycode_ne false |>.loop_press hsafe.keycode_ne
    (fun idx hidx => List.mem_range.mp hidx) hsafe.loop
  have hquiet := quiet_processCombos r now (List.range cfg.table.length) (false, s)
  simp only [processKey]
  rcases ht : (processCombos r now (List.range cfg.table.length) (false, s)).1 with _ | _
  · -- no combo takes the key: what is held is flushed before the key is passed
    rw [ht] at hloop
    have hc := h.quiet hquiet (by rw [hquiet.keyBuffer]; exact hloop)
    simp only [hp, Bool.false_eq_true, and_false, if_false]
    simpa [Effect.presses, hp] using (hc.flushed hc.pending.flush).emit (.passed r)
  · rw [ht] at hloop
    have hroom : s.keyBuffer.length < cfg.keyBufferLength := by
      apply hsafe.room
      rcases processCombos_taken ht with hf | ⟨idx, hidx, i, hi⟩
      · cases hf
      · have hlt := List.mem_range.mp hidx
        have hcombo : cfg.combo idx = cfg.table[idx] := List.getD_eq_getElem _ _ hlt
        refine ⟨cfg.table[idx], List.getElem_mem hlt, ?_⟩
        rw [← hcombo]
        exact mem_of_findKeyIndex hsafe.keycode_ne hi
    simp only [hp, and_self, if_true, queuePress, hquiet.keyBuffer, if_pos hroom]
    constructor
    · exact hloop.congr rfl rfl rfl
    · rw [gone_emit]
      change (hs ++ [r]).Perm ((processCombos r now _ (false, s)).2.gone ++ [] ++
        livePresses (s.keyBuffer ++ [⟨r, .key⟩]))
      rw [hquiet.gone, List.append_nil, livePresses_append, ← List.append_assoc]
      exact h.presses.append_right _

theorem Conserves.processKey_release (h : Conserves s hs) {r : Record α} (now : BitVec 16)
    (hp : r.pressed = false) : Conserves (processKey r now s) hs := by
  have hloop : Pending (processCombos r now (List.range cfg.table.length) (false, s)).2
      s.keyBuffer := h.pending.loop_release hp (List.range cfg.table.length) false
  have hquiet := quiet_processCombos r now (List.range cfg.table.length) (false, s)
  have hc := h.quiet hquiet (by rw [hquiet.keyBuffer]; exact hloop)
  simp only [processKey, hp, Bool.false_eq_true, false_and, if_false]
  split_ifs
  · simpa [Effect.presses] using (hc.flushed hc.pending.flush).emit (.swallowed r)
  · simpa [Effect.presses, hp] using (hc.flushed hc.pending.flush).emit (.passed r)

/-- Every safe call accounts for the press that it hands to the engine. -/
theorem Conserves.step (h : Conserves s hs) {c : Call α} (hc : SafeCall s c) :
    Conserves (step s c) (hs ++ c.presses) := by
  cases c with
  | event r now =>
    change Conserves (processCombo r now s) (hs ++ if r.pressed then [r] else [])
    rw [processCombo]
    split_ifs with hon hp hoff hp' htog hp'' hp'''
    · simpa [Effect.presses, hp] using h.enable.emit (.passed r)
    · exact absurd hon.2 hp
    · simpa [Effect.presses, hp'] using h.disable.emit (.passed r)
    · exact absurd hoff.2 hp'
    · simpa [Effect.presses, hp''] using h.toggle.emit (.passed r)
    · exact absurd htog.2 hp''
    · apply h.processKey_press hp''' (hc hp''' ?_)
      rintro (hk | hk | hk)
      · exact hon ⟨hk, hp'''⟩
      · exact hoff ⟨hk, hp'''⟩
      · exact htog ⟨hk, hp'''⟩
    · rw [List.append_nil]
      exact h.processKey_release now (Bool.eq_false_iff.mpr hp''')
  | task now =>
    rw [Call.presses, List.append_nil]
    exact h.task now
  | enable =>
    rw [Call.presses, List.append_nil]
    exact h.enable
  | disable =>
    rw [Call.presses, List.append_nil]
    exact h.disable
  | toggle =>
    rw [Call.presses, List.append_nil]
    exact h.toggle

theorem Conserves.run (h : Conserves s hs) {calls : List (Call α)}
    (hc : (callGuard cfg α).Accepts s calls) :
    Conserves (run s calls) (hs ++ calls.flatMap Call.presses) := by
  induction calls generalizing s hs with
  | nil =>
    rw [List.flatMap_nil, List.append_nil]
    exact h
  | cons c calls ih =>
    rw [List.flatMap_cons, ← List.append_assoc]
    exact ih (h.step hc.1) hc.2

theorem conserves_start : Conserves (State.start cfg α) [] := by
  refine ⟨⟨?_, ?_, ?_, ?_, ?_, ?_, ?_, ?_⟩, .refl _⟩ <;> simp [State.start, Coded]

/-- In every run of safe calls the presses handed to the engine are, up to their order, those that
were passed on, handed on from the key buffer, or taken by a combo that was activated, and those
that are still in the key buffer. -/
theorem presses_conserved {calls : List (Call α)}
    (hc : (callGuard cfg α).Accepts (State.start cfg α) calls) :
    (calls.flatMap Call.presses).Perm
      ((run (State.start cfg α) calls).gone ++
        livePresses (run (State.start cfg α) calls).keyBuffer) := by
  have h := conserves_start.run hc
  rw [List.nil_append] at h
  exact h.presses

end Runs

section Examples

/-- A combo of two, one of two others, and one that has the others and a third key. -/
def overlapping : Config where
  table := [⟨[4, 5], 20, by decide⟩, ⟨[6, 7], 21, by decide⟩, ⟨[6, 7, 8], 22, by decide⟩]
  comboTerm := 50
  keyBufferLength := 8
  comboBufferLength := 4
  stateBits := 8

/-- The key at position `k` has the keycode `k`. -/
def press (k : ℕ) (now : BitVec 16) : Call ℕ := .event ⟨k, k, true⟩ now

def release (k : ℕ) (now : BitVec 16) : Call ℕ := .event ⟨k, k, false⟩ now

/-- The longer combo takes the place of the shorter one, and a key of no combo follows. -/
def longerCombo : List (Call ℕ) :=
  [press 6 1, press 7 2, press 8 3, press 4 4, press 9 5, release 6 6]

theorem presses_conserved_longer :
    (callGuard overlapping ℕ).Accepts (State.start overlapping ℕ) longerCombo ∧
    (longerCombo.flatMap Call.presses).Perm
      ((run (State.start overlapping ℕ) longerCombo).gone ++
        livePresses (run (State.start overlapping ℕ) longerCombo).keyBuffer) := by
  have hc : (callGuard overlapping ℕ).Accepts (State.start overlapping ℕ) longerCombo := by
    decide +kernel
  exact ⟨hc, presses_conserved hc⟩

/-- The longer combo disables the shorter one behind the first one, so both stay in the combo
buffer after the flush. When all keys are up the longer one is enabled again, still waits, and is
applied to the first of its keys. -/
def staleCombo : List (Call ℕ) :=
  [press 4 1, press 5 2, press 6 3, press 7 4, press 8 5, .task 100] ++
    [release 4 101, release 5 102, release 6 103, release 7 104, release 8 105] ++
    [press 6 200, press 9 201]

/-- The press of key 6 at the end is taken for a combo that is not activated. -/
theorem stale_combo_loses_press :
    let s := run (State.start overlapping ℕ) staleCombo
    s.keyBuffer = [] ∧ (staleCombo.flatMap Call.presses).count ⟨6, 6, true⟩ = 2 ∧
    s.gone.count ⟨6, 6, true⟩ = 1 ∧ Effect.spoiled 2 [⟨6, 6, true⟩] ∈ s.trace := by
  decide +kernel

end Examples

end Qmk.Combos
