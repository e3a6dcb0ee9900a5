import Qmk.Combos.Conservation

/-! # What becomes of a press

The fate of a press is read off the trace: it was consumed by a combo that was
activated, or it went through, passed on or handed on from the key buffer. A
flush consumes exactly the presses of the waiting combos that are enabled and
covered by the key buffer.
-/

namespace Qmk.Combos

variable {cfg : Config} {α : Type*}

structure Fate where
  consumed : Bool
  through : Bool
  deriving DecidableEq, Repr

section Rules

variable [DecidableEq α]

def nextFate (f : α → Fate) : Effect α → α → Fate
  | .passed r => if r.pressed then Function.update f r.key ⟨false, true⟩ else f
  | .swallowed r => if r.pressed then Function.update f r.key ⟨false, false⟩ else f
  | .dumped r => Function.update f r.key { f r.key with through := true }
  | .applied _ rs => fun k =>
    if k ∈ rs.map Record.key then { f k with consumed := true } else f k
  | .spoiled _ _ | .comboEvent _ _ _ => f

/-- A release is swallowed exactly when the press was consumed, and not when the press went
through. -/
def fateRules (α : Type*) [DecidableEq α] : Monitor (Effect α) (α → Fate) where
  next := nextFate
  ok f
    | .passed r => r.pressed = false → (f r.key).consumed = false
    | .swallowed r => r.pressed = false → f r.key = ⟨true, false⟩
    | _ => True

def Effect.NoAnswer : Effect α → Prop
  | .passed _ | .swallowed _ => False
  | .dumped _ | .applied _ _ | .spoiled _ _ | .comboEvent _ _ _ => True

omit [DecidableEq α] in
theorem Effect.IsComboEvent.noAnswer {e : Effect α} (h : e.IsComboEvent) : e.NoAnswer := by
  cases e with
  | comboEvent => trivial
  | _ => exact h.elim

theorem accepts_noAnswer {es : List (Effect α)} (h : ∀ e ∈ es, e.NoAnswer) (f : α → Fate) :
    (fateRules α).Accepts f es := by
  induction es generalizing f with
  | nil => trivial
  | cons e es ih =>
    refine ⟨?_, ih (fun d hd => h d (List.mem_cons_of_mem _ hd)) _⟩
    have he := h e List.mem_cons_self
    cases e <;> trivial

theorem after_comboEvents {es : List (Effect α)} (h : ∀ e ∈ es, e.IsComboEvent) (f : α → Fate) :
    (fateRules α).after f es = f := by
  induction es with
  | nil => rfl
  | cons e es ih =>
    have he := h e List.mem_cons_self
    rw [Monitor.after_cons]
    cases e with
    | comboEvent => exact ih fun d hd => h d (List.mem_cons_of_mem _ hd)
    | _ => exact he.elim

/-- The presses handed on from the key buffer go through; nothing else happens to the fates. -/
theorem after_dump (cfg : Config) (buf : List (QueuedRecord α)) (f : α → Fate) (k : α) :
    (((fateRules α).after f (buf.flatMap (dumpRecord cfg))) k).consumed = (f k).consumed ∧
    ((((fateRules α).after f (buf.flatMap (dumpRecord cfg))) k).through = true →
      (f k).through = true ∨ ∃ q ∈ buf, q.kind = .key ∧ q.record.key = k) := by
  induction buf generalizing f with
  | nil => exact ⟨rfl, Or.inl⟩
  | cons q buf ih =>
    rw [List.flatMap_cons, Monitor.after_append]
    obtain ⟨hc, ht⟩ := ih ((fateRules α).after f (dumpRecord cfg q))
    have hq : (((fateRules α).after f (dumpRecord cfg q)) k).consumed = (f k).consumed ∧
        ((((fateRules α).after f (dumpRecord cfg q)) k).through = true →
          (f k).through = true ∨ q.kind = .key ∧ q.record.key = k) := by
      rcases hk : q.kind with _ | _ | idx
      · simp only [dumpRecord, hk]
        change (nextFate f (.dumped q.record) k).consumed = _ ∧
          ((nextFate f (.dumped q.record) k).through = true → _)
        simp only [nextFate]
        rcases eq_or_ne k q.record.key with rfl | hne
        · simp
        · simp only [Function.update_of_ne hne]
          exact ⟨trivial, Or.inl⟩
      · simp only [dumpRecord, hk]
        exact ⟨rfl, Or.inl⟩
      · simp only [dumpRecord, hk]
        exact ⟨rfl, Or.inl⟩
    refine ⟨hc.trans hq.1, fun h => ?_⟩
    rcases ht h with h | ⟨p, hp, hpk⟩
    · rcases hq.2 h with h | hk
      · exact Or.inl h
      · exact Or.inr ⟨q, List.mem_cons_self, hk⟩
    · exact Or.inr ⟨p, List.mem_cons_of_mem _ hp, hpk⟩

end Rules

section Loop

variable {idx w : ℕ} {keys : List ℕ} {st : BitVec w} {buf : List (QueuedRecord α)}

/-- When every keycode occurs once, a combo that is activated takes every record of its keys and
leaves none of them as a key event. -/
theorem applyLoop_all (hc : Coded buf) (hn : (buf.map fun q => q.record.keycode).Nodup)
    (hdone : (applyLoop idx keys st buf).2.2 = true) :
    (∀ q ∈ buf, ∀ i, findKeyIndex keys q.record.keycode = some i → st.getLsbD i = false →
      q.record ∈ (applyLoop idx keys st buf).2.1) ∧
    ∀ q ∈ (applyLoop idx keys st buf).1, ∀ i, findKeyIndex keys q.record.keycode = some i →
      st.getLsbD i = false → q.kind ≠ .key := by
  -- the bit of a key that comes later is not set by an earlier one
  have hlater : ∀ {st : BitVec w} {q : QueuedRecord α} {buf i} (_ : Coded (q :: buf))
      (_ : ((q :: buf).map fun q => q.record.keycode).Nodup)
      (_ : findKeyIndex keys q.record.keycode = some i), ∀ c ∈ buf.map (fun q => q.record.keycode),
      ∀ j, c ≠ 0 → findKeyIndex keys c = some j → st.getLsbD j = false →
        (keyStateDown st i).getLsbD j = false := by
    intro st q buf i hc hn hq c hm j hc0 hj hst
    rw [Bool.eq_false_iff]
    intro hbit
    rcases (keyStateDown_bit st i j).mp hbit with hb | ⟨rfl, -⟩
    · rw [hst] at hb
      cases hb
    · rw [findKeyIndex_inj hc0 (hc q List.mem_cons_self) hj hq] at hm
      rw [List.map_cons, List.nodup_cons] at hn
      exact hn.1 hm
  induction st, buf using applyLoop_induction keys with
  | hnil st => simp [applyLoop] at hdone
  | hnone st q buf hq ih =>
    rw [applyLoop_cons_none hq] at hdone ⊢
    obtain ⟨ih₁, ih₂⟩ := ih hc.tail (List.nodup_cons.mp hn).2 hdone
    refine ⟨fun p hp i hi => ?_, fun p hp i hi => ?_⟩
    · rcases List.mem_cons.mp hp with rfl | hp
      · rw [hq] at hi
        cases hi
      · exact ih₁ p hp i hi
    · rcases List.mem_cons.mp hp with rfl | hp
      · rw [hq] at hi
        cases hi
      · exact ih₂ p hp i hi
  | hfull st q buf i hq hf =>
    rw [applyLoop_cons_full hq hf]
    have hbits := (allComboKeysAreDown_iff.mp hf).2
    have hrest : ∀ p ∈ buf, ∀ j, findKeyIndex keys p.record.keycode = some j →
        st.getLsbD j = false → False := by
      intro p hp j hj hst
      have hp0 := hc p (List.mem_cons_of_mem _ hp)
      have hfalse := hlater hc hn hq _ (List.mem_map_of_mem hp) j hp0 hj hst
      rw [(hbits j).mpr (findKeyIndex_lt hp0 hj)] at hfalse
      cases hfalse
    refine ⟨fun p hp j hj hst => ?_, fun p hp j hj hst => ?_⟩
    · rcases List.mem_cons.mp hp with rfl | hp
      · exact List.mem_singleton_self _
      · exact (hrest p hp j hj hst).elim
    · rcases List.mem_cons.mp hp with rfl | hp
      · simp
      · exact (hrest p hp j hj hst).elim
  | hsome st q buf i hq hf ih =>
    rw [applyLoop_cons_some hq hf] at hdone ⊢
    obtain ⟨ih₁, ih₂⟩ := ih hc.tail (List.nodup_cons.mp hn).2 hdone
    have hrecords := applyLoop_records idx keys (keyStateDown st i) buf
    refine ⟨fun p hp j hj hst => ?_, fun p hp j hj hst => ?_⟩
    · rcases List.mem_cons.mp hp with rfl | hp
      · exact List.mem_cons_self
      · refine List.mem_cons_of_mem _ (ih₁ p hp j hj ?_)
        exact hlater hc hn hq _ (List.mem_map_of_mem hp) j (hc p (List.mem_cons_of_mem _ hp)) hj hst
    · rcases List.mem_cons.mp hp with rfl | hp
      · simp
      · refine ih₂ p hp j hj ?_
        have hm : p.record ∈ buf.map QueuedRecord.record :=
          hrecords ▸ List.mem_map_of_mem hp
        obtain ⟨p', hp', hpp⟩ := List.mem_map.mp hm
        refine hlater hc hn hq _ (List.mem_map_of_mem hp') j ?_ ?_ hst
        · exact hc p' (List.mem_cons_of_mem _ hp')
        · rw [hpp]
          exact hj

theorem applyLoop_key (idx : ℕ) (keys : List ℕ) (st : BitVec w) (buf : List (QueuedRecord α)) :
    ∀ q ∈ (applyLoop idx keys st buf).1, q.kind = .key → q ∈ buf := by
  induction st, buf using applyLoop_induction keys with
  | hnil st => simp [applyLoop]
  | hnone st q buf hq ih =>
    rw [applyLoop_cons_none hq]
    intro p hp hk
    rcases List.mem_cons.mp hp with rfl | hp
    · exact List.mem_cons_self
    · exact List.mem_cons_of_mem _ (ih p hp hk)
  | hfull st q buf i hq hf =>
    rw [applyLoop_cons_full hq hf]
    intro p hp hk
    rcases List.mem_cons.mp hp with rfl | hp
    · cases hk
    · exact List.mem_cons_of_mem _ hp
  | hsome st q buf i hq hf ih =>
    rw [applyLoop_cons_some hq hf]
    intro p hp hk
    rcases List.mem_cons.mp hp with rfl | hp
    · cases hk
    · exact List.mem_cons_of_mem _ (ih p hp hk)

end Loop

section Apply

variable {s : State cfg α} {j : ℕ}

/-- The loop of `applyCombo` for combo `j`. -/
def applied (s : State cfg α) (j : ℕ) : List (QueuedRecord α) × List (Record α) × Bool :=
  applyLoop j (cfg.combo j).keys (0 : BitVec cfg.stateBits) s.keyBuffer

theorem applyCombo_eq (h : (s.combos j).disabled = false) (hm : j ∈ s.comboBuffer) :
    applyCombo j s =
      { s with
        keyBuffer := (applied s j).1
        comboBuffer := if s.comboBuffer.head? = some j then s.comboBuffer.tail else s.comboBuffer
        combos := Function.update s.combos j { s.combos j with
          active := (s.combos j).active || (applied s j).2.2, disabled := true }
        trace := s.trace ++ [if (applied s j).2.2 then .applied j (applied s j).2.1
          else .spoiled j (applied s j).2.1] } := by
  have happ : applyLoop j (cfg.combo j).keys (0 : BitVec cfg.stateBits) s.keyBuffer =
    applied s j := rfl
  rw [applyCombo, if_neg (by simp [h])]
  dsimp only
  rw [happ]
  cases (applied s j).2.2 with
  | false =>
    rw [dropComboFromBuffer, if_pos (by simpa [State.emit] using hm)]
    simp only [disableCombo, State.modify, State.emit, Bool.or_false, Bool.false_eq_true, if_false]
    split_ifs <;> rfl
  | true =>
    rw [dropComboFromBuffer, if_pos (by simpa [State.emit, State.modify] using hm)]
    simp only [disableCombo, State.modify, State.emit, Bool.or_true, if_true,
      Function.update_self, Function.update_idem]
    split_ifs <;> rfl

/-- The combo would be activated if it were applied. -/
def Fires (s : State cfg α) (j : ℕ) : Prop :=
  (s.combos j).disabled = false ∧ Covers (cfg.combo j).keys cfg.stateBits s.keyBuffer

/-- Combo `j` has the key of a press of `k` in the key buffer. -/
def HasPress (s : State cfg α) (j : ℕ) (k : α) : Prop :=
  ∃ q ∈ s.keyBuffer, q.record.key = k ∧
    ∃ i, findKeyIndex (cfg.combo j).keys q.record.keycode = some i

variable [DecidableEq α]

/-- What applying the combos of `ring` does. -/
structure Applied (s u : State cfg α) (ring : List ℕ) : Prop where
  state : ∀ l, (u.combos l).state = (s.combos l).state
  active : ∀ l, (u.combos l).active = true ↔ (s.combos l).active = true ∨ l ∈ ring ∧ Fires s l
  disabled : ∀ l, (u.combos l).disabled = true ↔ (s.combos l).disabled = true ∨ l ∈ ring
  comboBuffer : u.comboBuffer.Sublist s.comboBuffer
  records : u.keyBuffer.map QueuedRecord.record = s.keyBuffer.map QueuedRecord.record
  key : ∀ q ∈ u.keyBuffer, q.kind = .key → q ∈ s.keyBuffer ∧
    ∀ l ∈ ring, Fires s l → findKeyIndex (cfg.combo l).keys q.record.keycode = none
  enabled : u.enabled = s.enabled
  trace : ∃ es, u.trace = s.trace ++ es ∧ (∀ e ∈ es, e.NoAnswer) ∧ ∀ (f : α → Fate) k,
    ((fateRules α).after f es k).through = (f k).through ∧
    (((fateRules α).after f es k).consumed = true ↔ (f k).consumed = true ∨
      ∃ l ∈ ring, Fires s l ∧ HasPress s l k)

omit [DecidableEq α] in
theorem mem_records {buf buf' : List (QueuedRecord α)}
    (h : buf'.map QueuedRecord.record = buf.map QueuedRecord.record) {q : QueuedRecord α}
    (hq : q ∈ buf) : ∃ p ∈ buf', p.record = q.record := by
  have hm : q.record ∈ buf'.map QueuedRecord.record := h.symm ▸ List.mem_map_of_mem hq
  exact List.mem_map.mp hm

omit [DecidableEq α] in
theorem hasPress_of_records {t : State cfg α} {k : α}
    (h : t.keyBuffer.map QueuedRecord.record = s.keyBuffer.map QueuedRecord.record)
    (hp : HasPress s j k) : HasPress t j k := by
  obtain ⟨q, hq, hk, hi⟩ := hp
  obtain ⟨p, hp, hpq⟩ := mem_records h hq
  exact ⟨p, hp, by rwa [hpq], by rwa [hpq]⟩

theorem applied_nil (s : State cfg α) : Applied s s [] where
  state _ := rfl
  active := by simp
  disabled := by simp
  comboBuffer := .refl _
  records := rfl
  key q hq _ := ⟨hq, by simp⟩
  enabled := rfl
  trace := ⟨[], (List.append_nil _).symm, by simp, by simp⟩

theorem applied_disabled (h : (s.combos j).disabled = true) : Applied s (applyCombo j s) [j] := by
  have hf : ¬ Fires s j := by
    rintro ⟨hd, -⟩
    rw [h] at hd
    cases hd
  rw [applyCombo, if_pos h]
  constructor
  · exact fun _ => rfl
  · intro l
    refine ⟨Or.inl, ?_⟩
    rintro (ha | ⟨hl, hl'⟩)
    · exact ha
    · rw [List.mem_singleton.mp hl] at hl'
      exact absurd hl' hf
  · intro l
    refine ⟨Or.inl, ?_⟩
    rintro (hd | hl)
    · exact hd
    · rw [List.mem_singleton.mp hl]
      exact h
  · exact .refl _
  · rfl
  · intro q hq _
    refine ⟨hq, fun l hl hl' => ?_⟩
    rw [List.mem_singleton.mp hl] at hl'
    exact absurd hl' hf
  · rfl
  · refine ⟨[], (List.append_nil _).symm, by simp, fun f k => ⟨rfl, Or.inl, ?_⟩⟩
    rintro (hc | ⟨l, hl, hl', -⟩)
    · exact hc
    · rw [List.mem_singleton.mp hl] at hl'
      exact absurd hl' hf

theorem applied_enabled (h : (s.combos j).disabled = false) (hm : j ∈ s.comboBuffer)
    (hk : (cfg.combo j).keys ≠ []) (hc : Coded s.keyBuffer)
    (hn : (s.keyBuffer.map fun q => q.record.keycode).Nodup) :
    Applied s (applyCombo j s) [j] := by
  have hdone : (applied s j).2.2 = true ↔ Fires s j :=
    (applyLoop_zero_done hk hc).trans ⟨fun hcov => ⟨h, hcov⟩, fun hf => hf.2⟩
  have hall : (applied s j).2.2 = true → _ := applyLoop_all hc hn
  rw [applyCombo_eq h hm]
  constructor
  · intro l
    rcases eq_or_ne l j with rfl | hne
    · simp
    · simp [hne]
  · intro l
    rcases eq_or_ne l j with rfl | hne
    · simp [hdone]
    · simp [hne]
  · intro l
    rcases eq_or_ne l j with rfl | hne
    · simp
    · simp [hne]
  · dsimp only
    split_ifs
    · exact List.tail_sublist _
    · exact .refl _
  · exact applyLoop_records j _ _ _
  · intro q hq hkind
    refine ⟨applyLoop_key j _ _ _ q hq hkind, fun l hl hf => ?_⟩
    rw [List.mem_singleton.mp hl] at hf ⊢
    rw [Option.eq_none_iff_forall_ne_some]
    intro i hi
    exact (hall (hdone.mpr hf)).2 q hq i hi (by simp) hkind
  · rfl
  · refine ⟨_, rfl, ?_, ?_⟩
    · intro e he
      rw [List.mem_singleton.mp he]
      split_ifs <;> trivial
    · intro f k
      rcases hb : (applied s j).2.2 with _ | _
      · have hf : ¬ Fires s j := by
          rw [← hdone, hb]
          simp
        refine ⟨rfl, Or.inl, ?_⟩
        rintro (hcons | ⟨l, hl, hl', -⟩)
        · exact hcons
        · rw [List.mem_singleton.mp hl] at hl'
          exact absurd hl' hf
      · have hf := hdone.mp hb
        have hmem : k ∈ (applied s j).2.1.map Record.key ↔ HasPress s j k := by
          constructor
          · intro hkm
            obtain ⟨r, hr, rfl⟩ := List.mem_map.mp hkm
            obtain ⟨⟨q, hq, rfl⟩, hi⟩ := applyLoop_taken j _ _ _ r hr
            exact ⟨q, hq, rfl, hi⟩
          · rintro ⟨q, hq, rfl, i, hi⟩
            exact List.mem_map_of_mem ((hall hb).1 q hq i hi (by simp))
        change (nextFate f (.applied j _) k).through = _ ∧
          ((nextFate f (.applied j _) k).consumed = true ↔ _)
        simp only [nextFate, List.mem_singleton, exists_eq_left, hf, true_and]
        split_ifs with hp
        · exact ⟨rfl, fun _ => Or.inr (hmem.mp hp), fun _ => rfl⟩
        · exact ⟨rfl, Or.inl, fun hor => hor.resolve_right fun hpr => hp (hmem.mpr hpr)⟩

theorem Applied.cons {t u : State cfg α} {ring : List ℕ} (h : Applied s t [j])
    (h' : Applied t u ring) (hj : j ∉ ring) : Applied s u (j :: ring) := by
  have hfires : ∀ l ∈ ring, (Fires t l ↔ Fires s l) := by
    intro l hl
    have hd : (t.combos l).disabled = false ↔ (s.combos l).disabled = false := by
      rw [← Bool.not_eq_true, ← Bool.not_eq_true, h.disabled, List.mem_singleton, not_or]
      exact ⟨And.left, fun hd => ⟨hd, fun he => hj (he ▸ hl)⟩⟩
    exact and_congr hd ⟨fun hc => covers_of_records hc h.records.symm,
      fun hc => covers_of_records hc h.records⟩
  have hpress : ∀ l k, HasPress t l k ↔ HasPress s l k :=
    fun l k => ⟨hasPress_of_records h.records.symm, hasPress_of_records h.records⟩
  constructor
  · exact fun l => (h'.state l).trans (h.state l)
  · intro l
    rw [h'.active, h.active, or_assoc]
    refine or_congr_right ?_
    constructor
    · rintro (⟨hl, hf⟩ | ⟨hl, hf⟩)
      · exact ⟨List.mem_singleton.mp hl ▸ List.mem_cons_self, hf⟩
      · exact ⟨List.mem_cons_of_mem _ hl, (hfires l hl).mp hf⟩
    · rintro ⟨hl, hf⟩
      rcases List.mem_cons.mp hl with rfl | hl
      · exact Or.inl ⟨List.mem_singleton_self _, hf⟩
      · exact Or.inr ⟨hl, (hfires l hl).mpr hf⟩
  · intro l
    rw [h'.disabled, h.disabled, List.mem_singleton, List.mem_cons, or_assoc]
  · exact h'.comboBuffer.trans h.comboBuffer
  · exact h'.records.trans h.records
  · intro q hq hk
    obtain ⟨hq, hnone⟩ := h'.key q hq hk
    obtain ⟨hq, hnone'⟩ := h.key q hq hk
    refine ⟨hq, fun l hl hf => ?_⟩
    rcases List.mem_cons.mp hl with rfl | hl
    · exact hnone' l (List.mem_singleton_self _) hf
    · exact hnone l hl ((hfires l hl).mpr hf)
  · exact h'.enabled.trans h.enabled
  · obtain ⟨es, ht, hes, hfate⟩ := h.trace
    obtain ⟨es', ht', hes', hfate'⟩ := h'.trace
    refine ⟨es ++ es', ?_, ?_, fun f k => ?_⟩
    · rw [ht', ht, List.append_assoc]
    · intro e he
      rcases List.mem_append.mp he with he | he
      · exact hes e he
      · exact hes' e he
    · rw [Monitor.after_append]
      obtain ⟨h₁, h₂⟩ := hfate f k
      obtain ⟨h₁', h₂'⟩ := hfate' ((fateRules α).after f es) k
      refine ⟨h₁'.trans h₁, ?_⟩
      rw [h₂', h₂, or_assoc]
      refine or_congr_right ?_
      constructor
      · rintro (⟨l, hl, hf, hp⟩ | ⟨l, hl, hf, hp⟩)
        · exact ⟨l, List.mem_singleton.mp hl ▸ List.mem_cons_self, hf, hp⟩
        · exact ⟨l, List.mem_cons_of_mem _ hl, (hfires l hl).mp hf, (hpress l k).mp hp⟩
      · rintro ⟨l, hl, hf, hp⟩
        rcases List.mem_cons.mp hl with rfl | hl
        · exact Or.inl ⟨l, List.mem_singleton_self _, hf, hp⟩
        · exact Or.inr ⟨l, hl, (hfires l hl).mpr hf, (hpress l k).mpr hp⟩

theorem applied_foldl {ring : List ℕ} (hn : ring.Nodup) (hm : ∀ l ∈ ring, l ∈ s.comboBuffer)
    (hs : s.comboBuffer.Nodup) (hk : ∀ l ∈ ring, (cfg.combo l).keys ≠ []) (hc : Coded s.keyBuffer)
    (hcodes : (s.keyBuffer.map fun q => q.record.keycode).Nodup) :
    Applied s (ring.foldl (fun s idx => applyCombo idx s) s) ring := by
  induction ring generalizing s with
  | nil => exact applied_nil s
  | cons j ring ih =>
    obtain ⟨hj, hn⟩ := List.nodup_cons.mp hn
    have hone : Applied s (applyCombo j s) [j] := by
      cases hd : (s.combos j).disabled with
      | true => exact applied_disabled hd
      | false =>
        exact applied_enabled hd (hm j List.mem_cons_self) (hk j List.mem_cons_self) hc hcodes
    -- the entries that are still to be applied are still waiting
    have hstay : ∀ l ∈ ring, l ∈ (applyCombo j s).comboBuffer := by
      intro l hl
      have hl' := hm l (List.mem_cons_of_mem _ hl)
      cases hd : (s.combos j).disabled with
      | true => rwa [applyCombo, if_pos hd]
      | false =>
        rw [applyCombo_eq hd (hm j List.mem_cons_self)]
        dsimp only
        split_ifs with hh
        · rw [List.head?_eq_some_iff] at hh
          obtain ⟨tl, htl⟩ := hh
          rw [htl] at hl' ⊢
          rcases List.mem_cons.mp hl' with rfl | hl'
          · exact absurd hl hj
          · exact hl'
        · exact hl'
    have hcodes' : ((applyCombo j s).keyBuffer.map fun q => q.record.keycode).Nodup := by
      have := congrArg (List.map Record.keycode) hone.records
      rw [List.map_map, List.map_map] at this
      exact this.symm ▸ hcodes
    exact hone.cons (ih hn hstay (hs.sublist hone.comboBuffer)
      (fun l hl => hk l (List.mem_cons_of_mem _ hl)) (coded_of_records hc hone.records) hcodes') hj

end Apply

end Qmk.Combos
