import Qmk.Combos.Releases

/-! # Buffered keys and the timer

The timer of the engine is the time of the last press that went to the key buffer, and 0 stands for
a timer that does not run. But 0 is also a time, and `comboTask` never flushes what was buffered
at that time.
-/

namespace Qmk.Combos

variable {cfg : Config} {α : Type*} {s t : State cfg α} {idx i : ℕ} {r : Record α}
  {now : BitVec 16}

/-- The combo takes the press as one of its keys: it is on, or it is active and still has the key
down. -/
def Counts (s : State cfg α) (r : Record α) (idx : ℕ) : Prop :=
  ∃ i ∈ findKeyIndex (cfg.combo idx).keys r.keycode,
    ((s.combos idx).disabled = false ∧ s.enabled) ∨
      ((s.combos idx).active ∧ keyNotYetReleased (s.combos idx).state i)

instance (s : State cfg α) (r : Record α) (idx : ℕ) : Decidable (Counts s r idx) :=
  match h : findKeyIndex (cfg.combo idx).keys r.keycode with
  | none => isFalse (by simp [Counts, h])
  | some i => decidable_of_iff (((s.combos idx).disabled = false ∧ s.enabled) ∨
      ((s.combos idx).active ∧ keyNotYetReleased (s.combos idx).state i)) (by simp [Counts, h])

/-- The event is a press that goes to the key buffer, or finds it full. -/
def Buffers (s : State cfg α) (r : Record α) : Prop :=
  r.pressed ∧ r.keycode ∉ [qkComboOn, qkComboOff, qkComboToggle] ∧
    (∃ idx ∈ List.range cfg.table.length, Counts s r idx) ∧
    (s.keyBuffer ≠ [] ∨ 0 < cfg.keyBufferLength)

instance (s : State cfg α) (r : Record α) : Decidable (Buffers s r) :=
  decidable_of_iff (r.pressed ∧ r.keycode ∉ [qkComboOn, qkComboOff, qkComboToggle] ∧
    (∃ idx ∈ List.range cfg.table.length, Counts s r idx) ∧
    (s.keyBuffer.isEmpty = false ∨ 0 < cfg.keyBufferLength)) (by simp [Buffers])

/-- A press that goes to the key buffer does not come at the time 0. -/
def Timed (s : State cfg α) : Call α → Prop
  | .event r now => Buffers s r → now ≠ 0
  | _ => True

instance (s : State cfg α) (c : Call α) : Decidable (Timed s c) :=
  match c with
  | .event .. => inferInstanceAs (Decidable (_ → _))
  | .task _ | .enable | .disable | .toggle => isTrue trivial

/-- Every call of a run is timed. -/
def AllTimed : State cfg α → List (Call α) → Prop
  | _, [] => True
  | s, c :: calls => Timed s c ∧ AllTimed (step s c) calls

instance instDecidableAllTimed : (s : State cfg α) → (calls : List (Call α)) →
    Decidable (AllTimed s calls)
  | _, [] => isTrue trivial
  | s, c :: calls =>
    have := instDecidableAllTimed (step s c) calls
    inferInstanceAs (Decidable (_ ∧ _))

/-- As long as keys are buffered the timer runs, and the task flushes them after the longest
term. -/
structure Flushes (s : State cfg α) : Prop where
  runs : s.keyBuffer ≠ [] → s.timer ≠ 0
  flushes : s.enabled → s.keyBuffer ≠ [] → ∀ now : BitVec 16,
    s.longestTerm < (now - s.timer).toNat → (comboTask now s).keyBuffer = []

section Timer

@[simp] theorem timer_modify (f : ComboState cfg.stateBits → ComboState cfg.stateBits) :
    (s.modify idx f).timer = s.timer := rfl

@[simp] theorem timer_disableCombo : (disableCombo idx s).timer = s.timer := rfl

@[simp] theorem timer_dropComboFromBuffer : (dropComboFromBuffer idx s).timer = s.timer := by
  simp only [dropComboFromBuffer]
  split_ifs <;> rfl

@[simp] theorem timer_dropOverlaps (ring kept : List ℕ) :
    (dropOverlaps idx ring kept s).2.timer = s.timer := by
  fun_induction dropOverlaps idx ring kept s with
  | case1 => rfl
  | case2 _ _ _ _ _ ih => exact ih
  | case3 => rfl
  | case4 _ _ _ _ _ _ _ ih => exact ih
  | case5 _ _ _ _ _ _ _ _ _ ih => exact ih

@[simp] theorem timer_bufferCombo : (bufferCombo idx now s).timer = s.timer := by
  simp only [bufferCombo]
  split_ifs
  · rfl
  · exact timer_dropOverlaps _ _
  · exact timer_dropOverlaps _ _

@[simp] theorem timer_chordPress : (chordPress idx i now s).timer = s.timer := by
  simp only [chordPress]
  split_ifs <;> simp

@[simp] theorem timer_chordRelease : (chordRelease idx i s).2.timer = s.timer := by
  simp only [chordRelease]
  split_ifs <;> simp [releaseCombo, State.emit]

@[simp] theorem timer_processSingleCombo :
    (processSingleCombo r now idx s).2.timer = s.timer := by
  rw [processSingleCombo]
  cases findKeyIndex (cfg.combo idx).keys r.keycode with
  | none => rfl
  | some i =>
    dsimp only
    split_ifs <;> simp

@[simp] theorem timer_processCombos (idxs : List ℕ) (p : Bool × State cfg α) :
    (processCombos r now idxs p).2.timer = p.2.timer := by
  induction idxs generalizing p with
  | nil => rfl
  | cons idx idxs ih => exact (ih _).trans timer_processSingleCombo

end Timer

section Counting

theorem processSingleCombo_counts (hp : r.pressed = true) (now : BitVec 16) (idx : ℕ)
    (s : State cfg α) : (processSingleCombo r now idx s).1 = true ↔ Counts s r idx := by
  cases hkey : findKeyIndex (cfg.combo idx).keys r.keycode with
  | none => simp [processSingleCombo_none now hkey, Counts, hkey]
  | some i =>
    by_cases hon : (s.combos idx).disabled = false ∧ s.enabled
    · simp [processSingleCombo_press now hkey ⟨hp, hon⟩, Counts, hkey, hon]
    · rw [processSingleCombo_release now hkey fun h => hon h.2]
      have hdisabled (h : (s.combos idx).disabled = false) : s.enabled = false := by
        simpa using fun henabled => hon ⟨h, henabled⟩
      simp only [chordRelease, Counts, hkey, Option.mem_some_iff, exists_eq_left', hon, false_or]
      split_ifs with hfull hdis hlast hnot
      · simp [hfull.1]
      · simp [hfull.1, hdisabled (by simpa using hdis)]
      · simp [hlast.1, hlast.2.2]
      · simp [hnot.1, hnot.2]
      · simpa using fun h => by simpa using fun hk => hnot ⟨h, hk⟩

/-- The loop over the table answers whether some combo takes the press. -/
theorem processCombos_counts (hp : r.pressed = true) (now : BitVec 16) (idxs : List ℕ)
    (hnodup : idxs.Nodup) (b : Bool) (s : State cfg α) :
    (processCombos r now idxs (b, s)).1 = true ↔ b = true ∨ ∃ idx ∈ idxs, Counts s r idx := by
  induction idxs generalizing b s with
  | nil => simp [processCombos]
  | cons idx idxs ih =>
    obtain ⟨hidx, hnodup⟩ := List.nodup_cons.mp hnodup
    have hone := processSingleCombo_counts hp now idx s
    simp only [processCombos, ih hnodup, Bool.or_eq_true, hone, or_assoc, List.exists_mem_cons_iff]
    -- The combos behind one that does not take the press are still as they were.
    by_cases hcounts : Counts s r idx
    · simp [hcounts]
    · have hsame : ∀ j ∈ idxs,
          (Counts (processSingleCombo r now idx s).2 r j ↔ Counts s r j) := by
        intro j hj
        have hne : j ≠ idx := fun heq => hidx (heq ▸ hj)
        have hcombos : (processSingleCombo r now idx s).2.combos j = s.combos j := by
          cases hkey : findKeyIndex (cfg.combo idx).keys r.keycode with
          | none => rw [processSingleCombo_none now hkey]
          | some i =>
            have hon : ¬ (r.pressed ∧ (s.combos idx).disabled = false ∧ s.enabled) := by
              rintro ⟨-, hon⟩
              exact hcounts ⟨i, hkey, .inl hon⟩
            rw [processSingleCombo_release now hkey hon]
            exact chordRelease_of_ne hne
        simp only [Counts, hcombos, (quiet_processSingleCombo r now idx s).enabled]
      simp only [hcounts, false_or]
      exact or_congr_right (exists_congr fun j => and_congr_right fun hj => hsame j hj)

end Counting

section Runs

@[simp] theorem keyBuffer_applyCombos : (applyCombos s).keyBuffer = [] := rfl

@[simp] theorem keyBuffer_flush : (flush s).keyBuffer = [] := by
  simp only [flush]
  split_ifs <;> rfl

theorem comboTask_flushes (he : s.enabled) (ht : s.timer ≠ 0)
    (hterm : s.longestTerm < (now - s.timer).toNat) : (comboTask now s).keyBuffer = [] := by
  rw [comboTask, if_pos ⟨he, ht, hterm⟩]
  split_ifs <;> rfl

theorem flushes_of_timer (h : s.keyBuffer ≠ [] → s.timer ≠ 0) : Flushes s :=
  ⟨h, fun he hbuffer _ hterm => comboTask_flushes he (h hbuffer) hterm⟩

theorem flushes_of_nil (h : s.keyBuffer = []) : Flushes s :=
  flushes_of_timer fun hne => absurd h hne

/-- A press that some combo takes starts the timer, another event flushes. -/
theorem processKey_cases (r : Record α) (now : BitVec 16) (s : State cfg α) :
    (r.pressed = true ∧ (∃ idx ∈ List.range cfg.table.length, Counts s r idx) ∧
      (processKey r now s).timer = now ∧
      (processKey r now s).keyBuffer =
        if s.keyBuffer.length < cfg.keyBufferLength then s.keyBuffer ++ [⟨r, .key⟩]
        else s.keyBuffer) ∨
    ((r.pressed = false ∨ ¬ ∃ idx ∈ List.range cfg.table.length, Counts s r idx) ∧
      (processKey r now s).keyBuffer = []) := by
  set p := processCombos r now (List.range cfg.table.length) (false, s) with hp
  have hcounted (hpress : r.pressed = true) :
      p.1 = true ↔ ∃ idx ∈ List.range cfg.table.length, Counts s r idx := by
    simpa using processCombos_counts hpress now _ List.nodup_range false s
  have hbuffer : (processKey r now s).keyBuffer =
      (if r.pressed ∧ p.1 then queuePress r now p.2 else flush p.2).keyBuffer := rfl
  have htimer : (processKey r now s).timer =
      (if r.pressed ∧ p.1 then queuePress r now p.2 else flush p.2).timer := rfl
  by_cases htaken : r.pressed ∧ p.1
  · rw [if_pos htaken] at hbuffer htimer
    refine .inl ⟨htaken.1, (hcounted htaken.1).mp htaken.2, ?_, ?_⟩
    · rw [htimer, queuePress]
      split_ifs <;> rfl
    · have hsame : p.2.keyBuffer = s.keyBuffer :=
        (quiet_processCombos r now (List.range cfg.table.length) (false, s)).keyBuffer
      rw [hbuffer, queuePress, ← hsame]
      split_ifs <;> rfl
  · rw [if_neg htaken] at hbuffer
    refine .inr ⟨?_, hbuffer.trans keyBuffer_flush⟩
    cases hpress : r.pressed with
    | false => exact .inl rfl
    | true => exact .inr fun hcounts => htaken ⟨hpress, (hcounted hpress).mpr hcounts⟩

/-- A key that switches the combos does not touch the timer of a buffered key. -/
theorem Flushes.switch (h : Flushes s) (hr : r.keycode ∈ [qkComboOn, qkComboOff, qkComboToggle])
    (hp : r.pressed = true) : Flushes (processCombo r now s) := by
  have henable : Flushes (comboEnable s) := flushes_of_timer h.runs
  have hdisable : Flushes (comboDisable s) := flushes_of_nil rfl
  have htoggle : Flushes (comboToggle s) := by
    simp only [comboToggle]
    split_ifs
    · exact hdisable
    · exact henable
  rw [processCombo]
  split_ifs with hon hoff htog
  · exact flushes_of_timer henable.runs
  · exact flushes_of_nil rfl
  · exact flushes_of_timer htoggle.runs
  · simp [hp] at hon hoff htog
    simp [hon, hoff, htog] at hr

theorem Flushes.event (h : Flushes s) (r : Record α) (now : BitVec 16) :
    Flushes (processCombo r now s) ↔ Timed s (.event r now) := by
  by_cases hswitch : r.pressed = true ∧ r.keycode ∈ [qkComboOn, qkComboOff, qkComboToggle]
  · exact iff_of_true (h.switch hswitch.2 hswitch.1) fun hbuffers => absurd hswitch.2 hbuffers.2.1
  · have hkey : processCombo r now s = processKey r now s := by
      simp only [List.mem_cons, List.not_mem_nil, or_false, not_and, not_or] at hswitch
      rw [processCombo, if_neg fun hc => (hswitch hc.2).1 hc.1,
        if_neg fun hc => (hswitch hc.2).2.1 hc.1, if_neg fun hc => (hswitch hc.2).2.2 hc.1]
    rw [hkey]
    rcases processKey_cases r now s with ⟨hp, hcounts, htimer, hbuffer⟩ | ⟨hnot, hbuffer⟩
    · have hnotin : r.keycode ∉ [qkComboOn, qkComboOff, qkComboToggle] := fun hin =>
        hswitch ⟨hp, hin⟩
      have hne : (processKey r now s).keyBuffer ≠ [] ↔
          s.keyBuffer ≠ [] ∨ 0 < cfg.keyBufferLength := by
        rw [hbuffer]
        split_ifs with hroom
        · simpa using .inr (Nat.zero_lt_of_lt hroom)
        · constructor
          · exact .inl
          · rintro (hold | hlength) hnil
            · exact hold hnil
            · exact hroom (by rw [hnil]; exact hlength)
      constructor
      · rintro hflushes ⟨-, -, -, hroom⟩
        exact htimer ▸ hflushes.runs (hne.mpr hroom)
      · intro htimed
        refine flushes_of_timer fun hfull => ?_
        rw [htimer]
        exact htimed ⟨hp, hnotin, hcounts, hne.mp hfull⟩
    · refine iff_of_true (flushes_of_nil hbuffer) fun hbuffers => ?_
      rcases hnot with hp | hcounts
      · exact absurd (hbuffers.1.symm.trans hp) (by decide)
      · exact absurd hbuffers.2.2.1 hcounts

theorem Flushes.step (h : Flushes s) (c : Call α) : Flushes (step s c) ↔ Timed s c := by
  cases c with
  | event r now => exact h.event r now
  | task now =>
    refine iff_of_true ?_ trivial
    simp only [Combos.step, comboTask]
    split_ifs
    · exact flushes_of_nil rfl
    · exact flushes_of_nil rfl
    · exact h
  | enable => exact iff_of_true (flushes_of_timer h.runs) trivial
  | disable => exact iff_of_true (flushes_of_nil rfl) trivial
  | toggle =>
    refine iff_of_true ?_ trivial
    simp only [Combos.step, comboToggle]
    split_ifs
    · exact flushes_of_nil rfl
    · exact flushes_of_timer h.runs

theorem allTimed_iff_accepts (s : State cfg α) (calls : List (Call α)) :
    AllTimed s calls ↔ (Monitor.mk step Timed).Accepts s calls := by
  induction calls generalizing s with
  | nil => exact Iff.rfl
  | cons c calls ih => exact and_congr_right fun _ => ih _

/-- No state of a run strands its buffered keys, exactly if no press that goes to the key buffer
comes at the time 0. -/
theorem neverStrands_iff (cfg : Config) (calls : List (Call α)) :
    (∀ pre rest, calls = pre ++ rest → Flushes (run (State.start cfg α) pre)) ↔
      AllTimed (State.start cfg α) calls := by
  rw [allTimed_iff_accepts]
  apply Monitor.accepts_iff_prefixes (M := ⟨step, Timed⟩) (I := Flushes) (P := Flushes)
  · exact fun _ h => h
  · exact fun _ c h htimed => (h.step c).mpr htimed
  · exact fun _ c h hnext => (h.step c).mp hnext
  · exact flushes_of_nil rfl

/-- The first key of a pair is pressed when the clock is 0. -/
theorem zero_time_strands :
    ¬ ∀ (cfg : Config) (calls : List (Call ℕ)),
      Flushes (run (State.start cfg ℕ) calls) := by
  intro h
  have hrun := (h pairs [press 1 0]).runs
  exact hrun (by decide +kernel) (by decide +kernel)

end Runs

end Qmk.Combos
