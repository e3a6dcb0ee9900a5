import Qmk.Combos.Keys

/-! # What the parts of the engine change

The loop over the table changes the states of the combos and the combo buffer, and
releases combos; it leaves the key buffer alone and hands on no press. Only the
flush takes records out of the key buffer.
-/

namespace Qmk.Combos

variable {cfg : Config} {α : Type*} {s t u : State cfg α} {idx i : ℕ}

section Modify

variable (f : ComboState cfg.stateBits → ComboState cfg.stateBits)

@[simp] theorem modify_self : (s.modify idx f).combos idx = f (s.combos idx) := by
  simp [State.modify]

theorem modify_of_ne {j : ℕ} (h : j ≠ idx) : (s.modify idx f).combos j = s.combos j := by
  simp [State.modify, h]

@[simp] theorem modify_keyBuffer : (s.modify idx f).keyBuffer = s.keyBuffer := rfl

@[simp] theorem modify_comboBuffer : (s.modify idx f).comboBuffer = s.comboBuffer := rfl

@[simp] theorem modify_enabled : (s.modify idx f).enabled = s.enabled := rfl

@[simp] theorem modify_trace : (s.modify idx f).trace = s.trace := rfl

end Modify

def Effect.IsComboEvent : Effect α → Prop
  | .comboEvent _ _ _ => True
  | _ => False

/-- The key buffer is left alone and nothing but combo events happens. -/
structure Quiet (s t : State cfg α) : Prop where
  keyBuffer : t.keyBuffer = s.keyBuffer
  enabled : t.enabled = s.enabled
  trace : ∃ es, t.trace = s.trace ++ es ∧ ∀ e ∈ es, e.IsComboEvent

namespace Quiet

theorem of_eq (hk : t.keyBuffer = s.keyBuffer) (he : t.enabled = s.enabled)
    (ht : t.trace = s.trace) : Quiet s t :=
  ⟨hk, he, [], by rw [ht, List.append_nil], by simp⟩

theorem refl (s : State cfg α) : Quiet s s := of_eq rfl rfl rfl

theorem trans (h : Quiet s t) (h' : Quiet t u) : Quiet s u := by
  obtain ⟨hk, he, es, ht, hes⟩ := h
  obtain ⟨hk', he', es', ht', hes'⟩ := h'
  refine ⟨hk'.trans hk, he'.trans he, es ++ es', ?_, ?_⟩
  · rw [ht', ht, List.append_assoc]
  · intro e hm
    rcases List.mem_append.mp hm with hm | hm
    · exact hes e hm
    · exact hes' e hm

end Quiet

theorem quiet_disableCombo (idx : ℕ) (s : State cfg α) : Quiet s (disableCombo idx s) :=
  .of_eq rfl rfl rfl

theorem quiet_releaseCombo (idx : ℕ) (s : State cfg α) : Quiet s (releaseCombo idx s) :=
  ⟨rfl, rfl, [.comboEvent idx (cfg.combo idx).keycode false], rfl, by simp [Effect.IsComboEvent]⟩

theorem quiet_dropComboFromBuffer (idx : ℕ) (s : State cfg α) :
    Quiet s (dropComboFromBuffer idx s) := by
  simp only [dropComboFromBuffer]
  split_ifs
  · exact .of_eq rfl rfl rfl
  · exact .of_eq rfl rfl rfl
  · exact .refl s

theorem quiet_dropOverlaps (idx : ℕ) (ring kept : List ℕ) (s : State cfg α) :
    Quiet s (dropOverlaps idx ring kept s).2 := by
  fun_induction dropOverlaps idx ring kept s with
  | case1 => exact .of_eq rfl rfl rfl
  | case2 _ _ _ _ _ ih => exact ih
  | case3 => exact .of_eq rfl rfl rfl
  | case4 _ _ _ _ _ _ _ ih => exact (quiet_disableCombo _ _).trans ih
  | case5 _ _ _ _ _ _ _ _ _ ih => exact (quiet_disableCombo _ _).trans ih

theorem quiet_bufferCombo (idx : ℕ) (now : BitVec 16) (s : State cfg α) :
    Quiet s (bufferCombo idx now s) := by
  simp only [bufferCombo]
  split_ifs
  · exact quiet_disableCombo idx s
  · exact quiet_dropOverlaps _ _ _ _
  · exact (quiet_dropOverlaps _ _ _ _).trans (.of_eq rfl rfl rfl)

theorem quiet_chordPress (idx i : ℕ) (now : BitVec 16) (s : State cfg α) :
    Quiet s (chordPress idx i now s) := by
  simp only [chordPress]
  split_ifs
  · exact quiet_bufferCombo _ _ _
  · exact .refl s
  · refine .trans ?_ (quiet_bufferCombo _ _ _)
    exact .of_eq rfl rfl rfl
  · exact .of_eq rfl rfl rfl

theorem quiet_chordRelease (idx i : ℕ) (s : State cfg α) : Quiet s (chordRelease idx i s).2 := by
  simp only [chordRelease]
  split_ifs
  · exact (quiet_dropComboFromBuffer idx s).trans (.of_eq rfl rfl rfl)
  · exact .of_eq rfl rfl rfl
  · exact (quiet_releaseCombo idx s).trans (.of_eq rfl rfl rfl)
  · exact .of_eq rfl rfl rfl
  · exact .of_eq rfl rfl rfl

theorem quiet_processSingleCombo (r : Record α) (now : BitVec 16) (idx : ℕ) (s : State cfg α) :
    Quiet s (processSingleCombo r now idx s).2 := by
  rw [processSingleCombo]
  cases findKeyIndex (cfg.combo idx).keys r.keycode with
  | none => exact .refl s
  | some i =>
    dsimp only
    split_ifs
    · exact quiet_chordPress _ _ _ _
    · exact quiet_chordRelease _ _ _

theorem quiet_processCombos (r : Record α) (now : BitVec 16) (idxs : List ℕ)
    (p : Bool × State cfg α) : Quiet p.2 (processCombos r now idxs p).2 := by
  induction idxs generalizing p with
  | nil => exact .refl _
  | cons idx idxs ih =>
    exact (quiet_processSingleCombo r now idx p.2).trans
      (ih (p.1 || (processSingleCombo r now idx p.2).1, (processSingleCombo r now idx p.2).2))

section Single

theorem processSingleCombo_none {r : Record α} (now : BitVec 16)
    (h : findKeyIndex (cfg.combo idx).keys r.keycode = none) :
    processSingleCombo r now idx s = (false, s) := by
  simp only [processSingleCombo, h]

theorem processSingleCombo_press {r : Record α} (now : BitVec 16)
    (h : findKeyIndex (cfg.combo idx).keys r.keycode = some i)
    (hp : r.pressed ∧ (s.combos idx).disabled = false ∧ s.enabled) :
    processSingleCombo r now idx s = (true, chordPress idx i now s) := by
  simp only [processSingleCombo, h, if_pos hp]

theorem processSingleCombo_release {r : Record α} (now : BitVec 16)
    (h : findKeyIndex (cfg.combo idx).keys r.keycode = some i)
    (hp : ¬ (r.pressed ∧ (s.combos idx).disabled = false ∧ s.enabled)) :
    processSingleCombo r now idx s = chordRelease idx i s := by
  simp only [processSingleCombo, h, if_neg hp]

end Single

theorem onlyOne_bit {w : ℕ} {x : BitVec w} (h : onlyOneKeyIsDown x) {j : ℕ}
    (hi : x.getLsbD i = true) (hj : x.getLsbD j = true) : j = i := by
  have hne : x.toNat ≠ 0 := by
    intro h0
    rw [BitVec.getLsbD, h0, Nat.zero_testBit] at hi
    cases hi
  have hone : (1 : BitVec w).toNat ≤ x.toNat := by
    have := Nat.mod_le 1 (2 ^ w)
    change 1 % 2 ^ w ≤ x.toNat
    omega
  have hw : 1 < 2 ^ w := by
    have := x.isLt
    omega
  have hz := congrArg BitVec.toNat h
  rw [BitVec.toNat_and, BitVec.toNat_sub_of_le (BitVec.le_def.mpr hone)] at hz
  change x.toNat &&& (x.toNat - 1 % 2 ^ w) = 0 % 2 ^ w at hz
  rw [Nat.mod_eq_of_lt hw, Nat.zero_mod] at hz
  obtain ⟨k, hk⟩ := (Nat.and_sub_one_eq_zero_iff_isPowerOfTwo hne).mp hz
  have hbit : ∀ n, x.getLsbD n = true → n = k := by
    intro n hn
    rw [BitVec.getLsbD, hk, Nat.testBit_two_pow] at hn
    exact (of_decide_eq_true hn).symm
  exact (hbit j hj).trans (hbit i hi).symm

end Qmk.Combos
