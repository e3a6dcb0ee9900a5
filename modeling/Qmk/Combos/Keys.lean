import Qmk.Combos.Engine
import Mathlib.Data.List.Perm.Basic

/-! # Keys of a combo and the records they take

The state of a combo has one bit for every key. Applying a combo to the key buffer
activates it exactly when the buffer has a record for each of its keys, and what
it takes are records of its keys.
-/

namespace Qmk.Combos

variable {α : Type*}

section Index

variable {keys : List ℕ} {c i : ℕ}

theorem findFrom_some (hc : c ≠ 0) {n : ℕ} {found : Option ℕ}
    (h : findFrom c keys n found = some i) : found = some i ∨ n ≤ i ∧ keys[i - n]? = some c := by
  induction keys generalizing n found with
  | nil =>
    rw [findFrom, if_neg hc] at h
    exact Or.inl h
  | cons k ks ih =>
    rw [findFrom] at h
    rcases ih h with hf | ⟨hn, hk⟩
    · split_ifs at hf with hck
      · cases hf
        exact Or.inr ⟨le_rfl, by simp [hck]⟩
      · exact Or.inl hf
    · refine Or.inr ⟨by omega, ?_⟩
      rw [show i - n = i - (n + 1) + 1 by omega, List.getElem?_cons_succ]
      exact hk

theorem findFrom_eq_none (hc : c ≠ 0) {n : ℕ} {found : Option ℕ} :
    findFrom c keys n found = none ↔ found = none ∧ c ∉ keys := by
  induction keys generalizing n found with
  | nil => simp [findFrom, hc]
  | cons k ks ih =>
    rw [findFrom, ih, List.mem_cons, not_or]
    split_ifs with hck
    · simp [hck]
    · simp [hck]

theorem findKeyIndex_some (hc : c ≠ 0) (h : findKeyIndex keys c = some i) : keys[i]? = some c := by
  rcases findFrom_some hc h with hf | ⟨-, hk⟩
  · cases hf
  · exact hk

theorem findKeyIndex_lt (hc : c ≠ 0) (h : findKeyIndex keys c = some i) : i < keys.length := by
  obtain ⟨hi, -⟩ := List.getElem?_eq_some_iff.mp (findKeyIndex_some hc h)
  exact hi

theorem mem_of_findKeyIndex (hc : c ≠ 0) (h : findKeyIndex keys c = some i) : c ∈ keys :=
  List.mem_of_getElem? (findKeyIndex_some hc h)

theorem findKeyIndex_of_mem (hc : c ≠ 0) (h : c ∈ keys) : ∃ i, findKeyIndex keys c = some i := by
  apply Option.ne_none_iff_exists'.mp
  intro hn
  exact ((findFrom_eq_none hc).mp hn).2 h

theorem findKeyIndex_inj (hc : c ≠ 0) {d : ℕ} (hd : d ≠ 0) (h : findKeyIndex keys c = some i)
    (h' : findKeyIndex keys d = some i) : c = d := by
  have he := (findKeyIndex_some hc h).symm.trans (findKeyIndex_some hd h')
  exact Option.some.inj he

end Index

section Bits

variable {w : ℕ}

theorem keyStateDown_bit (s : BitVec w) (i j : ℕ) :
    (keyStateDown s i).getLsbD j = true ↔ s.getLsbD j = true ∨ i = j ∧ j < w := by
  simp only [keyStateDown, BitVec.getLsbD_or, BitVec.getLsbD_twoPow, Bool.or_eq_true,
    Bool.and_eq_true, decide_eq_true_eq]
  constructor
  · rintro (h | ⟨hi, rfl⟩)
    · exact Or.inl h
    · exact Or.inr ⟨rfl, hi⟩
  · rintro (h | ⟨rfl, hi⟩)
    · exact Or.inl h
    · exact Or.inr ⟨hi, rfl⟩

theorem keyStateUp_bit (s : BitVec w) (i j : ℕ) :
    (keyStateUp s i).getLsbD j = true ↔ s.getLsbD j = true ∧ i ≠ j := by
  rw [keyStateUp, BitVec.getLsbD_and, BitVec.getLsbD_not, BitVec.getLsbD_twoPow]
  constructor
  · intro h
    obtain ⟨hs, hn⟩ := Bool.and_eq_true_iff.mp h
    refine ⟨hs, ?_⟩
    rintro rfl
    simp [BitVec.lt_of_getLsbD hs] at hn
  · rintro ⟨hs, hij⟩
    simp [hs, hij, BitVec.lt_of_getLsbD hs]

theorem allComboKeysAreDown_iff {s : BitVec w} {n : ℕ} :
    allComboKeysAreDown s n ↔ n ≤ w ∧ ∀ j, s.getLsbD j = true ↔ j < n := by
  have hbit : ∀ j, (2 ^ n - 1).testBit j = decide (j < n) := by
    intro j
    exact Nat.testBit_two_pow_sub_one n j
  constructor
  · intro h
    have hs := s.isLt
    rw [← h] at hs
    refine ⟨?_, ?_⟩
    · by_contra hn
      have := Nat.pow_lt_pow_right (show 1 < 2 by decide) (Nat.lt_of_not_le hn)
      omega
    · intro j
      rw [BitVec.getLsbD, ← h, hbit]
      exact decide_eq_true_iff
  · rintro ⟨-, h⟩
    apply Nat.eq_of_testBit_eq
    intro j
    rw [hbit, Bool.eq_iff_iff]
    exact decide_eq_true_iff.trans (h j).symm

end Bits

/-- The keycodes of the records are not `KC_NO`, which is taken for `COMBO_END`. -/
def Coded (buf : List (QueuedRecord α)) : Prop := ∀ q ∈ buf, q.record.keycode ≠ 0

/-- The buffer has a record for every key of the combo, and the state a bit. -/
def Covers (keys : List ℕ) (w : ℕ) (buf : List (QueuedRecord α)) : Prop :=
  keys.length ≤ w ∧ ∀ i < keys.length, ∃ q ∈ buf, findKeyIndex keys q.record.keycode = some i

/-- The presses in a buffer that no combo has taken. -/
def livePresses (buf : List (QueuedRecord α)) : List (Record α) :=
  (buf.filter fun q => q.kind = .key).map QueuedRecord.record

section Loop

variable {idx w : ℕ} {keys : List ℕ} {st : BitVec w} {buf : List (QueuedRecord α)}

@[simp] theorem livePresses_cons (q : QueuedRecord α) (buf : List (QueuedRecord α)) :
    livePresses (q :: buf) =
      if q.kind = .key then q.record :: livePresses buf else livePresses buf := by
  simp only [livePresses, List.filter_cons, decide_eq_true_eq]
  split_ifs <;> rfl

theorem livePresses_append (buf buf' : List (QueuedRecord α)) :
    livePresses (buf ++ buf') = livePresses buf ++ livePresses buf' := by
  simp [livePresses]

theorem Coded.tail {q : QueuedRecord α} (h : Coded (q :: buf)) : Coded buf :=
  fun p hp => h p (List.mem_cons_of_mem _ hp)

theorem applyLoop_cons_none {q : QueuedRecord α} (h : findKeyIndex keys q.record.keycode = none) :
    applyLoop idx keys st (q :: buf) = (q :: (applyLoop idx keys st buf).1,
      (applyLoop idx keys st buf).2) := by
  simp only [applyLoop, h]

theorem applyLoop_cons_full {q : QueuedRecord α} {i : ℕ}
    (h : findKeyIndex keys q.record.keycode = some i)
    (hf : allComboKeysAreDown (keyStateDown st i) keys.length) :
    applyLoop idx keys st (q :: buf) =
      ({ q with kind := .combo idx } :: buf, [q.record], true) := by
  simp only [applyLoop, h, if_pos hf]

theorem applyLoop_cons_some {q : QueuedRecord α} {i : ℕ}
    (h : findKeyIndex keys q.record.keycode = some i)
    (hf : ¬ allComboKeysAreDown (keyStateDown st i) keys.length) :
    applyLoop idx keys st (q :: buf) =
      ({ q with kind := .tick } :: (applyLoop idx keys (keyStateDown st i) buf).1,
        q.record :: (applyLoop idx keys (keyStateDown st i) buf).2.1,
        (applyLoop idx keys (keyStateDown st i) buf).2.2) := by
  simp only [applyLoop, h, if_neg hf]

theorem applyLoop_induction (keys : List ℕ)
    {P : BitVec w → List (QueuedRecord α) → Prop} (hnil : ∀ st, P st [])
    (hnone : ∀ st q buf, findKeyIndex keys q.record.keycode = none → P st buf → P st (q :: buf))
    (hfull : ∀ st q buf i, findKeyIndex keys q.record.keycode = some i →
      allComboKeysAreDown (keyStateDown st i) keys.length → P st (q :: buf))
    (hsome : ∀ st q buf i, findKeyIndex keys q.record.keycode = some i →
      ¬ allComboKeysAreDown (keyStateDown st i) keys.length → P (keyStateDown st i) buf →
      P st (q :: buf)) (st : BitVec w) (buf : List (QueuedRecord α)) : P st buf := by
  induction buf generalizing st with
  | nil => exact hnil st
  | cons q buf ih =>
    rcases hq : findKeyIndex keys q.record.keycode with _ | i
    · exact hnone st q buf hq (ih st)
    · by_cases hf : allComboKeysAreDown (keyStateDown st i) keys.length
      · exact hfull st q buf i hq hf
      · exact hsome st q buf i hq hf (ih _)

/-- The loop finds the last key exactly when every key that has no bit yet has a record. -/
theorem applyLoop_done (hc : Coded buf) (hst : ¬ allComboKeysAreDown st keys.length)
    (hlt : ∀ j, st.getLsbD j = true → j < keys.length) :
    (applyLoop idx keys st buf).2.2 = true ↔ keys.length ≤ w ∧ ∀ i < keys.length,
      st.getLsbD i = true ∨ ∃ q ∈ buf, findKeyIndex keys q.record.keycode = some i := by
  induction st, buf using applyLoop_induction keys with
  | hnil st =>
    simp only [applyLoop, Bool.false_eq_true, false_iff]
    rintro ⟨hw, hall⟩
    refine hst (allComboKeysAreDown_iff.mpr ⟨hw, fun j => ⟨hlt j, fun hj => ?_⟩⟩)
    simpa using hall j hj
  | hnone st q buf hq ih =>
    rw [applyLoop_cons_none hq, ih hc.tail hst hlt]
    simp [hq]
  | hfull st q buf i hq hf =>
    rw [applyLoop_cons_full hq hf]
    obtain ⟨hw, hbit⟩ := allComboKeysAreDown_iff.mp hf
    simp only [true_iff]
    refine ⟨hw, fun j hj => ?_⟩
    rcases (keyStateDown_bit st i j).mp ((hbit j).mpr hj) with hs | ⟨rfl, -⟩
    · exact Or.inl hs
    · exact Or.inr ⟨q, List.mem_cons_self, hq⟩
  | hsome st q buf i hq hf ih =>
    have hi := findKeyIndex_lt (hc q List.mem_cons_self) hq
    rw [applyLoop_cons_some hq hf, ih hc.tail hf ?_]
    · refine and_congr_right fun hw => forall₂_congr fun j hj => ?_
      rw [keyStateDown_bit]
      constructor
      · rintro ((hs | ⟨rfl, -⟩) | ⟨p, hp, hpi⟩)
        · exact Or.inl hs
        · exact Or.inr ⟨q, List.mem_cons_self, hq⟩
        · exact Or.inr ⟨p, List.mem_cons_of_mem _ hp, hpi⟩
      · rintro (hs | ⟨p, hp, hpi⟩)
        · exact Or.inl (Or.inl hs)
        · rcases List.mem_cons.mp hp with rfl | hp
          · rw [hq] at hpi
            exact Or.inl (Or.inr ⟨Option.some.inj hpi, by omega⟩)
          · exact Or.inr ⟨p, hp, hpi⟩
    · intro j hj
      rcases (keyStateDown_bit st i j).mp hj with hs | ⟨rfl, -⟩
      · exact hlt j hs
      · exact hi

theorem applyLoop_zero_done (hk : keys ≠ []) (hc : Coded buf) :
    (applyLoop idx keys (0 : BitVec w) buf).2.2 = true ↔ Covers keys w buf := by
  have hpos := List.length_pos_iff.mpr hk
  rw [applyLoop_done hc ?_ (by simp)]
  · simp [Covers]
  · intro hf
    have h0 := ((allComboKeysAreDown_iff.mp hf).2 0).mpr hpos
    simp at h0

theorem applyLoop_records (idx : ℕ) (keys : List ℕ) (st : BitVec w) (buf : List (QueuedRecord α)) :
    (applyLoop idx keys st buf).1.map QueuedRecord.record = buf.map QueuedRecord.record := by
  induction st, buf using applyLoop_induction keys with
  | hnil st => rfl
  | hnone st q buf hq ih => rw [applyLoop_cons_none hq, List.map_cons, ih, List.map_cons]
  | hfull st q buf i hq hf => rw [applyLoop_cons_full hq hf, List.map_cons, List.map_cons]
  | hsome st q buf i hq hf ih =>
    rw [applyLoop_cons_some hq hf, List.map_cons, List.map_cons, ih]

theorem applyLoop_mem (idx : ℕ) (keys : List ℕ) (st : BitVec w) (buf : List (QueuedRecord α)) :
    ∀ q ∈ (applyLoop idx keys st buf).1,
      q ∈ buf ∨ ∃ i, findKeyIndex keys q.record.keycode = some i := by
  induction st, buf using applyLoop_induction keys with
  | hnil st => simp [applyLoop]
  | hnone st q buf hq ih =>
    rw [applyLoop_cons_none hq]
    intro p hp
    rcases List.mem_cons.mp hp with rfl | hp
    · exact Or.inl List.mem_cons_self
    · exact (ih p hp).imp_left (List.mem_cons_of_mem _)
  | hfull st q buf i hq hf =>
    rw [applyLoop_cons_full hq hf]
    intro p hp
    rcases List.mem_cons.mp hp with rfl | hp
    · exact Or.inr ⟨i, hq⟩
    · exact Or.inl (List.mem_cons_of_mem _ hp)
  | hsome st q buf i hq hf ih =>
    rw [applyLoop_cons_some hq hf]
    intro p hp
    rcases List.mem_cons.mp hp with rfl | hp
    · exact Or.inr ⟨i, hq⟩
    · exact (ih p hp).imp_left (List.mem_cons_of_mem _)

/-- What is taken is taken from the live presses, when the combo's records are live. -/
theorem applyLoop_perm (idx : ℕ) (keys : List ℕ) (st : BitVec w) (buf : List (QueuedRecord α))
    (h : ∀ q ∈ buf, ∀ i, findKeyIndex keys q.record.keycode = some i → q.kind = .key) :
    (livePresses buf).Perm
      ((applyLoop idx keys st buf).2.1 ++ livePresses (applyLoop idx keys st buf).1) := by
  induction st, buf using applyLoop_induction keys with
  | hnil st => exact .refl _
  | hnone st q buf hq ih =>
    have ih := ih fun p hp => h p (List.mem_cons_of_mem _ hp)
    rw [applyLoop_cons_none hq, livePresses_cons, livePresses_cons]
    split_ifs
    · exact (ih.cons _).trans List.perm_middle.symm
    · exact ih
  | hfull st q buf i hq hf =>
    rw [applyLoop_cons_full hq hf, livePresses_cons, livePresses_cons,
      if_pos (h q List.mem_cons_self i hq)]
    exact .refl _
  | hsome st q buf i hq hf ih =>
    have ih := ih fun p hp => h p (List.mem_cons_of_mem _ hp)
    rw [applyLoop_cons_some hq hf, livePresses_cons, livePresses_cons,
      if_pos (h q List.mem_cons_self i hq)]
    exact ih.cons _

theorem applyLoop_taken (idx : ℕ) (keys : List ℕ) (st : BitVec w) (buf : List (QueuedRecord α)) :
    ∀ r ∈ (applyLoop idx keys st buf).2.1,
      (∃ q ∈ buf, q.record = r) ∧ ∃ i, findKeyIndex keys r.keycode = some i := by
  induction st, buf using applyLoop_induction keys with
  | hnil st => simp [applyLoop]
  | hnone st q buf hq ih =>
    rw [applyLoop_cons_none hq]
    intro r hr
    obtain ⟨⟨p, hp, hpr⟩, hi⟩ := ih r hr
    exact ⟨⟨p, List.mem_cons_of_mem _ hp, hpr⟩, hi⟩
  | hfull st q buf i hq hf =>
    rw [applyLoop_cons_full hq hf]
    intro r hr
    rw [List.mem_singleton.mp hr]
    exact ⟨⟨q, List.mem_cons_self, rfl⟩, i, hq⟩
  | hsome st q buf i hq hf ih =>
    rw [applyLoop_cons_some hq hf]
    intro r hr
    rcases List.mem_cons.mp hr with rfl | hr
    · exact ⟨⟨q, List.mem_cons_self, rfl⟩, i, hq⟩
    · obtain ⟨⟨p, hp, hpr⟩, hi⟩ := ih r hr
      exact ⟨⟨p, List.mem_cons_of_mem _ hp, hpr⟩, hi⟩

end Loop

end Qmk.Combos
