import Mathlib.Data.Finset.Card
import Qmk.Oneshot.Mods
import Qmk.RingReport
import Qmk.Sweep

/-! # Keyboard reports

The keys of a report, as six bytes or, with `NKRO_ENABLE` and n-key rollover on, as a bit for each
keycode. Six places are a set of at most six keys, which drops the seventh; the bits are the set
itself. The two agree on the runs in which no seventh key comes down.
-/

namespace Qmk.Keyboard

open Oneshot.Mods (reportKeys addKeyByte delKeyByte IsKeyPressed hasAnykey)

section Bits

/-- `nkro_report->bits`, of `NKRO_REPORT_BITS` bytes. -/
abbrev Bits (n : ℕ) := Fin n → BitVec 8

variable {n : ℕ}

def addKeyBit (code : BitVec 8) (bits : Bits n) : Bits n :=
  if h : code.toNat >>> 3 < n then
    Function.update bits ⟨code.toNat >>> 3, h⟩
      (bits ⟨code.toNat >>> 3, h⟩ ||| bitMask 8 (code.toNat &&& 7))
  else bits

def delKeyBit (code : BitVec 8) (bits : Bits n) : Bits n :=
  if h : code.toNat >>> 3 < n then
    Function.update bits ⟨code.toNat >>> 3, h⟩
      (bits ⟨code.toNat >>> 3, h⟩ &&& ~~~bitMask 8 (code.toNat &&& 7))
  else bits

/-- `is_key_pressed`, with n-key rollover. -/
def IsBitPressed (code : BitVec 8) (bits : Bits n) : Prop :=
  code ≠ 0 ∧ ∃ h : code.toNat >>> 3 < n,
    bits ⟨code.toNat >>> 3, h⟩ &&& bitMask 8 (code.toNat &&& 7) ≠ 0

instance (code : BitVec 8) (bits : Bits n) : Decidable (IsBitPressed code bits) :=
  inferInstanceAs (Decidable (_ ∧ _))

def bitAt (bits : Bits n) (code : BitVec 8) : Bool :=
  if h : code.toNat / 8 < n then (bits ⟨code.toNat / 8, h⟩).getLsbD (code.toNat % 8) else false

theorem shift_eq_div (code : BitVec 8) : code.toNat >>> 3 = code.toNat / 8 :=
  Nat.shiftRight_eq_div_pow ..

theorem and_eq_mod (code : BitVec 8) : code.toNat &&& 7 = code.toNat % 8 :=
  Nat.and_two_pow_sub_one_eq_mod _ 3

theorem code_ext {code other : BitVec 8} (hdiv : other.toNat / 8 = code.toNat / 8) :
    other.toNat % 8 = code.toNat % 8 ↔ other = code := by
  constructor
  · intro hmod
    exact BitVec.eq_of_toNat_eq (by omega)
  · rintro rfl
    rfl

theorem isBitPressed_iff {code : BitVec 8} {bits : Bits n} :
    IsBitPressed code bits ↔ code ≠ 0 ∧ bitAt bits code = true := by
  have hbit : code.toNat % 8 < 8 := Nat.mod_lt _ (by decide)
  simp only [IsBitPressed, bitAt, shift_eq_div, and_eq_mod, and_bitMask_ne_zero hbit]
  by_cases h : code.toNat / 8 < n <;> simp [h]

theorem bitAt_update {code other : BitVec 8} {bits : Bits n} {byte : BitVec 8} {p : Bool}
    (h : code.toNat / 8 < n) (hbyte : ∀ j, byte.getLsbD j =
      if j = code.toNat % 8 then p else (bits ⟨code.toNat / 8, h⟩).getLsbD j) :
    bitAt (Function.update bits ⟨code.toNat / 8, h⟩ byte) other =
      if other = code then p else bitAt bits other := by
  unfold bitAt
  by_cases hdiv : other.toNat / 8 = code.toNat / 8
  · have hlt : other.toNat / 8 < n := hdiv ▸ h
    have hidx : (⟨other.toNat / 8, hlt⟩ : Fin n) = ⟨code.toNat / 8, h⟩ := Fin.ext hdiv
    rw [dif_pos hlt, dif_pos hlt, hidx, Function.update_self, hbyte]
    simp only [code_ext hdiv]
  · have hne : other ≠ code := fun heq => hdiv (heq ▸ rfl)
    rw [if_neg hne]
    by_cases hlt : other.toNat / 8 < n
    · have hidx : (⟨other.toNat / 8, hlt⟩ : Fin n) ≠ ⟨code.toNat / 8, h⟩ :=
        fun heq => hdiv (congrArg Fin.val heq)
      rw [dif_pos hlt, dif_pos hlt, Function.update_of_ne hidx]
    · rw [dif_neg hlt, dif_neg hlt]

theorem bitAt_addKeyBit (code other : BitVec 8) (bits : Bits n) :
    bitAt (addKeyBit code bits) other =
      (bitAt bits other || decide (other = code ∧ code.toNat / 8 < n)) := by
  unfold addKeyBit
  simp only [shift_eq_div, and_eq_mod]
  by_cases h : code.toNat / 8 < n
  · have hmod : code.toNat % 8 < 8 := Nat.mod_lt _ (by decide)
    rw [dif_pos h, bitAt_update h (p := true)]
    · by_cases hother : other = code <;> simp [hother, h]
    · intro j
      rw [BitVec.getLsbD_or, getLsbD_bitMask hmod]
      by_cases hj : j = code.toNat % 8 <;> simp [hj]
  · simp [h]

theorem bitAt_delKeyBit (code other : BitVec 8) (bits : Bits n) :
    bitAt (delKeyBit code bits) other = (bitAt bits other && decide (other ≠ code)) := by
  unfold delKeyBit
  simp only [shift_eq_div, and_eq_mod]
  by_cases h : code.toNat / 8 < n
  · have hmod : code.toNat % 8 < 8 := Nat.mod_lt _ (by decide)
    rw [dif_pos h, bitAt_update h (p := false)]
    · by_cases hother : other = code <;> simp [hother]
    · intro j
      rw [BitVec.getLsbD_and, BitVec.getLsbD_not, getLsbD_bitMask hmod]
      by_cases hj : j = code.toNat % 8
      · simp [hj]
      · by_cases hlt : j < 8
        · simp [hj, hlt]
        · simp [hj, hlt, BitVec.getLsbD_of_ge _ j (Nat.le_of_not_lt hlt)]
  · have hbit : bitAt bits code = false := by rw [bitAt, dif_neg h]
    rw [dif_neg h]
    by_cases hother : other = code <;> simp [hother, hbit]

end Bits

section Places

variable {keys : Fin reportKeys → BitVec 8} {code other : BitVec 8}

/-- No key has two places. -/
def Distinct (keys : Fin reportKeys → BitVec 8) : Prop :=
  ∀ i j, keys i = keys j → keys i ≠ 0 → i = j

theorem isKeyPressed_delKeyByte :
    IsKeyPressed other (delKeyByte code keys) ↔ IsKeyPressed other keys ∧ other ≠ code := by
  unfold IsKeyPressed delKeyByte
  constructor
  · rintro ⟨hzero, i, hi⟩
    split_ifs at hi with hcode
    · exact absurd hi.symm hzero
    · exact ⟨⟨hzero, i, hi⟩, hi ▸ hcode⟩
  · rintro ⟨⟨hzero, i, rfl⟩, hne⟩
    exact ⟨hzero, i, if_neg hne⟩

theorem distinct_delKeyByte (h : Distinct keys) : Distinct (delKeyByte code keys) := by
  intro i j hij hzero
  simp only [delKeyByte] at hij hzero
  by_cases hi : keys i = code
  · exact absurd (if_pos hi) hzero
  · rw [if_neg hi] at hij hzero
    by_cases hj : keys j = code
    · exact absurd (hij.trans (if_pos hj)) hzero
    · exact h i j (hij.trans (if_neg hj)) hzero

theorem addKeyByte_cases (code : BitVec 8) (keys : Fin reportKeys → BitVec 8) :
    ((∃ i, keys i = code) ∧ addKeyByte code keys = keys) ∨
    ((∀ i, keys i ≠ code) ∧ (∀ i, keys i ≠ 0) ∧ addKeyByte code keys = keys) ∨
    ∃ empty, (∀ i, keys i ≠ code) ∧ keys empty = 0 ∧
      addKeyByte code keys = Function.update keys empty code := by
  unfold addKeyByte
  by_cases hthere : ∃ i, keys i = code
  · exact .inl ⟨hthere, if_pos hthere⟩
  · have hnone : ∀ i, keys i ≠ code := fun i hi => hthere ⟨i, hi⟩
    rw [if_neg hthere]
    cases hfind : (List.finRange reportKeys).find? fun i => keys i = 0 with
    | none =>
      refine .inr (.inl ⟨hnone, fun i => ?_, rfl⟩)
      simpa using List.find?_eq_none.mp hfind i (List.mem_finRange i)
    | some empty =>
      refine .inr (.inr ⟨empty, hnone, ?_, rfl⟩)
      simpa using List.find?_some hfind

theorem distinct_addKeyByte (h : Distinct keys) : Distinct (addKeyByte code keys) := by
  obtain ⟨-, heq⟩ | ⟨-, -, heq⟩ | ⟨empty, hnone, hempty, heq⟩ := addKeyByte_cases code keys
  · rwa [heq]
  · rwa [heq]
  · rw [heq]
    intro i j hij hzero
    by_cases hi : i = empty <;> by_cases hj : j = empty
    · rw [hi, hj]
    · rw [hi, Function.update_self, Function.update_of_ne hj] at hij
      exact absurd hij.symm (hnone j)
    · rw [hj, Function.update_self, Function.update_of_ne hi] at hij
      exact absurd hij (hnone i)
    · rw [Function.update_of_ne hi, Function.update_of_ne hj] at hij
      rw [Function.update_of_ne hi] at hzero
      exact h i j hij hzero

theorem isKeyPressed_addKeyByte (hcode : code ≠ 0) :
    IsKeyPressed other (addKeyByte code keys) ↔ IsKeyPressed other keys ∨
      other = code ∧ (IsKeyPressed code keys ∨ ∃ i, keys i = 0) := by
  obtain ⟨hthere, heq⟩ | ⟨hnone, hfull, heq⟩ | ⟨empty, hnone, hempty, heq⟩ :=
    addKeyByte_cases code keys
  · rw [heq]
    constructor
    · exact .inl
    · rintro (h | ⟨rfl, -⟩)
      · exact h
      · exact ⟨hcode, hthere⟩
  · rw [heq]
    constructor
    · exact .inl
    · rintro (h | ⟨rfl, ⟨-, i, hi⟩ | ⟨i, hi⟩⟩)
      · exact h
      · exact absurd hi (hnone i)
      · exact absurd hi (hfull i)
  · rw [heq]
    unfold IsKeyPressed
    constructor
    · rintro ⟨hzero, i, hi⟩
      by_cases hplace : i = empty
      · rw [hplace, Function.update_self] at hi
        exact .inr ⟨hi.symm, .inr ⟨empty, hempty⟩⟩
      · rw [Function.update_of_ne hplace] at hi
        exact .inl ⟨hzero, i, hi⟩
    · rintro (⟨hzero, i, hi⟩ | ⟨rfl, -⟩)
      · have hplace : i ≠ empty := fun h => hzero (by rw [← hi, h, hempty])
        exact ⟨hzero, i, by rw [Function.update_of_ne hplace, hi]⟩
      · exact ⟨hcode, empty, Function.update_self ..⟩

end Places

section Runs

/-- A keycode other than `KC_NO`. -/
abbrev Code := {code : BitVec 8 // code ≠ 0}

/-- The calls that change the keys of a report: `add_key`, `del_key` and `clear_keys`. -/
inductive Op
  | add (code : Code)
  | del (code : Code)
  | clear
  deriving DecidableEq

def stepKeys (keys : Fin reportKeys → BitVec 8) : Op → Fin reportKeys → BitVec 8
  | .add code => addKeyByte code keys
  | .del code => delKeyByte code keys
  | .clear => fun _ => 0

def runKeys (ops : List Op) : Fin reportKeys → BitVec 8 := ops.foldl stepKeys fun _ => 0

def stepBits {n : ℕ} (bits : Bits n) : Op → Bits n
  | .add code => addKeyBit code bits
  | .del code => delKeyBit code bits
  | .clear => fun _ => 0

def runBits (n : ℕ) (ops : List Op) : Bits n := ops.foldl stepBits fun _ => 0

def stepSet (s : Finset Code) : Op → Finset Code
  | .add code => insert code s
  | .del code => s.erase code
  | .clear => ∅

def runSet (ops : List Op) : Finset Code := ops.foldl stepSet ∅

/-- The calls on a set of at most `limit` keys, in which a key that does not fit is dropped. -/
def stepBounded (limit : ℕ) (s : Finset Code) : Op → Finset Code
  | .add code => if code ∈ s ∨ s.card < limit then insert code s else s
  | .del code => s.erase code
  | .clear => ∅

def runBounded (limit : ℕ) (ops : List Op) : Finset Code := ops.foldl (stepBounded limit) ∅

variable {keys : Fin reportKeys → BitVec 8} {s : Finset Code} {ops : List Op} {limit : ℕ}

structure Holds (keys : Fin reportKeys → BitVec 8) (s : Finset Code) : Prop where
  mem : ∀ code : Code, IsKeyPressed code keys ↔ code ∈ s
  distinct : Distinct keys

theorem Holds.image (h : Holds keys s) :
    (Finset.univ.filter fun i => keys i ≠ 0).image keys = s.image Subtype.val := by
  ext code
  simp only [Finset.mem_image, Finset.mem_filter, Finset.mem_univ, true_and]
  constructor
  · rintro ⟨i, hi, rfl⟩
    exact ⟨⟨keys i, hi⟩, (h.mem ⟨keys i, hi⟩).mp ⟨hi, i, rfl⟩, rfl⟩
  · rintro ⟨code, hcode, rfl⟩
    obtain ⟨hzero, i, hi⟩ := (h.mem code).mpr hcode
    exact ⟨i, hi ▸ hzero, hi⟩

theorem Holds.card (h : Holds keys s) : hasAnykey keys = s.card := by
  have hinj : Set.InjOn keys (Finset.univ.filter fun i => keys i ≠ 0 : Finset (Fin reportKeys)) :=
    fun i hi j _ hij => h.distinct i j hij (Finset.mem_filter.mp hi).2
  rw [← Finset.card_image_of_injective s Subtype.val_injective, ← h.image,
    Finset.card_image_of_injOn hinj, hasAnykey, List.countP_eq_length_filter]
  rfl

theorem hasAnykey_le (keys : Fin reportKeys → BitVec 8) : hasAnykey keys ≤ reportKeys :=
  List.countP_le_length.trans_eq (List.length_finRange ..)

theorem Holds.room (h : Holds keys s) : (∃ i, keys i = 0) ↔ s.card < reportKeys := by
  have hall : (∀ i ∈ List.finRange reportKeys, decide (keys i ≠ 0) = true) ↔
      hasAnykey keys = reportKeys :=
    (List.countP_eq_length.symm).trans (by rw [List.length_finRange, hasAnykey])
  have hle := hasAnykey_le keys
  rw [← h.card, Nat.lt_iff_le_and_ne, and_iff_right hle, Ne, ← hall]
  simp

theorem holds_empty : Holds (fun _ => 0) ∅ := by
  refine ⟨fun code => ?_, fun i j _ hzero => absurd rfl hzero⟩
  simp only [Finset.notMem_empty, iff_false]
  rintro ⟨hzero, i, hi⟩
  exact hzero hi.symm

theorem Holds.step (h : Holds keys s) (op : Op) :
    Holds (stepKeys keys op) (stepBounded reportKeys s op) := by
  cases op with
  | add code =>
    refine ⟨fun other => ?_, distinct_addKeyByte h.distinct⟩
    rw [stepKeys, isKeyPressed_addKeyByte code.2, h.mem, h.mem, h.room, stepBounded,
      Subtype.coe_inj]
    by_cases hroom : code ∈ s ∨ s.card < reportKeys
    · rw [if_pos hroom, Finset.mem_insert]
      tauto
    · rw [if_neg hroom]
      tauto
  | del code =>
    refine ⟨fun other => ?_, distinct_delKeyByte h.distinct⟩
    rw [stepKeys, isKeyPressed_delKeyByte, h.mem, stepBounded, Finset.mem_erase,
      Ne, Subtype.coe_inj, and_comm]
  | clear => exact holds_empty

theorem holds_run (ops : List Op) : Holds (runKeys ops) (runBounded reportKeys ops) := by
  induction ops using List.reverseRecOn with
  | nil => exact holds_empty
  | append_singleton ops op ih =>
    rw [runKeys, runBounded, List.foldl_append, List.foldl_append]
    exact ih.step op

theorem card_runBounded_le (limit : ℕ) (ops : List Op) :
    (runBounded limit ops).card ≤ limit := by
  induction ops using List.reverseRecOn with
  | nil => exact Nat.zero_le _
  | append_singleton ops op ih =>
    rw [runBounded, List.foldl_append]
    change (stepBounded limit (runBounded limit ops) op).card ≤ limit
    cases op with
    | add code =>
      by_cases hroom : code ∈ runBounded limit ops ∨ (runBounded limit ops).card < limit
      · rw [stepBounded, if_pos hroom]
        rcases hroom with hmem | hlt
        · rwa [Finset.insert_eq_of_mem hmem]
        · exact (Finset.card_insert_le ..).trans hlt
      · rwa [stepBounded, if_neg hroom]
    | del code => exact (Finset.card_le_card (Finset.erase_subset ..)).trans ih
    | clear => exact Nat.zero_le _

/-- After any calls the six places hold a set of at most six keys, each at one place: a key that
comes while six others are there is dropped, and `has_anykey` counts the keys. -/
theorem runKeys_bounded (ops : List Op) :
    (∀ code : Code, IsKeyPressed code (runKeys ops) ↔ code ∈ runBounded reportKeys ops) ∧
      Distinct (runKeys ops) ∧ hasAnykey (runKeys ops) = (runBounded reportKeys ops).card ∧
      (runBounded reportKeys ops).card ≤ reportKeys :=
  ⟨(holds_run ops).mem, (holds_run ops).distinct, (holds_run ops).card, card_runBounded_le _ _⟩

variable {n : ℕ}

theorem bitAt_stepBits (bits : Bits n) (op : Op) (s : Finset Code)
    (h : ∀ code : Code, bitAt bits code = true ↔ code ∈ s ∧ code.val.toNat / 8 < n) (other : Code) :
    bitAt (stepBits bits op) other = true ↔ other ∈ stepSet s op ∧ other.val.toNat / 8 < n := by
  cases op with
  | add code =>
    rw [stepBits, bitAt_addKeyBit, Bool.or_eq_true, h, decide_eq_true_eq, stepSet,
      Finset.mem_insert, Subtype.coe_inj]
    constructor
    · rintro (⟨hmem, hlt⟩ | ⟨rfl, hlt⟩)
      · exact ⟨.inr hmem, hlt⟩
      · exact ⟨.inl rfl, hlt⟩
    · rintro ⟨rfl | hmem, hlt⟩
      · exact .inr ⟨rfl, hlt⟩
      · exact .inl ⟨hmem, hlt⟩
  | del code =>
    rw [stepBits, bitAt_delKeyBit, Bool.and_eq_true, h, decide_eq_true_eq, stepSet,
      Finset.mem_erase, Ne, Subtype.coe_inj]
    tauto
  | clear => simp [stepBits, stepSet, bitAt]

theorem isBitPressed_runBits (ops : List Op) (code : Code) :
    IsBitPressed code (runBits n ops) ↔ code ∈ runSet ops ∧ code.val.toNat / 8 < n := by
  rw [isBitPressed_iff, and_iff_right code.2]
  induction ops using List.reverseRecOn generalizing code with
  | nil => simp [runBits, runSet, bitAt]
  | append_singleton ops op ih =>
    rw [runBits, runSet, List.foldl_append, List.foldl_append]
    exact bitAt_stepBits _ op _ ih code

theorem add_mem_of_mem_runSet {code : Code} (hcode : code ∈ runSet ops) : .add code ∈ ops := by
  induction ops using List.reverseRecOn with
  | nil => exact absurd hcode (Finset.notMem_empty code)
  | append_singleton ops op ih =>
    rw [runSet, List.foldl_append] at hcode
    change code ∈ stepSet (runSet ops) op at hcode
    rw [List.mem_append]
    cases op with
    | add other =>
      rcases Finset.mem_insert.mp hcode with rfl | hmem
      · exact .inr List.mem_cons_self
      · exact .inl (ih hmem)
    | del other => exact .inl (ih (Finset.mem_of_mem_erase hcode))
    | clear => exact absurd hcode (Finset.notMem_empty code)

theorem runBounded_eq_runSet (hfits : ∀ ops', ops' <+: ops → (runSet ops').card ≤ limit) :
    runBounded limit ops = runSet ops := by
  induction ops using List.reverseRecOn with
  | nil => rfl
  | append_singleton ops op ih =>
    have hbefore := ih fun ops' hops' => hfits ops' (hops'.trans (List.prefix_append ..))
    have hafter := hfits _ (List.prefix_refl _)
    rw [runBounded, runSet, List.foldl_append, List.foldl_append]
    rw [runSet, List.foldl_append] at hafter
    change stepBounded limit (runBounded limit ops) op = stepSet (runSet ops) op
    change (stepSet (runSet ops) op).card ≤ limit at hafter
    rw [hbefore]
    cases op with
    | add code =>
      refine if_pos (or_iff_not_imp_left.mpr fun hnew => ?_)
      rwa [stepSet, Finset.card_insert_of_notMem hnew] at hafter
    | del code => rfl
    | clear => rfl

/-- The two forms of the report show the same keys all along if and only if there are never more
than six keys down. -/
theorem reports_agree_iff (n : ℕ) (ops : List Op)
    (hbits : ∀ code, .add code ∈ ops → code.val.toNat / 8 < n) :
    (∀ ops', ops' <+: ops → ∀ code : Code,
      IsKeyPressed code (runKeys ops') ↔ IsBitPressed code (runBits n ops')) ↔
    ∀ ops', ops' <+: ops → (runSet ops').card ≤ reportKeys := by
  have hsmall : ∀ ops', ops' <+: ops → ∀ code ∈ runSet ops', code.val.toNat / 8 < n := by
    intro ops' hops' code hcode
    exact hbits code (hops'.subset (add_mem_of_mem_runSet hcode))
  constructor
  · intro h ops' hops'
    have hsame : runBounded reportKeys ops' = runSet ops' := by
      ext code
      rw [← (holds_run ops').mem, h ops' hops', isBitPressed_runBits]
      exact and_iff_left_of_imp (hsmall ops' hops' code)
    rw [← hsame]
    exact card_runBounded_le _ _
  · intro h ops' hops' code
    rw [(holds_run ops').mem, isBitPressed_runBits,
      runBounded_eq_runSet fun ops'' hops'' => h ops'' (hops''.trans hops')]
    exact (and_iff_left_of_imp (hsmall ops' hops' code)).symm

/-- The seventh key is shown by the bits only. -/
theorem reports_agree_iff_seven :
    let key (code : BitVec 8) (h : code ≠ 0) : Op := .add ⟨code, h⟩
    let ops := [key 4 (by decide), key 5 (by decide), key 6 (by decide), key 7 (by decide),
      key 8 (by decide), key 9 (by decide), key 10 (by decide)]
    (∀ ops', ops' <+: ops → ∀ code : Code,
      IsKeyPressed code (runKeys ops') ↔ IsBitPressed code (runBits 30 ops')) ↔
    ∀ ops', ops' <+: ops → (runSet ops').card ≤ reportKeys :=
  reports_agree_iff 30 _ (by simp)

end Runs

section Forms

/-- What the actions use of a report: the keys, the calls that change them, and what is sent of
them. A call changes only its own key, though a key may be lost to make room. -/
structure Form where
  Keys : Type
  Sent : Type
  decEq : DecidableEq Sent
  start : Keys
  add : Code → Keys → Keys
  del : Code → Keys → Keys
  sent : Keys → Sent
  shows : Code → Sent → Bool
  shows_start : ∀ code, shows code (sent start) = false
  shows_add : ∀ code other keys, shows other (sent (add code keys)) = true →
    shows other (sent keys) = true ∨ other = code
  shows_del : ∀ code other keys, shows other (sent (del code keys)) = true →
    shows other (sent keys) = true ∧ other ≠ code

instance (f : Form) : DecidableEq f.Sent := f.decEq

def Form.sixKeys : Form where
  Keys := Fin reportKeys → BitVec 8
  Sent := Fin reportKeys → BitVec 8
  decEq := inferInstance
  start := fun _ => 0
  add code := addKeyByte code
  del code := delKeyByte code
  sent := id
  shows code keys := decide (IsKeyPressed code keys)
  shows_start code := by simpa using fun h => mt (holds_empty.mem code).mp (Finset.notMem_empty _) h
  shows_add code other keys h := by
    rw [decide_eq_true_eq, id_eq, isKeyPressed_addKeyByte code.2] at h
    rw [decide_eq_true_eq]
    exact h.imp_right fun h => Subtype.ext h.1
  shows_del code other keys h := by
    rw [decide_eq_true_eq, id_eq, isKeyPressed_delKeyByte] at h
    rw [decide_eq_true_eq]
    exact h.imp_right fun h heq => h (congrArg Subtype.val heq)

/-- A bit for each keycode, in `n` bytes. -/
def Form.nKeys (n : ℕ) : Form where
  Keys := Bits n
  Sent := Bits n
  decEq := inferInstance
  start := fun _ => 0
  add code := addKeyBit code
  del code := delKeyBit code
  sent := id
  shows code bits := bitAt bits code
  shows_start code := by simp [bitAt]
  shows_add code other bits h := by
    rw [id_eq, bitAt_addKeyBit, Bool.or_eq_true, decide_eq_true_eq] at h
    exact h.imp_right fun h => Subtype.ext h.1
  shows_del code other bits h := by
    rw [id_eq, bitAt_delKeyBit, Bool.and_eq_true, decide_eq_true_eq] at h
    exact h.imp_right fun h heq => h (congrArg Subtype.val heq)

theorem mem_queue_add {n : ℕ} {q : RingReport.KeyQueue RingReport.Key n}
    {key other : RingReport.Key} (h : other ∈ (q.add key).keys) : other ∈ q.keys ∨ other = key := by
  unfold RingReport.KeyQueue.add at h
  split_ifs at h with hheld hroom
  · exact .inl h
  · simpa using h
  · simpa using List.mem_of_mem_tail h

def ringKey (code : Code) : RingReport.Key :=
  ⟨.ofBitVec code, fun h => code.2 (congrArg UInt8.toBitVec h)⟩

theorem ringKey_inj {code other : Code} (h : ringKey other = ringKey code) : other = code :=
  Subtype.ext (congrArg (fun key : RingReport.Key => key.val.toBitVec) h)

theorem reportKeys_pos : 0 < RingReport.reportKeys := Nat.succ_pos 5

/-- The ring of six places, with `RING_BUFFERED_6KRO_REPORT_ENABLE`. Its states are those that hold
a queue of keys. -/
def Form.ring : Form where
  Keys := {s : RingReport.State // ∃ q, RingReport.Refines s q}
  Sent := RingReport.Place → UInt8
  decEq := inferInstance
  start :=
    ⟨⟨fun _ => 0, ⟨0, reportKeys_pos⟩, ⟨0, reportKeys_pos⟩, 0⟩, _, RingReport.refines_start⟩
  add code s := ⟨RingReport.addKeyByte (ringKey code) s, s.2.elim fun _ h => ⟨_, h.add _⟩⟩
  del code s := ⟨RingReport.delKeyByte (ringKey code) s, s.2.elim fun _ h => ⟨_, h.del _⟩⟩
  sent s := s.val.keys
  shows code keys :=
    RingReport.isKeyPressed (ringKey code) ⟨keys, ⟨0, reportKeys_pos⟩, ⟨0, reportKeys_pos⟩, 0⟩
  shows_start code := by
    have hkeys := RingReport.refines_start.shows.keys (ringKey code)
    exact Bool.eq_false_iff.mpr fun h => absurd (hkeys.mp h) List.not_mem_nil
  shows_add code other s h := by
    obtain ⟨s, q, hq⟩ := s
    have hmem := ((hq.add (ringKey code)).shows.keys (ringKey other)).mp h
    refine (mem_queue_add hmem).imp (hq.shows.keys _).mpr ringKey_inj
  shows_del code other s h := by
    obtain ⟨s, q, hq⟩ := s
    have hmem := ((hq.del (ringKey code)).shows.keys (ringKey other)).mp h
    obtain ⟨hmem, hne⟩ := List.mem_filter.mp hmem
    refine ⟨(hq.shows.keys _).mpr hmem, ?_⟩
    rintro rfl
    simp at hne

end Forms

end Qmk.Keyboard
