import Mathlib.Algebra.CharP.Two
import Mathlib.Algebra.Field.ZMod
import Mathlib.Algebra.Polynomial.RingDivision
import Mathlib.Data.List.GetD
import Mathlib.RingTheory.Coprime.Lemmas
import Mathlib.Tactic.LinearCombination

/-! # Polynomials of bits

Bits are the coefficients of a polynomial over the field with two elements. A shift register with
feedback keeps the remainder of the bits that went through it. Two messages with one remainder
differ by a multiple of the modulus, and such a multiple is not shorter than the modulus.
-/

namespace Qmk.Gf2

open Polynomial

section Bits

noncomputable def ofBits (bs : List Bool) : (ZMod 2)[X] :=
  bs.foldl (fun p b => X * p + if b then 1 else 0) 0

@[simp] theorem ofBits_nil : ofBits [] = 0 := rfl

theorem ofBits_concat (bs : List Bool) (b : Bool) :
    ofBits (bs ++ [b]) = X * ofBits bs + if b then 1 else 0 := by
  rw [ofBits, List.foldl_append]
  rfl

theorem ofBits_append (as bs : List Bool) :
    ofBits (as ++ bs) = X ^ bs.length * ofBits as + ofBits bs := by
  induction bs using List.reverseRecOn with
  | nil => simp
  | append_singleton bs b ih =>
    rw [← List.append_assoc, ofBits_concat, ofBits_concat, ih, List.length_append]
    simp only [List.length_singleton]
    ring

theorem coeff_ofBits (bs : List Bool) (i : ℕ) :
    (ofBits bs).coeff i = if bs.reverse.getD i false then 1 else 0 := by
  induction bs using List.reverseRecOn generalizing i with
  | nil => simp
  | append_singleton bs b ih =>
    rw [ofBits_concat, List.reverse_concat, coeff_add]
    cases i with
    | zero =>
      rw [coeff_X_mul_zero, zero_add, List.getD_cons_zero]
      cases b <;> simp
    | succ i =>
      rw [coeff_X_mul, ih, List.getD_cons_succ]
      cases b <;> simp [coeff_one]

theorem degree_ofBits_lt (bs : List Bool) : (ofBits bs).degree < bs.length := by
  rw [degree_lt_iff_coeff_zero]
  intro i hi
  rw [coeff_ofBits, List.getD_eq_default _ _ (by rwa [List.length_reverse])]
  rfl

theorem ofBits_inj {as bs : List Bool} (hlength : as.length = bs.length) :
    ofBits as = ofBits bs ↔ as = bs := by
  constructor
  · intro h
    apply List.reverse_injective
    apply List.ext_getElem
    · simpa using hlength
    · intro i hi hi'
      have hcoeff : (ofBits as).coeff i = (ofBits bs).coeff i := by rw [h]
      rw [coeff_ofBits, coeff_ofBits, List.getD_eq_getElem _ _ hi, List.getD_eq_getElem _ _ hi']
        at hcoeff
      cases ha : as.reverse[i] <;> cases hb : bs.reverse[i] <;> simp [ha, hb] at hcoeff <;> rfl
  · rintro rfl
    rfl

end Bits

section Words

variable {w : ℕ}

def bits (x : BitVec w) : List Bool := (List.range w).map x.getMsbD

@[simp] theorem length_bits (x : BitVec w) : (bits x).length = w := by
  rw [bits, List.length_map, List.length_range]

noncomputable def toPoly (x : BitVec w) : (ZMod 2)[X] := ofBits (bits x)

theorem coeff_toPoly (x : BitVec w) (i : ℕ) :
    (toPoly x).coeff i = if x.getLsbD i then 1 else 0 := by
  rw [toPoly, coeff_ofBits]
  by_cases hi : i < w
  · have hbit : (bits x).reverse.getD i false = x.getMsbD (w - 1 - i) := by
      rw [List.getD_eq_getElem _ _ (by simpa using hi), List.getElem_reverse]
      simp [bits]
    rw [hbit, BitVec.getMsbD_eq_getLsbD, decide_eq_true (show w - 1 - i < w by omega),
      Bool.true_and, show w - 1 - (w - 1 - i) = i by omega]
  · rw [List.getD_eq_default _ _ (by simpa using hi), BitVec.getLsbD_of_ge x i (by omega)]

theorem degree_toPoly_lt (x : BitVec w) : (toPoly x).degree < w := by
  have h := degree_ofBits_lt (bits x)
  rwa [length_bits] at h

theorem toPoly_injective : Function.Injective (toPoly (w := w)) := by
  intro x y h
  apply BitVec.eq_of_getMsbD_eq
  intro i hi
  have hbits := (ofBits_inj (by simp)).mp h
  have hget := congrArg (fun bs => bs[i]?) hbits
  simpa [bits, List.getElem?_range hi] using hget

theorem toPoly_xor (x y : BitVec w) : toPoly (x ^^^ y) = toPoly x + toPoly y := by
  ext i
  rw [coeff_add, coeff_toPoly, coeff_toPoly, coeff_toPoly, BitVec.getLsbD_xor]
  cases x.getLsbD i <;> cases y.getLsbD i <;> decide

theorem X_mul_toPoly (x : BitVec w) :
    X * toPoly x = toPoly (x <<< 1) + if x.msb then X ^ w else 0 := by
  have hmsb : ∀ k, (if x.msb then (X : (ZMod 2)[X]) ^ w else 0).coeff k =
      if x.msb ∧ k = w then 1 else 0 := by
    intro k
    cases x.msb <;> simp [coeff_X_pow]
  ext i
  rw [coeff_add, coeff_toPoly, hmsb, BitVec.getLsbD_shiftLeft]
  cases i with
  | zero =>
    have hnot : ¬ (x.msb ∧ 0 = w) := by
      rintro ⟨hx, rfl⟩
      simp [BitVec.msb] at hx
    rw [coeff_X_mul_zero, if_neg hnot]
    simp
  | succ i =>
    rw [coeff_X_mul, coeff_toPoly, BitVec.msb_eq_getLsbD_last, Nat.add_sub_cancel]
    rcases Nat.lt_trichotomy (i + 1) w with hi | hi | hi
    · simp [hi, hi.ne]
    · subst hi
      simp
    · rw [BitVec.getLsbD_of_ge x i (by omega)]
      simp [hi.ne']

end Words

section Register

variable {w : ℕ} (g : BitVec w)

/-- A shift of a register, where the bit that leaves it is fed back as `g`. -/
def shift (x : BitVec w) : BitVec w := if x.msb then (x <<< 1) ^^^ g else x <<< 1

/-- The register after a message. A word is added to it and then shifted through. -/
def checksum (init : BitVec w) (data : List (BitVec w)) : BitVec w :=
  data.foldl (fun x b => (shift g)^[w] (x ^^^ b)) init

noncomputable def modulus : (ZMod 2)[X] := X ^ w + toPoly g

/-- The polynomial of a message behind the initial contents of the register. -/
noncomputable def dividend (init : BitVec w) (data : List (BitVec w)) : (ZMod 2)[X] :=
  X ^ (w * data.length) * toPoly init + X ^ w * ofBits (data.flatMap bits)

theorem degree_modulus : (modulus g).degree = w := by
  have hlt : (toPoly g).degree < ((X : (ZMod 2)[X]) ^ w).degree := by
    rw [degree_X_pow]
    exact degree_toPoly_lt g
  rw [modulus, degree_add_eq_left_of_degree_lt hlt, degree_X_pow]

theorem monic_modulus : (modulus g).Monic := monic_X_pow_add (degree_toPoly_lt g)

variable {g}

/-- The remainder is the only short polynomial that differs by a multiple of the modulus. -/
theorem eq_toPoly_of_dvd {x : BitVec w} {p r : (ZMod 2)[X]} (hx : modulus g ∣ p - toPoly x)
    (hr : modulus g ∣ p - r) (hdegree : r.degree < w) : r = toPoly x := by
  have h : modulus g ∣ r - toPoly x := by
    have hsub := dvd_sub hx hr
    rwa [sub_sub_sub_cancel_left] at hsub
  apply sub_eq_zero.mp
  apply eq_zero_of_dvd_of_degree_lt h
  rw [degree_modulus]
  exact (degree_sub_le _ _).trans_lt (max_lt hdegree (degree_toPoly_lt x))

theorem modulus_dvd_shift (x : BitVec w) : modulus g ∣ X * toPoly x - toPoly (shift g x) := by
  rw [X_mul_toPoly, shift, modulus]
  split_ifs with hmsb
  · refine ⟨1, ?_⟩
    rw [toPoly_xor, CharTwo.sub_eq_add]
    linear_combination CharTwo.add_self_eq_zero (toPoly (x <<< 1))
  · rw [add_zero, sub_self]
    exact dvd_zero _

theorem modulus_dvd_iterate (k : ℕ) (x : BitVec w) :
    modulus g ∣ X ^ k * toPoly x - toPoly ((shift g)^[k] x) := by
  induction k generalizing x with
  | zero => simp
  | succ k ih =>
    have hsum : X ^ (k + 1) * toPoly x - toPoly ((shift g)^[k + 1] x) =
        X ^ k * (X * toPoly x - toPoly (shift g x)) +
          (X ^ k * toPoly (shift g x) - toPoly ((shift g)^[k] (shift g x))) := by
      rw [Function.iterate_succ_apply]
      ring
    rw [hsum]
    exact dvd_add (Dvd.dvd.mul_left (modulus_dvd_shift x) _) (ih _)

theorem modulus_dvd_checksum (init : BitVec w) (data : List (BitVec w)) :
    modulus g ∣ dividend init data - toPoly (checksum g init data) := by
  induction data generalizing init with
  | nil => simp [dividend, checksum]
  | cons b data ih =>
    let next := (shift g)^[w] (init ^^^ b)
    have hsum : dividend init (b :: data) - toPoly (checksum g init (b :: data)) =
        X ^ (w * data.length) * (X ^ w * toPoly (init ^^^ b) - toPoly next) +
          (dividend next data - toPoly (checksum g next data)) := by
      have hlength : (data.flatMap bits).length = w * data.length := by
        simp [List.length_flatMap, Nat.mul_comm]
      have hchecksum : checksum g init (b :: data) = checksum g next data := rfl
      rw [hchecksum, dividend, dividend, List.flatMap_cons, ofBits_append, hlength, toPoly_xor,
        List.length_cons]
      change _ + X ^ w * (_ * toPoly b + _) - _ = _
      ring
    rw [hsum]
    exact dvd_add (Dvd.dvd.mul_left (modulus_dvd_iterate w _) _) (ih _)

/-- Two registers agree when the remainder by both moduli at once is short. -/
theorem checksum_eq_checksum_iff {g' : BitVec w} {m : (ZMod 2)[X]} (hm : m.Monic)
    (hdvd : ∀ p, m ∣ p ↔ modulus g ∣ p ∧ modulus g' ∣ p) (init : BitVec w)
    (data : List (BitVec w)) :
    checksum g init data = checksum g' init data ↔ (dividend init data %ₘ m).degree < w := by
  have hsum := modulus_dvd_checksum (g := g) init data
  have hsum' := modulus_dvd_checksum (g := g') init data
  obtain ⟨hleft, hright⟩ := (hdvd m).mp dvd_rfl
  constructor
  · intro h
    rw [← h] at hsum'
    have hzero := (modByMonic_eq_zero_iff_dvd hm).mpr ((hdvd _).mpr ⟨hsum, hsum'⟩)
    have hle : (w : WithBot ℕ) ≤ m.degree := by
      rw [← degree_modulus g]
      exact degree_le_of_dvd hleft hm.ne_zero
    rw [sub_modByMonic, (modByMonic_eq_self_iff hm).mpr ((degree_toPoly_lt _).trans_le hle),
      sub_eq_zero] at hzero
    rw [hzero]
    exact degree_toPoly_lt _
  · intro h
    have hrest : m ∣ dividend init data - dividend init data %ₘ m := by
      rw [modByMonic_eq_sub_mul_div, sub_sub_cancel]
      exact dvd_mul_right _ _
    have heq := eq_toPoly_of_dvd hsum (hleft.trans hrest) h
    have heq' := eq_toPoly_of_dvd hsum' (hright.trans hrest) h
    exact toPoly_injective (heq.symm.trans heq')

theorem isCoprime_modulus (hg : g.getLsbD 0 = true) (n : ℕ) : IsCoprime (modulus g) (X ^ n) := by
  have hcoeff : (modulus g).coeff 0 = 1 := by
    rw [modulus, coeff_add, coeff_toPoly, if_pos hg, coeff_X_pow, if_neg, zero_add]
    rintro rfl
    simp at hg
  apply IsCoprime.pow_right
  refine ⟨1, -(modulus g).divX, ?_⟩
  have hdivX := X_mul_divX_add (modulus g)
  rw [hcoeff, C_1] at hdivX
  linear_combination -hdivX

theorem burst_eq_of_checksum_eq (hg : g.getLsbD 0 = true) {init : BitVec w}
    {data data' : List (BitVec w)} {front burst burst' back : List Bool}
    (hdata : data.flatMap bits = front ++ burst ++ back)
    (hdata' : data'.flatMap bits = front ++ burst' ++ back)
    (hlength : data.length = data'.length) (hburst : burst.length = burst'.length)
    (hshort : burst.length ≤ w) (h : checksum g init data = checksum g init data') :
    burst = burst' := by
  have hdvd := dvd_sub (modulus_dvd_checksum (g := g) init data)
    (modulus_dvd_checksum (g := g) init data')
  have hfactor : dividend init data - toPoly (checksum g init data) -
      (dividend init data' - toPoly (checksum g init data')) =
        X ^ (w + back.length) * (ofBits burst - ofBits burst') := by
    rw [h, dividend, dividend, hlength, hdata, hdata']
    simp only [ofBits_append, hburst]
    ring
  rw [hfactor] at hdvd
  have hrest := (isCoprime_modulus hg _).dvd_of_dvd_mul_left hdvd
  apply (ofBits_inj hburst).mp
  apply sub_eq_zero.mp
  apply eq_zero_of_dvd_of_degree_lt hrest
  rw [degree_modulus]
  have hlt : ∀ bs : List Bool, bs.length ≤ w → (ofBits bs).degree < w := fun bs hbs =>
    (degree_ofBits_lt bs).trans_le (by exact_mod_cast hbs)
  exact (degree_sub_le _ _).trans_lt (max_lt (hlt _ hshort) (hlt _ (hburst ▸ hshort)))

theorem flatMap_bits_injective {data data' : List (BitVec w)} (hlength : data.length = data'.length)
    (h : data.flatMap bits = data'.flatMap bits) : data = data' := by
  induction data generalizing data' with
  | nil => exact (List.length_eq_zero_iff.mp hlength.symm).symm
  | cons b data ih =>
    cases data' with
    | nil => cases hlength
    | cons b' data' =>
      rw [List.flatMap_cons, List.flatMap_cons] at h
      obtain ⟨hhead, htail⟩ := List.append_inj h (by simp)
      rw [toPoly_injective (congrArg ofBits hhead), ih (Nat.succ.inj hlength) htail]

/-- The same for bits at positions that are no further apart than the register is long. -/
theorem checksum_ne_of_burst (hg : g.getLsbD 0 = true) {init : BitVec w}
    {data data' : List (BitVec w)} (hne : data ≠ data') (hlength : data.length = data'.length)
    {k : ℕ}
    (hburst : ∀ i, (data.flatMap bits)[i]? ≠ (data'.flatMap bits)[i]? → k ≤ i ∧ i < k + w) :
    checksum g init data ≠ checksum g init data' := by
  intro h
  apply hne
  apply flatMap_bits_injective hlength
  have hbits : (data.flatMap bits).length = (data'.flatMap bits).length := by
    simp [List.length_flatMap, hlength]
  generalize hdata : data.flatMap bits = bs at *
  generalize hdata' : data'.flatMap bits = bs' at *
  have hsame : ∀ i, ¬ (k ≤ i ∧ i < k + w) → bs[i]? = bs'[i]? := by
    intro i hi
    by_contra hdiff
    exact hi (hburst i hdiff)
  have hfront : bs.take k = bs'.take k := by
    apply List.ext_getElem?
    intro i
    rw [List.getElem?_take, List.getElem?_take]
    split_ifs with hi
    · exact hsame i (by omega)
    · rfl
  have hback : bs.drop (k + w) = bs'.drop (k + w) := by
    apply List.ext_getElem?
    intro i
    rw [List.getElem?_drop, List.getElem?_drop]
    exact hsame _ (by omega)
  have hsplit : ∀ cs : List Bool, cs.take k ++ (cs.drop k).take w ++ cs.drop (k + w) = cs := by
    intro cs
    rw [List.append_assoc, ← List.drop_drop, List.take_append_drop, List.take_append_drop]
  have hmiddle : (bs.drop k).take w = (bs'.drop k).take w := by
    apply burst_eq_of_checksum_eq hg (hdata.trans (hsplit bs).symm) ?_ hlength ?_ ?_ h
    · rw [hdata', hfront, hback, hsplit]
    · simp [hbits]
    · exact List.length_take_le w _
  rw [← hsplit bs, ← hsplit bs', hfront, hback, hmiddle]

end Register

end Qmk.Gf2
