import Mathlib.Algebra.BigOperators.Group.List.Basic
import Mathlib.Algebra.GroupWithZero.Nat
import Mathlib.Data.List.Induction
import Mathlib.Data.Set.Basic

/-! # Held keys

The events of physical keys, each of which is pressed and released in turn. What a key stands for is
taken from its press and is the same at its release.
-/

namespace Qmk.HeldKeys

variable {κ α : Type*}

structure Event (κ α : Type*) where
  key : κ
  what : α
  pressed : Bool
  deriving DecidableEq

section Held

variable [DecidableEq κ] [DecidableEq α]

def heldAfter (held : List (κ × α)) (e : Event κ α) : List (κ × α) :=
  if e.pressed then (e.key, e.what) :: held else held.erase (e.key, e.what)

def held (es : List (Event κ α)) : List (κ × α) := es.foldl heldAfter []

/-- A key is pressed when it is up, and released as what it has been pressed as. -/
def Follows (down : List (κ × α)) (e : Event κ α) : Prop :=
  if e.pressed then ∀ p ∈ down, p.1 ≠ e.key else (e.key, e.what) ∈ down

instance (down : List (κ × α)) (e : Event κ α) : Decidable (Follows down e) := by
  unfold Follows
  infer_instance

def AlternatesFrom (down : List (κ × α)) : List (Event κ α) → Prop
  | [] => True
  | e :: es => Follows down e ∧ AlternatesFrom (heldAfter down e) es

instance AlternatesFrom.decidable : ∀ (down : List (κ × α)) (es : List (Event κ α)),
    Decidable (AlternatesFrom down es)
  | _, [] => isTrue trivial
  | down, e :: es =>
    have := AlternatesFrom.decidable (heldAfter down e) es
    inferInstanceAs (Decidable (_ ∧ _))

/-- Each key alternates, from the start with all keys up. -/
def Alternates (es : List (Event κ α)) : Prop := AlternatesFrom [] es

instance (es : List (Event κ α)) : Decidable (Alternates es) :=
  inferInstanceAs (Decidable (AlternatesFrom [] es))

variable {es : List (Event κ α)} {e : Event κ α} {down : List (κ × α)}

@[simp]
theorem held_nil : held ([] : List (Event κ α)) = [] := rfl

@[simp]
theorem held_append : held (es ++ [e]) = heldAfter (held es) e := by
  simp [held]

theorem alternatesFrom_append : AlternatesFrom down (es ++ [e]) ↔
    AlternatesFrom down es ∧ Follows (es.foldl heldAfter down) e := by
  induction es generalizing down with
  | nil => simp [AlternatesFrom]
  | cons e' es ih => simp [AlternatesFrom, ih, and_assoc]

theorem alternates_append : Alternates (es ++ [e]) ↔ Alternates es ∧ Follows (held es) e :=
  alternatesFrom_append

theorem Alternates.of_prefix {es' : List (Event κ α)} (h : Alternates es) (hp : es' <+: es) :
    Alternates es' := by
  obtain ⟨after, rfl⟩ := hp
  induction after using List.reverseRecOn with
  | nil => rwa [List.append_nil] at h
  | append_singleton after e ih =>
    rw [← List.append_assoc] at h
    exact ih (alternates_append.mp h).1

theorem heldAfter_press (he : e.pressed) : heldAfter down e = (e.key, e.what) :: down := if_pos he

theorem heldAfter_release (he : ¬ e.pressed) : heldAfter down e = down.erase (e.key, e.what) :=
  if_neg he

theorem mem_heldAfter {p : κ × α} (hp : p ∈ down) (hne : p ≠ (e.key, e.what)) :
    p ∈ heldAfter down e := by
  unfold heldAfter
  split_ifs
  · exact List.mem_cons_of_mem _ hp
  · exact (List.mem_erase_of_ne hne).mpr hp

/-- The release of a key, when all the keys are seen as something else. -/
theorem heldAfter_map {β : Type*} [DecidableEq β] {g : κ × α → κ × β} {e' : Event κ β}
    (hg : Function.Injective g) (heq : g (e.key, e.what) = (e'.key, e'.what))
    (he : ¬ e.pressed) (he' : ¬ e'.pressed) :
    heldAfter (down.map g) e' = (heldAfter down e).map g := by
  rw [heldAfter_release he, heldAfter_release he', List.map_erase hg, heq]

theorem heldAfter_ne_nil (he : e.pressed) : heldAfter down e ≠ [] := by
  simp [heldAfter_press he]

end Held

theorem length_held_le [DecidableEq κ] [DecidableEq α] (es : List (Event κ α)) :
    (held es).length ≤ es.length := by
  induction es using List.reverseRecOn with
  | nil => exact Nat.le_refl _
  | append_singleton es e ih =>
    rw [held_append, List.length_append]
    by_cases he : e.pressed
    · rw [heldAfter_press he]
      exact Nat.succ_le_succ ih
    · rw [heldAfter_release he]
      exact Nat.le_trans List.length_erase_le (Nat.le_add_right_of_le ih)

theorem Follows.mem {down : List (κ × α)} {e : Event κ α} (h : Follows down e)
    (he : ¬ e.pressed) : (e.key, e.what) ∈ down := by
  rwa [Follows, if_neg he] at h

section Weight

def weight (w : α → ℕ) (down : List (κ × α)) : ℕ := (down.map fun p => w p.2).sum

variable {w : α → ℕ} {down : List (κ × α)}

@[simp]
theorem weight_nil : weight w ([] : List (κ × α)) = 0 := rfl

@[simp]
theorem weight_cons (p : κ × α) : weight w (p :: down) = w p.2 + weight w down := by
  simp [weight]

theorem weight_le {n : ℕ} (hw : ∀ p ∈ down, w p.2 ≤ n) : weight w down ≤ down.length * n := by
  induction down with
  | nil => exact Nat.zero_le _
  | cons p down ih =>
    have hp : w p.2 ≤ n := hw p List.mem_cons_self
    have hdown := ih fun q hq => hw q (List.mem_cons_of_mem p hq)
    rw [weight_cons, List.length_cons, Nat.succ_mul]
    omega

theorem weight_eq_zero_iff (hw : ∀ p ∈ down, 0 < w p.2) : weight w down = 0 ↔ down = [] := by
  cases down with
  | nil => simp
  | cons p down =>
    have hp : 0 < w p.2 := hw p List.mem_cons_self
    simp only [weight_cons, reduceCtorEq, iff_false]
    omega

variable [DecidableEq κ] [DecidableEq α]

theorem weight_erase {p : κ × α} (hp : p ∈ down) :
    w p.2 + weight w (down.erase p) = weight w down := by
  rw [← weight_cons, weight, weight]
  exact ((List.perm_cons_erase hp).map _).sum_eq.symm

variable {e : Event κ α}

theorem weight_press (he : e.pressed) :
    weight w (heldAfter down e) = w e.what + weight w down := by
  rw [heldAfter_press he, weight_cons]

theorem weight_release (h : Follows down e) (he : ¬ e.pressed) :
    w e.what + weight w (heldAfter down e) = weight w down := by
  rw [heldAfter_release he]
  exact weight_erase (h.mem he)

end Weight

section Members

variable [DecidableEq κ] [DecidableEq α] {es : List (Event κ α)}

theorem exists_of_mem_held {p : κ × α} (hp : p ∈ held es) :
    ∃ e ∈ es, e.pressed = true ∧ (e.key, e.what) = p := by
  induction es using List.reverseRecOn with
  | nil => simp at hp
  | append_singleton es e ih =>
    have hold : p ∈ held es → ∃ e' ∈ es ++ [e], e'.pressed = true ∧ (e'.key, e'.what) = p := by
      intro h
      obtain ⟨e', he', h'⟩ := ih h
      exact ⟨e', List.mem_append_left _ he', h'⟩
    by_cases he : e.pressed
    · rw [held_append, heldAfter_press he, List.mem_cons] at hp
      rcases hp with rfl | hp
      · exact ⟨e, by simp, he, rfl⟩
      · exact hold hp
    · rw [held_append, heldAfter_release he] at hp
      exact hold (List.mem_of_mem_erase hp)

theorem exists_press_of_mem (halt : Alternates es) {e : Event κ α} (he : e ∈ es) :
    ∃ e' ∈ es, e'.pressed = true ∧ e'.what = e.what := by
  induction es using List.reverseRecOn with
  | nil => exact absurd he List.not_mem_nil
  | append_singleton es last ih =>
    obtain ⟨halt, hfollows⟩ := alternates_append.mp halt
    have hearlier : e ∈ es → ∃ e' ∈ es ++ [last], e'.pressed = true ∧ e'.what = e.what := by
      intro h
      obtain ⟨e', he', h'⟩ := ih halt h
      exact ⟨e', List.mem_append_left _ he', h'⟩
    rcases List.mem_append.mp he with he | he
    · exact hearlier he
    · obtain rfl := List.mem_singleton.mp he
      by_cases hpressed : e.pressed
      · exact ⟨e, by simp, hpressed, rfl⟩
      · obtain ⟨e', he', hpress, hkey⟩ := exists_of_mem_held (hfollows.mem hpressed)
        exact ⟨e', List.mem_append_left _ he', hpress, (Prod.mk.inj hkey).2⟩

end Members

section Edges

variable [DecidableEq κ] [DecidableEq α] {es : List (Event κ α)} {what : α} {down : κ → Bool}

/-- The events are those of keys that all stand for `what`, and they leave down the keys of `down`,
each once. -/
structure Reflects (what : α) (down : κ → Bool) (es : List (Event κ α)) : Prop where
  alternates : Alternates es
  nodup : (held es).Nodup
  mem : ∀ p, p ∈ held es ↔ p.2 = what ∧ down p.1 = true

theorem reflects_nil : Reflects what (fun _ : κ => false) [] :=
  ⟨trivial, List.nodup_nil, fun p => by simp⟩

theorem Reflects.congr {down' : κ → Bool} (h : Reflects what down es) (heq : down' = down) :
    Reflects what down' es := heq ▸ h

theorem Reflects.flip (h : Reflects what down es) (key : κ) :
    Reflects what (Function.update down key (!down key)) (es ++ [⟨key, what, !down key⟩]) := by
  have hpair : ∀ p : κ × α, p.2 = what → p.1 = key → p = (key, what) :=
    fun p hwhat hkey => Prod.ext hkey hwhat
  cases hdown : down key with
  | false =>
    have hnot : ∀ p ∈ held es, p.1 ≠ key := by
      rintro p hp rfl
      exact Bool.false_ne_true (hdown.symm.trans ((h.mem p).mp hp).2)
    have hheld : held (es ++ [⟨key, what, !false⟩]) = (key, what) :: held es := by
      rw [held_append]
      exact heldAfter_press rfl
    refine ⟨alternates_append.mpr ⟨h.alternates, hnot⟩, ?_, fun p => ?_⟩
    · rw [hheld]
      exact List.nodup_cons.mpr ⟨fun hmem => hnot _ hmem rfl, h.nodup⟩
    · rw [hheld, List.mem_cons, h.mem]
      by_cases hkey : p.1 = key
      · rw [hkey, Function.update_self, hdown]
        simpa using ⟨fun heq => congrArg Prod.snd heq, fun hwhat => hpair p hwhat hkey⟩
      · have hne : p ≠ (key, what) := fun heq => hkey (congrArg Prod.fst heq)
        rw [Function.update_of_ne hkey]
        simp [hne]
  | true =>
    have hmem : (key, what) ∈ held es := (h.mem _).mpr ⟨rfl, hdown⟩
    have hheld : held (es ++ [⟨key, what, !true⟩]) = (held es).erase (key, what) := by
      rw [held_append]
      exact heldAfter_release Bool.false_ne_true
    refine ⟨alternates_append.mpr ⟨h.alternates, hmem⟩, ?_, fun p => ?_⟩
    · rw [hheld]
      exact h.nodup.erase _
    · rw [hheld, h.nodup.mem_erase_iff, h.mem]
      by_cases hkey : p.1 = key
      · rw [hkey, Function.update_self]
        simpa using fun hne hwhat => absurd (hpair p hwhat hkey) hne
      · have hne : p ≠ (key, what) := fun heq => hkey (congrArg Prod.fst heq)
        rw [Function.update_of_ne hkey]
        simp [hne]

/-- The events of some keys, each of which is looked at once and has an event if it has changed. -/
def edges (what : α) (keys : List κ) (down now : κ → Bool) : List (Event κ α) :=
  (keys.filter fun key => now key != down key).map fun key => ⟨key, what, now key⟩

theorem Reflects.edges (h : Reflects what down es) {keys : List κ} (hkeys : keys.Nodup)
    (now : κ → Bool) :
    Reflects what (fun key => if key ∈ keys then now key else down key)
      (es ++ edges what keys down now) := by
  induction keys generalizing es down with
  | nil => simpa [HeldKeys.edges] using h
  | cons key keys ih =>
    obtain ⟨hnotMem, hkeys⟩ := List.nodup_cons.mp hkeys
    have hrest : ∀ down' : κ → Bool, (∀ other ∈ keys, down' other = down other) →
        HeldKeys.edges what keys down' now = HeldKeys.edges what keys down now := by
      intro down' hsame
      unfold HeldKeys.edges
      rw [List.filter_congr fun other hother => by rw [hsame other hother]]
    by_cases hchanged : now key = down key
    · have hedges : HeldKeys.edges what (key :: keys) down now =
          HeldKeys.edges what keys down now := by
        simp [HeldKeys.edges, hchanged]
      rw [hedges]
      refine (ih h hkeys).congr (funext fun other => ?_)
      by_cases hother : other = key
      · subst hother
        simp [hnotMem, hchanged]
      · simp [hother]
    · have hnow : now key = !down key := Bool.eq_not.mpr hchanged
      have hedges : HeldKeys.edges what (key :: keys) down now =
          ⟨key, what, !down key⟩ :: HeldKeys.edges what keys down now := by
        simp [HeldKeys.edges, hnow]
      have hsame : ∀ other ∈ keys, Function.update down key (!down key) other = down other := by
        rintro other hother
        refine Function.update_of_ne ?_ ..
        rintro rfl
        exact hnotMem hother
      have hflip := ih (h.flip key) hkeys
      rw [hrest _ hsame, List.append_assoc, List.singleton_append] at hflip
      rw [hedges]
      refine hflip.congr (funext fun other => ?_)
      by_cases hother : other = key
      · subst hother
        simp [hnotMem, hnow]
      · simp [hother]

end Edges

section Owned

variable {ι : Type*} {items : α → Set ι} {down : List (κ × α)} {e : Event κ α}

def owned (items : α → Set ι) (down : List (κ × α)) : Set ι := {i | ∃ p ∈ down, i ∈ items p.2}

@[simp]
theorem owned_nil : owned items ([] : List (κ × α)) = ∅ := by
  simp [owned]

variable [DecidableEq κ] [DecidableEq α]

theorem owned_press (he : e.pressed) :
    owned items (heldAfter down e) = items e.what ∪ owned items down := by
  ext i
  rw [heldAfter_press he]
  simp [owned, Set.mem_union]

/-- The items that the released key does not have belong to keys that stay down. -/
theorem owned_release (he : ¬ e.pressed) :
    owned items down \ items e.what ⊆ owned items (heldAfter down e) := by
  rintro i ⟨⟨p, hp, hi⟩, hnot⟩
  rw [heldAfter_release he]
  refine ⟨p, (List.mem_erase_of_ne ?_).mpr hp, hi⟩
  rintro rfl
  exact hnot hi

/-- A press adds items of its key and a release takes them away, apart from items that are kept. So
what is active belongs to the keys that are down or is kept. -/
theorem active_subset_owned {active active' kept : Set ι}
    (hactive : active ⊆ owned items down ∪ kept)
    (hpress : e.pressed → active' ⊆ active ∪ items e.what ∪ kept)
    (hrelease : ¬ e.pressed → active' ⊆ active \ items e.what ∪ kept) :
    active' ⊆ owned items (heldAfter down e) ∪ kept := by
  intro i hi
  by_cases he : e.pressed
  · rw [owned_press he]
    rcases hpress he hi with (h | h) | h
    · exact (hactive h).imp_left .inr
    · exact .inl (.inl h)
    · exact .inr h
  · rcases hrelease he hi with ⟨h, hnot⟩ | h
    · exact (hactive h).imp_left fun hdown => owned_release he ⟨hdown, hnot⟩
    · exact .inr h

end Owned

end Qmk.HeldKeys
