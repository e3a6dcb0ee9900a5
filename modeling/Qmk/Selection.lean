import Mathlib.Data.Set.Pairwise.Basic
import Mathlib.Logic.Relation

/-! # Selections without conflicts

Candidates come one after the other. One that comes is selected in place of those that it conflicts
with, or gives way to a larger candidate that it conflicts with. What is selected is then free of
conflicts, and from every candidate a chain of conflicts leads, with growing sizes, to a selected
one.
-/

namespace Qmk

variable {ι : Type*} {conflict : ι → ι → Prop} {size : ι → ℕ} {candidates selected rest : Set ι}
  {x j : ι}

/-- A chain of candidates, each in conflict with the next one, which is at least as large. -/
def Leads (conflict : ι → ι → Prop) (size : ι → ℕ) (candidates : Set ι) : ι → ι → Prop :=
  Relation.ReflTransGen fun a b =>
    a ∈ candidates ∧ b ∈ candidates ∧ conflict a b ∧ size a ≤ size b

/-- No two selected candidates are in conflict, and every candidate leads to a selected one. -/
structure Selects (conflict : ι → ι → Prop) (size : ι → ℕ) (candidates selected : Set ι) :
    Prop where
  subset : selected ⊆ candidates
  disjoint : selected.Pairwise fun a b => ¬ conflict a b
  leads : ∀ a ∈ candidates, ∃ b ∈ selected, Leads conflict size candidates a b

theorem Leads.mono {candidates' : Set ι} (h : candidates ⊆ candidates') {a b : ι}
    (hab : Leads conflict size candidates a b) : Leads conflict size candidates' a b := by
  induction hab with
  | refl => exact .refl
  | tail _ hlink ih => exact ih.tail ⟨h hlink.1, h hlink.2.1, hlink.2.2⟩

theorem Leads.size_le {a b : ι} (hab : Leads conflict size candidates a b) : size a ≤ size b := by
  induction hab with
  | refl => exact le_rfl
  | tail _ hlink ih => exact ih.trans hlink.2.2.2

theorem selects_empty : Selects conflict size ∅ ∅ where
  subset := subset_rfl
  disjoint := Set.pairwise_empty _
  leads a ha := absurd ha (Set.notMem_empty a)

theorem Selects.accept (h : Selects conflict size candidates selected)
    (hsymm : ∀ a b, conflict a b → conflict b a) (hrest : rest ⊆ selected)
    (hfree : ∀ b ∈ rest, ¬ conflict b x)
    (hgone : ∀ b ∈ selected, b ∉ rest → conflict b x ∧ size b ≤ size x) :
    Selects conflict size (insert x candidates) (insert x rest) := by
  have hmono := Set.subset_insert x candidates
  constructor
  · exact Set.insert_subset_insert (hrest.trans h.subset)
  · refine (h.disjoint.mono hrest).insert fun b hb _ => ⟨?_, hfree b hb⟩
    exact fun hconflict => hfree b hb (hsymm x b hconflict)
  · rintro a (rfl | ha)
    · exact ⟨a, Set.mem_insert a rest, .refl⟩
    · obtain ⟨b, hb, hab⟩ := h.leads a ha
      by_cases hstays : b ∈ rest
      · exact ⟨b, Set.mem_insert_of_mem x hstays, hab.mono hmono⟩
      · have hlink := hgone b hb hstays
        exact ⟨x, Set.mem_insert x rest, (hab.mono hmono).tail
          ⟨hmono (h.subset hb), Set.mem_insert x candidates, hlink⟩⟩

/-- A candidate gives way to a larger one, and those in conflict with it that are no larger may be
lost. -/
theorem Selects.reject (h : Selects conflict size candidates selected) (hj : j ∈ candidates)
    (hconflict : conflict x j) (hsize : size x < size j) (hrest : rest ⊆ selected)
    (hgone : ∀ b ∈ selected, b ∉ rest → conflict b x ∧ size b ≤ size x) :
    Selects conflict size (insert x candidates) rest := by
  have hmono := Set.subset_insert x candidates
  -- What the larger one leads to is larger than the candidate, so it stays.
  have hx : ∃ b ∈ rest, Leads conflict size (insert x candidates) x b := by
    obtain ⟨b, hb, hjb⟩ := h.leads j hj
    have hstays : b ∈ rest := by
      by_contra hlost
      have hle := (hgone b hb hlost).2
      have hjle := hjb.size_le
      omega
    exact ⟨b, hstays, (hjb.mono hmono).head
      ⟨Set.mem_insert x candidates, hmono hj, hconflict, hsize.le⟩⟩
  constructor
  · exact (hrest.trans h.subset).trans hmono
  · exact h.disjoint.mono hrest
  · rintro a (rfl | ha)
    · exact hx
    · obtain ⟨b, hb, hab⟩ := h.leads a ha
      by_cases hstays : b ∈ rest
      · exact ⟨b, hstays, hab.mono hmono⟩
      · obtain ⟨c, hc, hxc⟩ := hx
        have hlink := hgone b hb hstays
        exact ⟨c, hc, ((hab.mono hmono).tail
          ⟨hmono (h.subset hb), Set.mem_insert x candidates, hlink⟩).trans hxc⟩

end Qmk
