import Mathlib.Data.List.Basic

/-! # Programs that log

A program runs on a state and writes what it does to a log. What it adds to the log is its
footprint; the footprint of a composed program consists of those of its parts, each at the state in
which the part is run.
-/

namespace Qmk

structure Traced (σ ε : Type) where
  state : σ
  log : List ε := []

abbrev Prog (σ ε α : Type) := StateM (Traced σ ε) α

namespace Prog

variable {σ ε α β ι : Type}

/-- Log `e` and go on with the state that `f` makes of the present one. -/
def emit (e : ε) (f : σ → σ) : Prog σ ε Unit := fun s => ((), ⟨f s.state, s.log ++ [e]⟩)

/-- Log `e` and return what `f` reads. -/
def observe (e : ε) (f : σ → α) : Prog σ ε α := fun s => (f s.state, ⟨s.state, s.log ++ [e]⟩)

/-- From `s` the program only adds entries with `P` to the log. -/
def Adds (P : ε → Prop) (x : Prog σ ε α) (s : Traced σ ε) : Prop :=
  ∃ es, (x s).2.log = s.log ++ es ∧ ∀ e ∈ es, P e

variable {P : ε → Prop} {x : Prog σ ε α} {f : α → Prog σ ε β} {s : Traced σ ε}

theorem bind_apply (x : Prog σ ε α) (f : α → Prog σ ε β) (s : Traced σ ε) :
    (x >>= f) s = f (x s).1 (x s).2 := rfl

theorem forM_cons_apply (body : ι → Prog σ ε PUnit) (i : ι) (l : List ι) (s : Traced σ ε) :
    (i :: l).forM body s = l.forM body (body i s).2 := rfl

theorem adds_pure (a : α) : Adds P (pure a : Prog σ ε α) s :=
  ⟨[], (List.append_nil _).symm, by simp⟩

theorem adds_emit {e : ε} (he : P e) (g : σ → σ) : Adds P (emit e g) s :=
  ⟨[e], rfl, by simpa using he⟩

theorem adds_observe {e : ε} (he : P e) (g : σ → α) : Adds P (observe e g) s :=
  ⟨[e], rfl, by simpa using he⟩

theorem Adds.bind (hx : Adds P x s) (hf : Adds P (f (x s).1) (x s).2) : Adds P (x >>= f) s := by
  obtain ⟨es, hes, hP⟩ := hx
  obtain ⟨es', hes', hP'⟩ := hf
  refine ⟨es ++ es', ?_, ?_⟩
  · rw [bind_apply, hes', hes, List.append_assoc]
  · rintro e he
    rcases List.mem_append.mp he with he | he
    · exact hP e he
    · exact hP' e he

theorem adds_forM {body : ι → Prog σ ε PUnit} {l : List ι}
    (h : ∀ i ∈ l, ∀ s, Adds P (body i) s) (s : Traced σ ε) : Adds P (l.forM body) s := by
  induction l generalizing s with
  | nil => exact adds_pure _
  | cons i l ih =>
    obtain ⟨hi, hl⟩ := List.forall_mem_cons.mp h
    exact (hi s).bind (ih hl _)

theorem adds_foldlM {body : α → ι → Prog σ ε α} {l : List ι}
    (h : ∀ i ∈ l, ∀ a s, Adds P (body a i) s) (a : α) (s : Traced σ ε) :
    Adds P (l.foldlM body a) s := by
  induction l generalizing a s with
  | nil => exact adds_pure a
  | cons i l ih =>
    obtain ⟨hi, hl⟩ := List.forall_mem_cons.mp h
    exact (hi a s).bind (ih hl _ _)

theorem Adds.mem_log (h : Adds P x s) {e : ε} (he : e ∈ s.log) : e ∈ (x s).2.log := by
  obtain ⟨es, hes, -⟩ := h
  rw [hes]
  exact List.mem_append_left es he

theorem Adds.of_log (h : Adds P x s) (hs : s.log = []) : ∀ e ∈ (x s).2.log, P e := by
  obtain ⟨es, hes, hP⟩ := h
  rw [hes, hs]
  exact hP

theorem mem_log_forM {body : ι → Prog σ ε PUnit} {l : List ι} {i : ι} {e : ε} (hi : i ∈ l)
    (he : ∀ s, e ∈ (body i s).2.log) (hgrows : ∀ j s, Adds P (body j) s) (s : Traced σ ε) :
    e ∈ (l.forM body s).2.log := by
  induction l generalizing s with
  | nil => exact absurd hi List.not_mem_nil
  | cons j l ih =>
    rw [forM_cons_apply]
    rcases List.mem_cons.mp hi with rfl | hi
    · exact (adds_forM (fun j _ => hgrows j) _).mem_log (he s)
    · exact ih hi _

end Prog

end Qmk
