import Mathlib.Data.List.Basic

/-! # Trace monitors

A monitor reads a trace from left to right, keeps a state, and judges each event
in the state that the events before it have led to. A trace is accepted when
every event of it passes.
-/

namespace Qmk

/-- A monitor for events of type `α` with states of type `σ`. -/
structure Monitor (α σ : Type*) where
  next : σ → α → σ
  ok : σ → α → Prop

namespace Monitor

variable {α σ : Type*} (M : Monitor α σ)

def after (q : σ) (cs : List α) : σ := cs.foldl M.next q

def Accepts : σ → List α → Prop
  | _, [] => True
  | q, c :: cs => M.ok q c ∧ Accepts (M.next q c) cs

instance decidableAccepts [∀ q c, Decidable (M.ok q c)] : ∀ q cs, Decidable (M.Accepts q cs)
  | _, [] => isTrue trivial
  | q, c :: cs =>
    have := decidableAccepts (M.next q c) cs
    inferInstanceAs (Decidable (M.ok q c ∧ M.Accepts (M.next q c) cs))

@[simp] theorem after_nil (q : σ) : M.after q [] = q := rfl

@[simp] theorem after_cons (q : σ) (c : α) (cs : List α) :
    M.after q (c :: cs) = M.after (M.next q c) cs := rfl

@[simp] theorem after_append (q : σ) (cs ds : List α) :
    M.after q (cs ++ ds) = M.after (M.after q cs) ds :=
  List.foldl_append

@[simp] theorem accepts_nil (q : σ) : M.Accepts q [] := trivial

@[simp] theorem accepts_cons (q : σ) (c : α) (cs : List α) :
    M.Accepts q (c :: cs) ↔ M.ok q c ∧ M.Accepts (M.next q c) cs := Iff.rfl

@[simp] theorem accepts_append (q : σ) (cs ds : List α) :
    M.Accepts q (cs ++ ds) ↔ M.Accepts q cs ∧ M.Accepts (M.after q cs) ds := by
  induction cs generalizing q with
  | nil => simp
  | cons c cs ih => simp [ih, and_assoc]

theorem Accepts.ok {M : Monitor α σ} {q : σ} {cs pre post : List α} {c : α} (h : M.Accepts q cs)
    (hc : cs = pre ++ c :: post) : M.ok (M.after q pre) c := by
  subst hc
  exact ((M.accepts_append q pre _).mp h).2.1

theorem accepts_iff {q : σ} {cs : List α} :
    M.Accepts q cs ↔ ∀ pre c post, cs = pre ++ c :: post → M.ok (M.after q pre) c := by
  constructor
  · intro h pre c post hcs
    exact h.ok hcs
  · intro h
    induction cs generalizing q with
    | nil => exact trivial
    | cons c cs ih =>
      refine ⟨h [] c cs rfl, ih ?_⟩
      rintro pre d post rfl
      exact h (c :: pre) d post rfl

theorem accepts_of_extends {M : Monitor α σ} {q : σ} {cs : List α}
    (h : ∀ pre c post, cs = pre ++ c :: post → M.Accepts q pre → M.ok (M.after q pre) c) :
    M.Accepts q cs := by
  induction cs generalizing q with
  | nil => exact trivial
  | cons c cs ih =>
    have hc : M.ok q c := h [] c cs rfl trivial
    refine ⟨hc, ih ?_⟩
    rintro pre d post rfl hpre
    exact h (c :: pre) d post rfl ⟨hc, hpre⟩

/-- A trace is accepted when it passes another test of its events that says the same where the trace
leads. -/
theorem accepts_iff_events {M : Monitor α σ} {P : σ → α → Prop} {q : σ} {cs : List α}
    (h : ∀ pre c post, cs = pre ++ c :: post → (P (M.after q pre) c ↔ M.ok (M.after q pre) c)) :
    (∀ pre c post, cs = pre ++ c :: post → P (M.after q pre) c) ↔ M.Accepts q cs := by
  rw [accepts_iff]
  exact forall₃_congr fun pre c post => forall_congr' fun hcs => h pre c post hcs

/-- What holds at first and is kept by every event that passes holds after an accepted trace. -/
theorem Accepts.invariant {M : Monitor α σ} {P : σ → Prop}
    (hstep : ∀ q c, P q → M.ok q c → P (M.next q c)) {q : σ} (hq : P q) {cs : List α}
    (h : M.Accepts q cs) : P (M.after q cs) := by
  induction cs generalizing q with
  | nil => exact hq
  | cons c cs ih => exact ih (hstep q c hq h.1) h.2

/-- What such an invariant implies holds all along an accepted trace. -/
theorem Accepts.prefixes {M : Monitor α σ} {I P : σ → Prop} (hgood : ∀ q, I q → P q)
    (hstep : ∀ q c, I q → M.ok q c → I (M.next q c)) {q : σ} (hq : I q) {cs : List α}
    (h : M.Accepts q cs) : ∀ pre rest, cs = pre ++ rest → P (M.after q pre) := by
  rintro pre rest rfl
  exact hgood _ (((M.accepts_append q pre rest).mp h).1.invariant hstep hq)

/-- Where the events that pass are those that keep `P`, given what holds after an accepted trace, a
trace is accepted exactly when `P` holds all along. -/
theorem accepts_iff_prefixes {M : Monitor α σ} {I P : σ → Prop} (hgood : ∀ q, I q → P q)
    (hstep : ∀ q c, I q → M.ok q c → I (M.next q c))
    (hbad : ∀ q c, I q → P (M.next q c) → M.ok q c) {q : σ} (hq : I q) {cs : List α} :
    (∀ pre rest, cs = pre ++ rest → P (M.after q pre)) ↔ M.Accepts q cs := by
  constructor
  · intro h
    induction cs generalizing q with
    | nil => exact trivial
    | cons c cs ih =>
      have hc : M.ok q c := hbad q c hq (h [c] cs rfl)
      refine ⟨hc, ih (hstep q c hq hc) ?_⟩
      rintro pre rest rfl
      exact h (c :: pre) rest rfl
  · exact fun h => h.prefixes hgood hstep hq

theorem accepts_of_ok (hok : ∀ q c, M.ok q c) {q : σ} {cs : List α} : M.Accepts q cs := by
  induction cs generalizing q with
  | nil => exact trivial
  | cons c cs ih => exact ⟨hok q c, ih⟩

/-- Events that pass in every state and keep the state make an accepted trace. -/
theorem accepts_of_forall {q : σ} {cs : List α} (hok : ∀ c ∈ cs, M.ok q c)
    (hnext : ∀ c ∈ cs, M.next q c = q) : M.Accepts q cs ∧ M.after q cs = q := by
  induction cs with
  | nil => exact ⟨trivial, rfl⟩
  | cons c cs ih =>
    have hc := hnext c List.mem_cons_self
    obtain ⟨ha, hq⟩ := ih (fun d hd => hok d (List.mem_cons_of_mem _ hd))
      fun d hd => hnext d (List.mem_cons_of_mem _ hd)
    simp only [accepts_cons, after_cons, hc]
    exact ⟨⟨hok c List.mem_cons_self, ha⟩, hq⟩

end Monitor

end Qmk
