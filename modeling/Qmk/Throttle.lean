import Mathlib.Data.List.Chain
import Mathlib.Tactic.Common

/-! # Throttles on a timer that wraps

A throttle lets a task through when enough time has elapsed since the last one, by a timer that
counts modulo its period. If it is polled often enough it opens in time, whatever the timer says at
the beginning.
-/

namespace Qmk.Throttle

section Timer

variable {period throttle t now last : ℕ}

/-- Enough time has elapsed since `last`, as far as the timer can tell. -/
def Late (period throttle now last : ℕ) : Prop :=
  throttle ≤ (period - last + now % period) % period

instance : Decidable (Late period throttle now last) := inferInstanceAs (Decidable (_ ≤ _))

/-- The time goes on, by less than what the timer takes to wrap around the throttle. -/
def Soon (period throttle t now : ℕ) : Prop := t ≤ now ∧ now + 2 * throttle ≤ t + period

instance : Decidable (Soon period throttle t now) := inferInstanceAs (Decidable (_ ∧ _))

theorem late_of_not_late (h : ¬ Late period throttle t last) (hlate : t + throttle ≤ now)
    (hwrap : now + throttle ≤ t + period) : Late period throttle now last := by
  unfold Late at h ⊢
  obtain ⟨d, rfl⟩ := Nat.exists_eq_add_of_le (Nat.le_of_add_right_le hlate)
  have helapsed : (period - last + (t + d) % period) % period =
      ((period - last + t % period) % period + d) % period := by
    rw [Nat.mod_add_mod, Nat.add_right_comm, Nat.add_mod_mod, Nat.add_mod_mod, Nat.add_right_comm,
      Nat.add_assoc]
  rw [helapsed, Nat.mod_eq_of_lt (by omega)]
  omega

end Timer

section Poll

variable {σ ε : Type*}

/-- A task behind a throttle. A poll at which the throttle is open does the task, no poll undoes it,
and a poll at which the throttle is closed leaves the timer alone. -/
structure Throttled (period throttle : ℕ) (inv : σ → Prop) (ok : ε → Prop) (poll : σ → ε → σ)
    (now : ε → ℕ) (last : σ → ℕ) (done : σ → Prop) : Prop where
  inv_poll : ∀ {s e}, inv s → ok e → inv (poll s e)
  done_of_late : ∀ {s e}, inv s → ok e → Late period throttle (now e) (last s) → done (poll s e)
  done_poll : ∀ {s e}, inv s → ok e → done s → done (poll s e)
  done_or_last : ∀ {s e}, inv s → ok e → done (poll s e) ∨ last (poll s e) = last s

variable {period throttle t time : ℕ} {inv : σ → Prop} {ok : ε → Prop} {poll : σ → ε → σ}
  {now : ε → ℕ} {last : σ → ℕ} {done : σ → Prop} {s : σ} {e first final : ε} {es : List ε}

/-- Either the task is done, or the throttle opens before long. -/
def Waiting (period throttle t time : ℕ) (last : σ → ℕ) (done : σ → Prop) (s : σ) : Prop :=
  done s ∨ ¬ Late period throttle t (last s) ∧ time < t + throttle

theorem Throttled.inv_foldl (h : Throttled period throttle inv ok poll now last done)
    (hinv : inv s) (hok : ∀ e ∈ es, ok e) : inv (es.foldl poll s) :=
  List.foldlRecOn es poll hinv fun _ hs _ he => h.inv_poll hs (hok _ he)

theorem Throttled.waiting_first (h : Throttled period throttle inv ok poll now last done)
    (hinv : inv s) (hok : ok first) :
    Waiting period throttle (now first) (now first) last done (poll s first) := by
  by_cases hlate : Late period throttle (now first) (last s)
  · exact .inl (h.done_of_late hinv hok hlate)
  · obtain hdone | hlast := h.done_or_last hinv hok
    · exact .inl hdone
    · have hpos : 0 < throttle := (Nat.zero_le _).trans_lt (not_le.1 hlate)
      exact .inr ⟨by rwa [hlast], by omega⟩

theorem Throttled.waiting_poll (h : Throttled period throttle inv ok poll now last done)
    (hinv : inv s) (hok : ok e) (hs : Waiting period throttle t time last done s)
    (hsoon : Soon period throttle time (now e)) :
    Waiting period throttle t (now e) last done (poll s e) := by
  obtain hdone | ⟨hlate, htime⟩ := hs
  · exact .inl (h.done_poll hinv hok hdone)
  · obtain ⟨hle, hwrap⟩ := hsoon
    by_cases hnow : now e < t + throttle
    · obtain hdone | hlast := h.done_or_last hinv hok
      · exact .inl hdone
      · exact .inr ⟨by rwa [hlast], hnow⟩
    · have hopen := late_of_not_late hlate (not_lt.1 hnow) (by omega)
      exact .inl (h.done_of_late hinv hok hopen)

theorem Throttled.waiting_foldl (h : Throttled period throttle inv ok poll now last done)
    (hinv : inv s) (hok : ∀ e ∈ es, ok e)
    (hs : Waiting period throttle t (now e) last done s)
    (htimes : (e :: es).IsChain fun c d => Soon period throttle (now c) (now d)) :
    Waiting period throttle t (now ((e :: es).getLast (by simp))) last done (es.foldl poll s) := by
  induction es generalizing e s with
  | nil => exact hs
  | cons next es ih =>
    obtain ⟨hsoon, htimes⟩ := List.isChain_cons_cons.1 htimes
    obtain ⟨hnext, hok⟩ := List.forall_mem_cons.1 hok
    rw [List.getLast_cons (by simp)]
    exact ih (h.inv_poll hinv hnext) hok (h.waiting_poll hinv hnext hs hsoon) htimes

/-- Polls that come soon after one another have done the task when the throttle has elapsed. -/
theorem Throttled.done_foldl (h : Throttled period throttle inv ok poll now last done)
    (hinv : inv s) (hok : ∀ e ∈ first :: (es ++ [final]), ok e)
    (htimes : (first :: (es ++ [final])).IsChain fun c d => Soon period throttle (now c) (now d))
    (helapsed : now first + throttle ≤ now final) :
    done ((first :: (es ++ [final])).foldl poll s) := by
  obtain ⟨hfirst, hok⟩ := List.forall_mem_cons.1 hok
  have hend : (first :: (es ++ [final])).getLast (by simp) = final := by simp
  obtain hdone | ⟨-, htime⟩ := h.waiting_foldl (h.inv_poll hinv hfirst) hok
    (h.waiting_first hinv hfirst) htimes
  · exact hdone
  · rw [hend] at htime
    omega

end Poll

end Qmk.Throttle
