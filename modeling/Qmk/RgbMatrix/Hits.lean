import Mathlib.Data.List.Induction
import Qmk.RgbMatrix

/-! # Hits of keys

The effects that react to keys are given the last hits and how long ago they were. The ages have 16
bits. A hit that would get too old for them stays in its place while the number of hits goes down,
so that the newest hit is forgotten in its stead, and soon all of them are.
-/

namespace Qmk.RgbMatrix

variable {cfg : Build} {s : State} {c : Call} {calls : List Call} {delta : UInt32}

section Ages

theorem Hit.expired_iff {hit : Hit} (hdelta : delta.toNat ≤ 65535) :
    hit.expired delta = true ↔ 65535 < hit.tick.toNat + delta.toNat := by
  have hle : delta ≤ 65535 := UInt32.le_iff_toNat_le.2 hdelta
  rw [Hit.expired, decide_eq_true_iff, UInt32.lt_iff_toNat_lt, UInt32.toNat_sub_of_le _ _ hle,
    UInt16.toNat_toUInt32]
  have : (65535 : UInt32).toNat = 65535 := rfl
  omega

theorem Hit.advance_tick {hit : Hit} (hdelta : delta.toNat ≤ 65535)
    (hyoung : hit.tick.toNat + delta.toNat ≤ 65535) :
    (hit.advance delta).tick.toNat = hit.tick.toNat + delta.toNat := by
  have hexpired : ¬hit.expired delta = true := by
    rw [Hit.expired_iff hdelta]
    omega
  rw [Hit.advance, if_neg hexpired, UInt16.toNat_add, UInt32.toNat_toUInt16]
  omega

def Hit.past (hit : Hit) : ℕ × ℕ := (hit.index, hit.tick.toNat)

/-- The hits get older, as long as none of them gets too old. -/
theorem past_advanceHits {hits : List Hit}
    (hyoung : ∀ hit ∈ hits, hit.tick.toNat + delta.toNat ≤ 65535) :
    (advanceHits delta hits).map Hit.past =
      (hits.map Hit.past).map fun p => (p.1, p.2 + delta.toNat) := by
  have hexpired : hits.countP (Hit.expired delta) = 0 := List.countP_eq_zero.2 fun hit hhit => by
    have := hyoung hit hhit
    rw [Hit.expired_iff (by omega)]
    omega
  rw [advanceHits, hexpired, Nat.sub_zero, ← List.length_map (Hit.advance delta), List.take_length,
    List.map_map, List.map_map]
  refine List.map_congr_left fun hit hhit => ?_
  have hyoung' := hyoung hit hhit
  have hindex : (hit.advance delta).index = hit.index := by
    rw [Hit.advance]
    split_ifs <;> rfl
  simp only [Function.comp_apply, Hit.past, hindex, Hit.advance_tick (by omega) hyoung']

/-- A call other than those of the task and of a key leaves the hits alone. -/
theorem apply_other (htask : ∀ t, c ≠ .task t) (hkey : ∀ led, c ≠ .keyEvent led) :
    (c.apply cfg s).timerBuffer = s.timerBuffer ∧
      (c.apply cfg s).lastHitBuffer = s.lastHitBuffer := by
  cases c with
  | task t => exact absurd rfl (htask t)
  | keyEvent led => exact absurd rfl (hkey led)
  | mode mode => exact rgbMatrixMode_fields.2.2
  | step => exact rgbMatrixMode_fields.2.2
  | stepReverse => exact rgbMatrixMode_fields.2.2
  | sethsv hsv =>
    simp only [Call.apply, rgbMatrixSethsv]
    split_ifs <;> exact ⟨rfl, rfl⟩
  | suspend state =>
    simp only [Call.apply, rgbMatrixSetSuspendState]
    split_ifs <;> exact ⟨rfl, rfl⟩
  | reload stored =>
    simp only [Call.apply, rgbMatrixReload]
    split_ifs
    · exact rgbMatrixMode_fields.2.2
    · exact ⟨rfl, rfl⟩
  | _ => exact ⟨rfl, rfl⟩

end Ages

section History

/-- All of the hits of a run, with their ages. -/
structure History where
  timer : UInt32
  hits : List (ℕ × ℕ) := []

def History.apply (h : History) : Call → History
  | .task t => ⟨t.now, h.hits.map fun p => (p.1, p.2 + (t.now - h.timer).toNat)⟩
  | .keyEvent led => { h with hits := h.hits ++ [(led, 0)] }
  | _ => h

def History.run (calls : List Call) (h : History) : History := calls.foldl History.apply h

def History.last (n : ℕ) (h : History) : List (ℕ × ℕ) := h.hits.drop (h.hits.length - n)

structure Remembers (cfg : Build) (h : History) (s : State) : Prop where
  timer : s.timerBuffer = h.timer
  hits : s.lastHitBuffer.map Hit.past = h.last cfg.hitsToRemember

variable {h : History}

theorem Remembers.task {t : Tick} (hremembers : Remembers cfg h s)
    (hyoung : ∀ p ∈ (h.apply (.task t)).last cfg.hitsToRemember, p.2 ≤ 65535) :
    Remembers cfg (h.apply (.task t)) (rgbMatrixTask cfg t s) := by
  have hlast : (h.apply (.task t)).last cfg.hitsToRemember =
      (h.last cfg.hitsToRemember).map fun p => (p.1, p.2 + (t.now - h.timer).toNat) := by
    simp only [History.last, History.apply, List.length_map, List.map_drop]
  refine ⟨rgbMatrixTask_timerBuffer, ?_⟩
  rw [rgbMatrixTask_lastHitBuffer, hlast, ← hremembers.hits, hremembers.timer]
  refine past_advanceHits fun hit hhit => hyoung (hit.index, _) ?_
  rw [hlast, ← hremembers.hits, List.map_map]
  exact List.mem_map_of_mem hhit

theorem Remembers.keyEvent {led : ℕ} (hremembers : Remembers cfg h s) :
    Remembers cfg (h.apply (.keyEvent led)) (rgbMatrixHandleKeyEvent cfg led s) := by
  refine ⟨hremembers.timer, ?_⟩
  have hpos := cfg.hits_ok.1
  have hlength : s.lastHitBuffer.length = (h.last cfg.hitsToRemember).length := by
    rw [← hremembers.hits, List.length_map]
  have hmap : ∀ l : List Hit,
      (l ++ [(⟨led, 0⟩ : Hit)]).map Hit.past = l.map Hit.past ++ [(led, 0)] :=
    fun l => List.map_append
  simp only [rgbMatrixHandleKeyEvent]
  rw [hmap]
  split_ifs with hfull
  · rw [List.map_drop, hremembers.hits]
    simp only [History.last, History.apply, List.length_drop, List.length_append,
      List.length_singleton, List.drop_drop] at hlength ⊢
    rw [List.drop_append_of_le_length (by omega)]
    congr 2
    omega
  · rw [hremembers.hits]
    simp only [History.last, History.apply, List.length_drop, List.length_append,
      List.length_singleton] at hlength ⊢
    rw [List.drop_append_of_le_length (by omega)]
    congr 2
    omega

theorem Remembers.apply (hremembers : Remembers cfg h s)
    (hyoung : ∀ p ∈ (h.apply c).last cfg.hitsToRemember, p.2 ≤ 65535) :
    Remembers cfg (h.apply c) (c.apply cfg s) := by
  by_cases hother : (∀ t, c ≠ .task t) ∧ ∀ led, c ≠ .keyEvent led
  · obtain ⟨htimer, hhits⟩ := @apply_other cfg s c hother.1 hother.2
    have hsame : h.apply c = h := by
      cases c with
      | task t => exact absurd rfl (hother.1 t)
      | keyEvent led => exact absurd rfl (hother.2 led)
      | _ => rfl
    exact ⟨by rw [htimer, hsame, hremembers.timer], by rw [hhits, hsame, hremembers.hits]⟩
  · cases c with
    | task t => exact hremembers.task hyoung
    | keyEvent led => exact hremembers.keyEvent
    | _ => exact absurd ⟨fun t => Call.noConfusion, fun led => Call.noConfusion⟩ hother

/-- As long as none of the last hits of a run gets too old, the buffer holds them with their
ages. -/
theorem hits_remembered (hstart : s.lastHitBuffer = [])
    (hyoung : ∀ before, before <+: calls →
      ∀ p ∈ (History.run before ⟨s.timerBuffer, []⟩).last cfg.hitsToRemember, p.2 ≤ 65535) :
    (run cfg calls s).lastHitBuffer.map Hit.past =
      (History.run calls ⟨s.timerBuffer, []⟩).last cfg.hitsToRemember := by
  suffices h : Remembers cfg (History.run calls ⟨s.timerBuffer, []⟩) (run cfg calls s) from h.hits
  induction calls using List.reverseRecOn with
  | nil => exact ⟨rfl, by simp [run, History.run, History.last, hstart]⟩
  | append_singleton calls c ih =>
    have hsplit : History.run (calls ++ [c]) ⟨s.timerBuffer, []⟩ =
      (History.run calls ⟨s.timerBuffer, []⟩).apply c := List.foldl_append
    have hlast := hyoung _ (List.prefix_refl _)
    rw [hsplit] at hlast ⊢
    rw [run_append_singleton]
    exact (ih fun before hbefore => hyoung before (hbefore.trans (List.prefix_append _ _))).apply
      hlast

/-- Two hits are remembered, and the two before them are too old by now. -/
theorem hits_remembered_twoHits :
    let cfg : Build := { threeOfFive with hitsToRemember := 2, hits_ok := by decide }
    let calls : List Call := [.keyEvent 1, .keyEvent 2, .task ⟨60000, false, id⟩, .keyEvent 0,
      .keyEvent 1, .task ⟨120000, false, id⟩]
    (run cfg calls .on).lastHitBuffer.map Hit.past = [(0, 60000), (1, 60000)] := by
  intro cfg calls
  refine (@hits_remembered cfg .on calls rfl fun before hbefore => ?_).trans (by decide)
  have hle := hbefore.length_le
  rw [List.prefix_iff_eq_take.1 hbefore]
  generalize before.length = n at hle ⊢
  revert n
  decide

end History

section Expiry

/-- How many calls of the task the hits last at most. -/
def lifetime : List Hit → ℕ
  | [] => 0
  | oldest :: rest => 65535 - oldest.tick.toNat + (rest.length + 1)

theorem lifetime_advanceHits {hits : List Hit} (hpos : 0 < delta.toNat)
    (hdelta : delta.toNat ≤ 65535) : lifetime (advanceHits delta hits) ≤ lifetime hits - 1 := by
  cases hits with
  | nil => exact Nat.zero_le _
  | cons oldest rest =>
    have htake : ∀ {k : ℕ} {first : Hit} {others : List Hit},
        lifetime ((first :: others).take k) ≤
          if k = 0 then 0 else 65535 - first.tick.toNat + k := by
      intro k first others
      cases k with
      | zero => exact Nat.le_refl 0
      | succ k =>
        simp only [List.take_succ_cons, lifetime, List.length_take, Nat.succ_ne_zero, if_false]
        omega
    have hcount : rest.countP (Hit.expired delta) ≤ rest.length := List.countP_le_length
    rw [advanceHits, List.map_cons]
    refine Nat.le_trans htake ?_
    by_cases hexpired : oldest.expired delta = true
    · rw [List.countP_cons_of_pos hexpired, Hit.advance, if_pos hexpired]
      simp only [lifetime, List.length_cons]
      split_ifs <;> omega
    · have hyoung := hexpired
      rw [Hit.expired_iff hdelta] at hyoung
      rw [List.countP_cons_of_neg hexpired, Hit.advance_tick hdelta (by omega)]
      simp only [lifetime, List.length_cons]
      split_ifs <;> omega

theorem lifetime_run (hkey : ∀ led, .keyEvent led ∉ calls)
    (hruns : ∀ before t, before ++ [.task t] <+: calls →
      0 < (t.now - (run cfg before s).timerBuffer).toNat ∧
        (t.now - (run cfg before s).timerBuffer).toNat ≤ 65535) :
    lifetime (run cfg calls s).lastHitBuffer ≤
      lifetime s.lastHitBuffer - calls.countP Call.isTask := by
  induction calls using List.reverseRecOn with
  | nil => exact Nat.le_refl _
  | append_singleton calls c ih =>
    have hbefore := ih (fun led h => hkey led (List.mem_append_left _ h)) fun before t h =>
      hruns before t (h.trans (List.prefix_append _ _))
    rw [run_append_singleton, List.countP_append]
    by_cases htask : ∃ t, c = .task t
    · obtain ⟨t, rfl⟩ := htask
      obtain ⟨hpos, hdelta⟩ := hruns calls t (List.prefix_refl _)
      have hnext := @lifetime_advanceHits _ (run cfg calls s).lastHitBuffer hpos hdelta
      have hone : [Call.task t].countP Call.isTask = 1 := rfl
      rw [Call.apply, rgbMatrixTask_lastHitBuffer, hone]
      omega
    · have hsame : (c.apply cfg (run cfg calls s)).lastHitBuffer =
          (run cfg calls s).lastHitBuffer :=
        (apply_other (fun t h => htask ⟨t, h⟩) fun led h =>
          hkey led (h ▸ List.mem_append_right _ (List.mem_singleton_self _))).2
      have hzero : [c].countP Call.isTask = 0 := by
        rw [List.countP_eq_zero, List.forall_mem_singleton]
        cases c <;> simp_all [Call.isTask]
      rw [hsame, hzero]
      exact hbefore

/-- All hits are forgotten with the oldest one. While no key is pressed, the calls of the task that
it has left before it is too old for 16 bits, and one for each hit, are enough. -/
theorem hits_vanish {oldest : Hit} {rest : List Hit} (hhits : s.lastHitBuffer = oldest :: rest)
    (hkey : ∀ led, .keyEvent led ∉ calls)
    (hruns : ∀ before t, before ++ [.task t] <+: calls →
      0 < (t.now - (run cfg before s).timerBuffer).toNat ∧
        (t.now - (run cfg before s).timerBuffer).toNat ≤ 65535)
    (hlong : 65535 - oldest.tick.toNat + (rest.length + 1) ≤ calls.countP Call.isTask) :
    (run cfg calls s).lastHitBuffer = [] := by
  have hlife := lifetime_run hkey hruns
  have hstart : lifetime s.lastHitBuffer = 65535 - oldest.tick.toNat + (rest.length + 1) := by
    rw [hhits, lifetime]
  cases hleft : (run cfg calls s).lastHitBuffer with
  | nil => rfl
  | cons first others =>
    rw [hleft, lifetime] at hlife
    omega

/-- The second hit is forgotten at once. -/
theorem hits_vanish_newest :
    let pressed : State := { State.on with lastHitBuffer := [⟨1, 65535⟩, ⟨2, 0⟩] }
    (run threeOfFive [.task ⟨1, false, id⟩, .task ⟨2, false, id⟩] pressed).lastHitBuffer = [] := by
  refine hits_vanish rfl (by simp) (fun before t hbefore => ?_) (by decide)
  rcases before with _ | ⟨a, _ | ⟨b, before⟩⟩ <;>
    simp only [List.nil_append, List.cons_append, List.cons_prefix_cons] at hbefore
  · obtain ⟨h, -⟩ := hbefore
    cases h
    decide
  · obtain ⟨rfl, h, -⟩ := hbefore
    cases h
    decide
  · simp at hbefore

end Expiry

end Qmk.RgbMatrix
