import Mathlib.Algebra.Group.Nat.Defs
import Mathlib.Data.BitVec
import Mathlib.Data.Fin.VecNotation
import Qmk.SlaveMatrix
import Qmk.Throttle

/-! # A matrix that the slave holds on to

The master reads the matrix when its checksum differs from that of the copy, so that it takes no
notice of a change that keeps the checksum. The reads that are forced by `FORCED_SYNC_THROTTLE_MS`
make up for that.
-/

namespace Qmk.SlaveMatrix

open Throttle

variable {rows w : ℕ} {C : Type*} [DecidableEq C] (crc8 : Matrix rows w → C)

/-- The times of the two reads of a call, of which the second is not always made. -/
structure Pull where
  now : ℕ
  done : ℕ

/-- A call over a link that works. -/
def Pull.actions (p : Pull) : List (Action rows w C) :=
  [.call, .read (.ofNat p.now) .ok, .read (.ofNat p.done) .ok]

def pull (o : Observed rows w C) (p : Pull) : Observed rows w C := run crc8 o p.actions

variable {crc8} {M : Matrix rows w} {o : Observed rows w C} {p first last : Pull}
  {pulls : List Pull}

/-- Between two calls, while the slave has published a matrix. -/
structure Holds (crc8 : Matrix rows w → C) (M : Matrix rows w) (o : Observed rows w C) :
    Prop where
  idle : o.state.handler = .idle
  slave : o.state.slaveShmem = ⟨crc8 M, M⟩

theorem late_iff {now : ℕ} {lastUpdate : UInt32} :
    100 ≤ UInt32.ofNat now - lastUpdate ↔ Late (2 ^ 32) 100 now lastUpdate.toNat := by
  rw [UInt32.le_iff_toNat_le, UInt32.toNat_sub, UInt32.toNat_ofNat']
  rfl

theorem handle_forced {s : State rows w C} {now : UInt32} (hs : s.handler = .checksum)
    (hslave : s.slaveShmem = ⟨crc8 M, M⟩)
    (hread : 100 ≤ now - s.lastUpdate ∨ crc8 M ≠ crc8 s.masterShmem.matrix) :
    s.handle crc8 now .ok =
      ({ s with
        masterShmem := ⟨crc8 M, s.masterShmem.matrix⟩
        handler := .retrieve (crc8 M) }, none) := by
  simp only [State.handle, hs, hslave]
  exact if_pos hread

theorem handle_same {s : State rows w C} {now : UInt32} (hs : s.handler = .checksum)
    (hslave : s.slaveShmem = ⟨crc8 M, M⟩)
    (hread : ¬ (100 ≤ now - s.lastUpdate ∨ crc8 M ≠ crc8 s.masterShmem.matrix)) :
    s.handle crc8 now .ok =
      ({ s with
        masterShmem := ⟨crc8 M, s.masterShmem.matrix⟩
        handler := .idle
        lastMatrix := s.masterShmem.matrix
        slaveMatrix := s.masterShmem.matrix }, some true) := by
  simp only [State.handle, hs, hslave]
  exact if_neg hread

theorem handle_retrieve {s : State rows w C} {now : UInt32}
    (hs : s.handler = .retrieve (crc8 s.slaveShmem.matrix)) :
    s.handle crc8 now .ok =
      ({ s with
        masterShmem := ⟨s.masterShmem.checksum, s.slaveShmem.matrix⟩
        lastUpdate := now } : State rows w C).finish true s.slaveShmem.matrix := by
  simp only [State.handle, hs, if_true]

theorem step_call {s : State rows w C} (hs : s.handler = .idle) :
    step crc8 s .call = ({ s with handler := .checksum }, none) := by
  rw [step, hs]

theorem step_read_idle {s : State rows w C} {now : UInt32} (hs : s.handler = .idle) :
    step crc8 s (.read now .ok) = (s, none) := by
  rw [step, State.handle, hs]

theorem pull_of_reads (h : Holds crc8 M o)
    (hread : 100 ≤ UInt32.ofNat p.now - o.state.lastUpdate ∨
      crc8 M ≠ crc8 o.state.masterShmem.matrix) :
    Holds crc8 M (pull crc8 o p) ∧ (pull crc8 o p).delivered = M ∧
      (pull crc8 o p).state.masterShmem.matrix = M := by
  obtain ⟨hidle, hslave⟩ := h
  have hchecksum : step crc8 { o.state with handler := .checksum } (.read (.ofNat p.now) .ok) =
      ({ o.state with
        masterShmem := ⟨crc8 M, o.state.masterShmem.matrix⟩
        handler := .retrieve (crc8 M) }, none) := by
    rw [step]
    exact handle_forced rfl hslave hread
  simp only [pull, run, Pull.actions, List.foldl_cons, List.foldl_nil, Observed.step,
    step_call hidle, hchecksum]
  rw [step, handle_retrieve (by rw [hslave])]
  simp only [State.finish, if_true, hslave]
  exact ⟨⟨rfl, rfl⟩, trivial, trivial⟩

theorem pull_of_same (h : Holds crc8 M o)
    (hread : ¬ (100 ≤ UInt32.ofNat p.now - o.state.lastUpdate ∨
      crc8 M ≠ crc8 o.state.masterShmem.matrix)) :
    Holds crc8 M (pull crc8 o p) ∧
      (pull crc8 o p).delivered = (pull crc8 o p).state.masterShmem.matrix ∧
      (pull crc8 o p).state.masterShmem.matrix = o.state.masterShmem.matrix ∧
      (pull crc8 o p).state.lastUpdate = o.state.lastUpdate := by
  obtain ⟨hidle, hslave⟩ := h
  have hchecksum : step crc8 { o.state with handler := .checksum } (.read (.ofNat p.now) .ok) =
      ({ o.state with
        masterShmem := ⟨crc8 M, o.state.masterShmem.matrix⟩
        handler := .idle
        lastMatrix := o.state.masterShmem.matrix
        slaveMatrix := o.state.masterShmem.matrix }, some true) := by
    rw [step]
    exact handle_same rfl hslave hread
  simp only [pull, run, Pull.actions, List.foldl_cons, List.foldl_nil, Observed.step,
    step_call hidle, hchecksum]
  rw [step_read_idle rfl]
  exact ⟨⟨rfl, hslave⟩, rfl, rfl, rfl⟩

variable (crc8 M) in
/-- While the slave holds on to a matrix, a forced read brings the copy of the master up to date. -/
theorem throttled_pull : Throttled (2 ^ 32) 100 (Holds crc8 M) (fun _ => True) (pull crc8)
    (fun p => p.now) (fun o => o.state.lastUpdate.toNat)
    (fun o => o.state.masterShmem.matrix = M) where
  inv_poll := by
    intro o p h _
    by_cases hread : 100 ≤ UInt32.ofNat p.now - o.state.lastUpdate ∨
        crc8 M ≠ crc8 o.state.masterShmem.matrix
    · exact (pull_of_reads h hread).1
    · exact (pull_of_same h hread).1
  done_of_late := by
    intro o p h _ hlate
    exact (pull_of_reads h (.inl (late_iff.2 hlate))).2.2
  done_poll := by
    intro o p h _ hdone
    by_cases hread : 100 ≤ UInt32.ofNat p.now - o.state.lastUpdate ∨
        crc8 M ≠ crc8 o.state.masterShmem.matrix
    · exact (pull_of_reads h hread).2.2
    · exact (pull_of_same h hread).2.2.1.trans hdone
  done_or_last := by
    intro o p h _
    by_cases hread : 100 ≤ UInt32.ofNat p.now - o.state.lastUpdate ∨
        crc8 M ≠ crc8 o.state.masterShmem.matrix
    · exact .inl (pull_of_reads h hread).2.2
    · exact .inr (congrArg _ (pull_of_same h hread).2.2.2)

theorem delivered_pull (h : Holds crc8 M o) :
    (pull crc8 o p).delivered = (pull crc8 o p).state.masterShmem.matrix := by
  by_cases hread : 100 ≤ UInt32.ofNat p.now - o.state.lastUpdate ∨
      crc8 M ≠ crc8 o.state.masterShmem.matrix
  · obtain ⟨-, hdelivered, hmaster⟩ := pull_of_reads h hread
    rw [hdelivered, hmaster]
  · exact (pull_of_same h hread).2.1

def Action.ofMaster : Action rows w C → Bool
  | .publish _ => false
  | _ => true

theorem step_ofMaster {s : State rows w C} {a : Action rows w C} (ha : a.ofMaster = true) :
    (step crc8 s a).1.slaveShmem = s.slaveShmem := by
  cases a with
  | publish matrix => cases ha
  | call =>
    rw [step]
    cases s.handler <;> rfl
  | read now link => exact (handle_outcome crc8 s now link).1

/-- The slave can publish the matrix once more at any moment. -/
theorem run_filter {o' : Observed rows w C} {actions : List (Action rows w C)}
    (hslave : o.state.slaveShmem = ⟨crc8 M, M⟩) (hstate : o.state = o'.state)
    (hdelivered : o.delivered = o'.delivered) (hM : ∀ m, .publish m ∈ actions → m = M) :
    (run crc8 o actions).delivered =
      (run crc8 o' (actions.filter Action.ofMaster)).delivered := by
  induction actions generalizing o o' with
  | nil => exact hdelivered
  | cons a actions ih =>
    have hrest : ∀ m, .publish m ∈ actions → m = M := fun m hm => hM m (List.mem_cons_of_mem _ hm)
    by_cases ha : a.ofMaster = true
    · rw [List.filter_cons_of_pos ha]
      refine @ih (o.step crc8 a) (o'.step crc8 a) ?_ ?_ ?_ hrest
      · exact (step_ofMaster ha).trans hslave
      · simp only [Observed.step, hstate]
      · simp only [Observed.step, hstate, hdelivered]
    · rw [List.filter_cons_of_neg ha]
      cases a with
      | publish m =>
        obtain rfl := hM m (List.mem_cons_self ..)
        refine ih (o := o.step crc8 (.publish m)) rfl ?_ hdelivered hrest
        simp only [Observed.step, step, ← hstate, ← hslave]
      | call => exact absurd rfl ha
      | read now link => exact absurd rfl ha

/-- While the slave holds on to a matrix and the link works, each call that reads the checksum a
throttle time after the first one delivers the matrix, whatever the copy of the master was. -/
theorem matrix_follows {actions : List (Action rows w C)} (h : Holds crc8 M o)
    (hM : ∀ m, .publish m ∈ actions → m = M)
    (hpulls : actions.filter Action.ofMaster =
      (first :: (pulls ++ [last])).flatMap Pull.actions)
    (htimes : (first :: (pulls ++ [last])).IsChain fun p q => Soon (2 ^ 32) 100 p.now q.now)
    (hlate : first.now + 100 ≤ last.now) :
    (run crc8 o actions).delivered = M := by
  have hrun : run crc8 o ((first :: (pulls ++ [last])).flatMap Pull.actions) =
      (first :: (pulls ++ [last])).foldl (pull crc8) o := by
    rw [run, List.foldl_flatMap]
    rfl
  have hthrottled := throttled_pull crc8 M
  have hdone := hthrottled.done_foldl h (fun _ _ => trivial) htimes hlate
  rw [run_filter h.slave rfl rfl hM, hpulls, hrun]
  rw [← List.cons_append, List.foldl_append] at hdone ⊢
  exact (delivered_pull (hthrottled.inv_foldl h fun _ _ => trivial)).trans hdone

/-- `crc8` of a matrix with two rows of eight columns. -/
def crcRows (matrix : Matrix 2 8) : UInt8 := 
  EncoderSplit.crc8 [⟨matrix ⟨0, Nat.two_pos⟩⟩, ⟨matrix ⟨1, Nat.one_lt_two⟩⟩]

/-- Four keys have the checksum of no keys, and the master finds out with the forced read. -/
theorem matrix_follows_collision :
    let four : Matrix 2 8 := ![1, 49]
    let o : Observed 2 8 UInt8 := { state := boot ⟨crcRows four, four⟩ ⟨crcRows 0, 0⟩ }
    let early := Pull.actions ⟨60, 61⟩
    (run crcRows o early).delivered = 0 ∧
      (run crcRows o (early ++ .publish four :: Pull.actions ⟨160, 161⟩)).delivered = four := by
  refine ⟨by decide +kernel, ?_⟩
  exact @matrix_follows _ _ _ _ _ _ _ ⟨60, 61⟩ ⟨160, 161⟩ [] _ ⟨rfl, rfl⟩ (by simp [Pull.actions])
    rfl (by decide) (by decide)

end Qmk.SlaveMatrix
