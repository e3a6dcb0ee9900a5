import Qmk.EncoderSplit

/-! # The matrix of the slave half

The slave publishes its matrix with a checksum in the memory that it shares with the master. The
master reads the checksum and, if that differs from its copy or after some time, the matrix. The
slave may publish in between, and a read that fails leaves anything in the copy.
-/

namespace Qmk.SlaveMatrix

/-- The rows of a half. -/
abbrev Matrix (rows w : ℕ) := Fin rows → BitVec w

/-- `split_slave_matrix_sync_t`. -/
structure Shmem (rows w : ℕ) (C : Type*) where
  checksum : C
  matrix : Matrix rows w

/-- Where `slave_matrix_handlers_master` is: not called, or in front of one of its reads. -/
inductive Handler (C : Type*)
  | idle
  | checksum
  | retrieve (currChecksum : C)

/-- Both halves. The matrix of the caller is what the last call has copied out. -/
structure State (rows w : ℕ) (C : Type*) where
  slaveShmem : Shmem rows w C
  masterShmem : Shmem rows w C
  handler : Handler C := .idle
  lastUpdate : UInt32 := 0
  lastMatrix : Matrix rows w := fun _ => 0#w
  slaveMatrix : Matrix rows w := fun _ => 0#w

/-- The outcome of a read, with what a failed one has left in the memory of the master. -/
inductive Link (rows w : ℕ) (C : Type*)
  | ok
  | failed (left : Shmem rows w C)

/-- What the two halves do: the slave publishes, the master calls the handler, and the handler goes
on up to the end of its next read. -/
inductive Action (rows w : ℕ) (C : Type*)
  | publish (matrix : Matrix rows w)
  | call
  | read (now : UInt32) (link : Link rows w C)

section Model

variable {rows w : ℕ} {C : Type*}

/-- The end of a call, where `tempMatrix` is what `read_if_checksum_mismatch` has delivered. -/
def State.finish (s : State rows w C) (okay : Bool) (tempMatrix : Matrix rows w) :
    State rows w C × Option Bool :=
  let lastMatrix := if okay then tempMatrix else s.lastMatrix
  ({ s with handler := .idle, lastMatrix, slaveMatrix := lastMatrix }, some okay)

variable [DecidableEq C] (crc8 : Matrix rows w → C)

/-- `slave_matrix_handlers_master` up to the end of its next read, and what it returns if that was
the last one. -/
def State.handle (s : State rows w C) (now : UInt32) (link : Link rows w C) :
    State rows w C × Option Bool :=
  match s.handler with
  | .idle => (s, none)
  | .checksum =>
    match link with
    | .failed left => { s with masterShmem := left }.finish false left.matrix
    | .ok =>
      let currChecksum := s.slaveShmem.checksum
      let s := { s with masterShmem := { s.masterShmem with checksum := currChecksum } }
      -- FORCED_SYNC_THROTTLE_MS
      if 100 ≤ now - s.lastUpdate ∨ currChecksum ≠ crc8 s.masterShmem.matrix then
        ({ s with handler := .retrieve currChecksum }, none)
      else s.finish true s.masterShmem.matrix
  | .retrieve currChecksum =>
    match link with
    | .failed left => { s with masterShmem := left }.finish false left.matrix
    | .ok =>
      let matrix := s.slaveShmem.matrix
      let s := { s with masterShmem := { s.masterShmem with matrix } }
      if currChecksum = crc8 matrix then { s with lastUpdate := now }.finish true matrix
      else s.finish false matrix

def step (s : State rows w C) : Action rows w C → State rows w C × Option Bool
  | .publish matrix =>
    -- slave_matrix_handlers_slave
    ({ s with slaveShmem := ⟨crc8 matrix, matrix⟩ }, none)
  | .call =>
    match s.handler with
    | .idle => ({ s with handler := .checksum }, none)
    | _ => (s, none)
  | .read now link => s.handle crc8 now link

def boot (slaveShmem masterShmem : Shmem rows w C) : State rows w C :=
  { slaveShmem, masterShmem }

end Model

section History

variable {rows w : ℕ} {C : Type*} [DecidableEq C] (crc8 : Matrix rows w → C)

/-- A state with what is observed of it: the matrices that were published at the moments since the
last call began, what a call has returned in the last step, and what the last call that returned
true has delivered. -/
structure Observed (rows w : ℕ) (C : Type*) where
  state : State rows w C
  moments : List (Matrix rows w) := []
  returned : Option Bool := none
  delivered : Matrix rows w := fun _ => 0#w

def Observed.step (o : Observed rows w C) (a : Action rows w C) : Observed rows w C :=
  let (state, returned) := SlaveMatrix.step crc8 o.state a
  let begins := match o.state.handler, a with
    | .idle, .call => true
    | _, _ => false
  { state, returned
    moments := (if begins then [] else o.moments) ++ [state.slaveShmem.matrix]
    delivered := if returned = some true then state.slaveMatrix else o.delivered }

def run (o : Observed rows w C) (actions : List (Action rows w C)) : Observed rows w C :=
  actions.foldl (Observed.step crc8) o

/-- A call that returns true gives a matrix that was published at some moment during it, one that
returns false gives what the last one has delivered that returned true. -/
structure Consistent (o : Observed rows w C) : Prop where
  fresh : o.returned = some true → o.state.slaveMatrix ∈ o.moments
  kept : o.returned = some false → o.state.slaveMatrix = o.delivered

end History

section Invariant

variable {rows w : ℕ} {C : Type*} [DecidableEq C] {crc8 : Matrix rows w → C}

def Published (crc8 : Matrix rows w → C) (s : State rows w C) : Prop :=
  s.slaveShmem.checksum = crc8 s.slaveShmem.matrix

/-- What a step of the master can do: it goes on with the call, or the call fails, or it ends with
the matrix of the slave or with one that has its checksum. -/
inductive Outcome (crc8 : Matrix rows w → C) (s t : State rows w C) : Option Bool → Prop
  | goesOn (hlast : t.lastMatrix = s.lastMatrix) : Outcome crc8 s t none
  | fails (hlast : t.lastMatrix = s.lastMatrix) (hslave : t.slaveMatrix = s.lastMatrix) :
      Outcome crc8 s t (some false)
  | succeeds (hslave : t.slaveMatrix = t.lastMatrix)
      (hlast : t.lastMatrix = s.slaveShmem.matrix ∨ s.slaveShmem.checksum = crc8 t.lastMatrix) :
      Outcome crc8 s t (some true)

variable (crc8) in
theorem handle_outcome (s : State rows w C) (now : UInt32) (link : Link rows w C) :
    (s.handle crc8 now link).1.slaveShmem = s.slaveShmem ∧
      Outcome crc8 s (s.handle crc8 now link).1 (s.handle crc8 now link).2 := by
  unfold State.handle
  cases s.handler with
  | idle => exact ⟨rfl, .goesOn rfl⟩
  | checksum =>
    cases link with
    | failed left => exact ⟨rfl, .fails rfl rfl⟩
    | ok =>
      dsimp only
      split_ifs with hread
      · exact ⟨rfl, .goesOn rfl⟩
      · obtain ⟨-, hequal⟩ := not_or.mp hread
        exact ⟨rfl, .succeeds rfl (.inr (not_not.mp hequal))⟩
  | retrieve currChecksum =>
    cases link with
    | failed left => exact ⟨rfl, .fails rfl rfl⟩
    | ok =>
      dsimp only
      split_ifs with hequal
      · exact ⟨rfl, .succeeds rfl (.inl rfl)⟩
      · exact ⟨rfl, .fails rfl rfl⟩

variable (crc8) in
theorem step_outcome (s : State rows w C) (a : Action rows w C) :
    (Published crc8 s → Published crc8 (step crc8 s a).1) ∧
      ((step crc8 s a).1.slaveShmem = s.slaveShmem ∨ (step crc8 s a).2 = none) ∧
      Outcome crc8 s (step crc8 s a).1 (step crc8 s a).2 := by
  cases a with
  | publish matrix => exact ⟨fun _ => rfl, .inr rfl, .goesOn rfl⟩
  | call =>
    rw [step]
    cases s.handler <;> exact ⟨id, .inr rfl, .goesOn rfl⟩
  | read now link =>
    obtain ⟨hshmem, houtcome⟩ := handle_outcome crc8 s now link
    rw [step]
    exact ⟨fun h => by rwa [Published, hshmem], .inl hshmem, houtcome⟩

theorem step_delivered {o : Observed rows w C} (h : o.state.lastMatrix = o.delivered)
    (a : Action rows w C) :
    (o.step crc8 a).state.lastMatrix = (o.step crc8 a).delivered := by
  obtain ⟨-, -, houtcome⟩ := step_outcome crc8 o.state a
  simp only [Observed.step]
  revert houtcome
  generalize step crc8 o.state a = r
  intro houtcome
  obtain ⟨t, returned⟩ := r
  cases houtcome with
  | goesOn hlast => simpa using hlast.trans h
  | fails hlast _ => simpa using hlast.trans h
  | succeeds hslave _ => simpa using hslave.symm

/-- With the checksum of the published matrix a call that succeeds gives that matrix. -/
theorem step_consistent (hinj : Function.Injective crc8) {o : Observed rows w C}
    (hpublished : Published crc8 o.state) (h : o.state.lastMatrix = o.delivered)
    (a : Action rows w C) : Consistent (o.step crc8 a) := by
  obtain ⟨-, hshmem, houtcome⟩ := step_outcome crc8 o.state a
  simp only [Observed.step]
  revert hshmem houtcome
  generalize step crc8 o.state a = r
  intro hshmem houtcome
  obtain ⟨t, returned⟩ := r
  cases houtcome with
  | goesOn hlast => exact ⟨by simp, by simp⟩
  | fails hlast hslave => exact ⟨by simp, fun _ => by simpa using hslave.trans h⟩
  | succeeds hslave hlast =>
    refine ⟨fun _ => ?_, by simp⟩
    have hsame := hshmem.resolve_right (by simp)
    have hmatrix : t.lastMatrix = o.state.slaveShmem.matrix :=
      hlast.elim id fun hchecksum => (hinj (hpublished.symm.trans hchecksum)).symm
    dsimp only at hsame ⊢
    rw [hsame, hslave, hmatrix]
    exact List.mem_append_right _ (List.mem_singleton_self _)

variable (crc8) in
theorem run_delivered {o : Observed rows w C} (h : o.state.lastMatrix = o.delivered)
    (actions : List (Action rows w C)) :
    (run crc8 o actions).state.lastMatrix = (run crc8 o actions).delivered := by
  induction actions generalizing o with
  | nil => exact h
  | cons a actions ih => exact ih (step_delivered h a)

theorem run_published (hinj : Function.Injective crc8) {o : Observed rows w C}
    (hpublished : Published crc8 o.state) (h : o.state.lastMatrix = o.delivered)
    (hconsistent : Consistent o) (actions : List (Action rows w C)) :
    Consistent (run crc8 o actions) := by
  induction actions generalizing o with
  | nil => exact hconsistent
  | cons a actions ih =>
    exact ih ((step_outcome crc8 o.state a).1 hpublished) (step_delivered h a)
      (step_consistent hinj hpublished h a)

/-- From the first publication on, each call is consistent, however the publications and the reads
come one after the other. -/
theorem run_consistent (hinj : Function.Injective crc8) (slaveShmem masterShmem : Shmem rows w C)
    (before after : List (Action rows w C)) (matrix : Matrix rows w) :
    Consistent (run crc8 { state := boot slaveShmem masterShmem }
      (before ++ .publish matrix :: after)) := by
  have hboot : (boot slaveShmem masterShmem).lastMatrix = fun _ => 0#w := rfl
  have hbefore := @run_delivered rows w C _ crc8 { state := boot slaveShmem masterShmem }
    hboot before
  set o := run crc8 { state := boot slaveShmem masterShmem } before with ho
  have hsplit : run crc8 { state := boot slaveShmem masterShmem }
      (before ++ .publish matrix :: after) =
        run crc8 (o.step crc8 (.publish matrix)) after := by
    rw [run, List.foldl_append]
    rfl
  have hpublished : Published crc8 (o.step crc8 (.publish matrix)).state := rfl
  rw [hsplit]
  exact run_published hinj hpublished (step_delivered hbefore _)
    ⟨by simp [Observed.step, step], by simp [Observed.step, step]⟩ after

end Invariant

section Byte

open EncoderSplit

/-- `crc8` of a matrix with one row of eight columns. -/
def crcByte (matrix : Matrix 1 8) : UInt8 := EncoderSplit.crc8 [⟨matrix 0⟩]

def crcUnbit (crc : UInt8) : UInt8 :=
  if crc &&& 1 ≠ 0 then ((crc ^^^ 0x31) >>> 1) ||| 0x80 else crc >>> 1

theorem crcBit_injective : Function.Injective crcBit := by
  have hinverse : ∀ d : Fin 256, crcUnbit (crcBit (.ofFin d)) = .ofFin d := by decide +kernel
  exact Function.LeftInverse.injective fun d => hinverse d.toFin

theorem crcByte_injective : Function.Injective crcByte := by
  intro m m' h
  have hxor : (0xFF : UInt8) ^^^ ⟨m 0⟩ = 0xFF ^^^ ⟨m' 0⟩ := crcBit_injective.iterate 8 h
  have hrow : m 0 = m' 0 := by
    have hbits := congrArg UInt8.toBitVec hxor
    simpa using hbits
  funext i
  rw [Subsingleton.elim i 0, hrow]

/-- The slave publishes between the two reads of a call. -/
theorem run_crcByte :
    Consistent (run crcByte { state := boot ⟨0, fun _ => 0#8⟩ ⟨0, fun _ => 0#8⟩ }
      ([] ++ .publish (fun _ => 1) ::
        [.call, .read 200 .ok, .publish (fun _ => 3), .read 201 .ok])) :=
  run_consistent crcByte_injective _ _ _ _ _

end Byte

end Qmk.SlaveMatrix
