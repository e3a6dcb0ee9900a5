import Mathlib.Algebra.Group.Nat.Defs
import Mathlib.Data.List.Induction
import Qmk.Monitor
import Qmk.Sweep

/-! # The step sequencer

`quantum/sequencer/sequencer.c` in a build with MIDI. The tracks of a step are played one after
another in the attack phase and released in the opposite order in the release phase; both phases
look up the step and the note of the track again. The MIDI messages are collected in a log.
-/

namespace Qmk.Sequencer

/-- The build, with `midi_config.octave` and `midi_config.transpose`. There are at most 255 steps
and 8 tracks. -/
structure Config where
  steps : ℕ := 16
  tracks : ℕ := 8
  trackThrottle : ℕ := 3
  phaseReleaseTimeout : ℕ := 30
  octave : BitVec 8 := 0
  transpose : BitVec 8 := 0

inductive Phase | attack | release | pause
  deriving DecidableEq, Repr

inductive Midi
  | noteOn (note : BitVec 8)
  | noteOff (note : BitVec 8)
  deriving DecidableEq, Repr

/-- `sequencer_config` and `sequencer_internal_state` with their initial values, and what has been
sent, oldest first. -/
structure State where
  enabled : Bool := false
  steps : ℕ → BitVec 8 := fun _ => 0
  trackNotes : ℕ → BitVec 16 := fun _ => 0
  tempo : BitVec 8 := 60
  resolution : ℕ := 2
  activeTracks : BitVec 8 := 0
  currentTrack : ℕ := 0
  currentStep : ℕ := 0
  timer : BitVec 16 := 0
  phase : Phase := .attack
  log : List Midi := []

/-- `midi_compute_note`; the first tone is `QK_MIDI_NOTE_C_0`. -/
def Config.midiComputeNote (cfg : Config) (keycode : BitVec 16) : BitVec 8 :=
  12 * cfg.octave + (keycode - 0x7103).setWidth 8 + cfg.transpose

variable (cfg : Config)

section Edits

def isTrackActive (track : ℕ) (s : State) : Bool := s.activeTracks.getLsbD track

def setTrackActivation (track : ℕ) (value : Bool) (s : State) : State :=
  if value then { s with activeTracks := s.activeTracks ||| bitMask 8 track }
  else { s with activeTracks := s.activeTracks &&& ~~~bitMask 8 track }

def toggleTrackActivation (track : ℕ) (s : State) : State :=
  setTrackActivation track (!isTrackActive track s) s

def toggleSingleActiveTrack (track : ℕ) (s : State) : State :=
  if isTrackActive track s then { s with activeTracks := 0 }
  else { s with activeTracks := bitMask 8 track }

def setTrackNotes (notes : ℕ → BitVec 16) (s : State) : State :=
  { s with trackNotes := fun i => if i < cfg.tracks then notes i else s.trackNotes i }

def isStepOn (step : ℕ) (s : State) : Bool :=
  step < cfg.steps ∧ s.steps step &&& s.activeTracks ≠ 0

def isStepOnForTrack (step track : ℕ) (s : State) : Bool :=
  step < cfg.steps ∧ (s.steps step).getLsbD track = true

def editStep (value : Bool) (activeTracks tracks : BitVec 8) : BitVec 8 :=
  if value then tracks ||| activeTracks else tracks &&& ~~~activeTracks

def setStep (step : ℕ) (value : Bool) (s : State) : State :=
  if step < cfg.steps then
    { s with steps := Function.update s.steps step (editStep value s.activeTracks (s.steps step)) }
  else s

def toggleStep (step : ℕ) (s : State) : State := setStep cfg step (!isStepOn cfg step s) s

def setAllSteps (value : Bool) (s : State) : State :=
  { s with steps := fun step =>
      if step < cfg.steps then editStep value s.activeTracks (s.steps step) else s.steps step }

def setTempo (tempo : BitVec 8) (s : State) : State :=
  if tempo ≠ 0 then { s with tempo := tempo } else s

def increaseTempo (s : State) : State := if s.tempo < 255 then setTempo (s.tempo + 1) s else s

def decreaseTempo (s : State) : State := setTempo (s.tempo - 1) s

def setResolution (resolution : ℤ) (s : State) : State :=
  if 0 ≤ resolution ∧ resolution < 9 then { s with resolution := resolution.toNat } else s

def increaseResolution (s : State) : State := setResolution (s.resolution + 1) s

def decreaseResolution (s : State) : State := setResolution (s.resolution - 1) s

end Edits

section Playing

def getBeatDuration (tempo : BitVec 8) : ℕ :=
  if tempo = 0 then 60000 / 60 else 60000 / tempo.toNat

def getStepDuration (tempo : BitVec 8) (resolution : ℕ) : ℕ :=
  let binarySteps := 2 <<< (resolution / 2)
  let binaryStepDuration := getBeatDuration tempo * 4 / binarySteps % 2 ^ 16
  if resolution % 2 = 0 then binaryStepDuration else 2 * binaryStepDuration / 3

def sequencerOn (now : BitVec 16) (s : State) : State :=
  { s with enabled := true, currentTrack := 0, currentStep := 0, timer := now, phase := .attack }

def sequencerOff (s : State) : State := { s with enabled := false, currentStep := 0 }

def sequencerToggle (now : BitVec 16) (s : State) : State :=
  if s.enabled then sequencerOff s else sequencerOn now s

def note (track : ℕ) (s : State) : BitVec 8 := cfg.midiComputeNote (s.trackNotes track)

/-- A message for the current track, if the step is on for it. -/
def send (message : BitVec 8 → Midi) (s : State) : State :=
  if isStepOnForTrack cfg s.currentStep s.currentTrack s then
    { s with log := s.log ++ [message (note cfg s.currentTrack s)] }
  else s

/-- `timer_elapsed(sequencer_internal_state.timer)`. -/
def elapsed (now : BitVec 16) (s : State) : ℕ := (now - s.timer).toNat

def phaseAttack (now : BitVec 16) (s : State) : State :=
  let s := if s.currentTrack = 0 then { s with timer := now } else s
  if elapsed now s < s.currentTrack * cfg.trackThrottle then s
  else
    let s := send cfg .noteOn s
    if s.currentTrack < cfg.tracks - 1 then { s with currentTrack := s.currentTrack + 1 }
    else { s with phase := .release }

def phaseRelease (now : BitVec 16) (s : State) : State :=
  if elapsed now s < cfg.phaseReleaseTimeout + s.currentTrack * cfg.trackThrottle then s
  else
    let s := send cfg .noteOff s
    if 0 < s.currentTrack then { s with currentTrack := s.currentTrack - 1 }
    else { s with phase := .pause }

def phasePause (now : BitVec 16) (s : State) : State :=
  if elapsed now s < getStepDuration s.tempo s.resolution then s
  else { s with currentStep := (s.currentStep + 1) % cfg.steps, phase := .attack }

def sequencerTask (now : BitVec 16) (s : State) : State :=
  if s.enabled then
    let s := if s.phase = .pause then phasePause cfg now s else s
    let s := if s.phase = .release then phaseRelease cfg now s else s
    if s.phase = .attack then phaseAttack cfg now s else s
  else s

/-- The calls, with what `timer_read` returns. -/
inductive Action
  | on (now : BitVec 16)
  | off
  | toggle (now : BitVec 16)
  | task (now : BitVec 16)
  | setTrackNotes (notes : ℕ → BitVec 16)
  | setTrackActivation (track : ℕ) (value : Bool)
  | toggleTrackActivation (track : ℕ)
  | toggleSingleActiveTrack (track : ℕ)
  | setStep (step : ℕ) (value : Bool)
  | toggleStep (step : ℕ)
  | setAllSteps (value : Bool)
  | setTempo (tempo : BitVec 8)
  | increaseTempo
  | decreaseTempo
  | setResolution (resolution : ℤ)
  | increaseResolution
  | decreaseResolution

def step (s : State) : Action → State
  | .on now => sequencerOn now s
  | .off => sequencerOff s
  | .toggle now => sequencerToggle now s
  | .task now => sequencerTask cfg now s
  | .setTrackNotes notes => setTrackNotes cfg notes s
  | .setTrackActivation track value => setTrackActivation track value s
  | .toggleTrackActivation track => toggleTrackActivation track s
  | .toggleSingleActiveTrack track => toggleSingleActiveTrack track s
  | .setStep step value => setStep cfg step value s
  | .toggleStep step => toggleStep cfg step s
  | .setAllSteps value => setAllSteps cfg value s
  | .setTempo tempo => setTempo tempo s
  | .increaseTempo => increaseTempo s
  | .decreaseTempo => decreaseTempo s
  | .setResolution resolution => setResolution resolution s
  | .increaseResolution => increaseResolution s
  | .decreaseResolution => decreaseResolution s

def run (s : State) (actions : List Action) : State := actions.foldl (step cfg) s

end Playing

section Specification

/-- A note-on for `n` has not been followed by a note-off. -/
def Hangs (log : List Midi) (n : BitVec 8) : Prop :=
  ∃ pre post, log = pre ++ .noteOn n :: post ∧ .noteOff n ∉ post

/-- No note hangs while the sequencer is off or in the pause phase. -/
def QuietWhenIdle (s : State) : Prop :=
  s.enabled = false ∨ s.phase = .pause → ∀ n, ¬ Hangs s.log n

/-- The tracks that have had their attack in this step and not their release. -/
def Due (s : State) (track : ℕ) : Prop :=
  s.enabled = true ∧
    match s.phase with
    | .attack => track < s.currentTrack
    | .release => track ≤ s.currentTrack
    | .pause => False

/-- Some track is still going to release note `n`, and `kept` says which tracks count. -/
def Releases (kept : ℕ → Prop) (notes : ℕ → BitVec 16) (s : State) (n : BitVec 8) : Prop :=
  ∃ track, Due s track ∧ kept track ∧ isStepOnForTrack cfg s.currentStep track s = true ∧
    cfg.midiComputeNote (notes track) = n

/-- `track` stays on when the active tracks of a step are switched off. -/
def KeepsOn (s : State) (cleared : ℕ → Prop) (track : ℕ) : Prop :=
  ¬ (cleared s.currentStep ∧ isTrackActive track s = true)

/-- The runs in which the sequencer is started and stopped while no note sounds, and no edit takes
away the last track that is going to release a note that sounds. -/
def careful : Monitor Action State where
  next := step cfg
  ok s
    | .on _ => ∀ n, ¬ Hangs s.log n
    | .off => ∀ n, ¬ Hangs s.log n
    | .toggle _ => ∀ n, ¬ Hangs s.log n
    | .setTrackNotes notes => ∀ n, Hangs s.log n →
      Releases cfg (fun _ => True) (fun i => if i < cfg.tracks then notes i else s.trackNotes i) s n
    | .setStep step value => value = false → ∀ n, Hangs s.log n →
      Releases cfg (KeepsOn s (· = step)) s.trackNotes s n
    | .toggleStep step => isStepOn cfg step s = true → ∀ n, Hangs s.log n →
      Releases cfg (KeepsOn s (· = step)) s.trackNotes s n
    | .setAllSteps value => value = false → ∀ n, Hangs s.log n →
      Releases cfg (KeepsOn s fun _ => True) s.trackNotes s n
    | _ => True

end Specification

section Messages

theorem hangs_append_singleton (log : List Midi) (e : Midi) (n : BitVec 8) :
    Hangs (log ++ [e]) n ↔ e = .noteOn n ∨ (Hangs log n ∧ e ≠ .noteOff n) := by
  constructor
  · rintro ⟨pre, post, heq, hpost⟩
    cases post using List.reverseRecOn with
    | nil => exact Or.inl (List.append_inj' heq rfl |>.2 |> List.singleton_inj.mp)
    | append_singleton post last =>
      rw [← List.cons_append, ← List.append_assoc] at heq
      obtain ⟨rfl, hlast⟩ := List.append_inj' heq rfl
      obtain rfl := List.singleton_inj.mp hlast
      rw [List.mem_append, not_or] at hpost
      exact Or.inr ⟨⟨pre, post, rfl, hpost.1⟩, fun heq => hpost.2 (by simp [heq])⟩
  · rintro (rfl | ⟨⟨pre, post, rfl, hpost⟩, hne⟩)
    · exact ⟨log, [], rfl, List.not_mem_nil⟩
    · refine ⟨pre, post ++ [e], by simp, ?_⟩
      rw [List.mem_append, not_or]
      exact ⟨hpost, by simpa using hne.symm⟩

@[simp] theorem not_hangs_nil (n : BitVec 8) : ¬ Hangs [] n := by
  rintro ⟨pre, post, heq, -⟩
  simp at heq

end Messages

section Invariant

variable {cfg} {s t : State}

/-- Every note that sounds is still going to be released. -/
def Tended (cfg : Config) (s : State) : Prop :=
  ∀ n, Hangs s.log n → Releases cfg (fun _ => True) s.trackNotes s n

theorem tended_of_silent (h : ∀ n, ¬ Hangs s.log n) : Tended cfg s :=
  fun n hn => absurd hn (h n)

theorem Tended.quietWhenIdle (h : Tended cfg s) : QuietWhenIdle s := by
  rintro hidle n hn
  obtain ⟨track, ⟨henabled, hphase⟩, -⟩ := h n hn
  rcases hidle with hoff | hpause
  · exact absurd (henabled.symm.trans hoff) (by decide)
  · rwa [hpause] at hphase

/-- What `Tended` depends on, besides the steps and the notes. -/
structure SameTracks (s t : State) : Prop where
  enabled : t.enabled = s.enabled
  phase : t.phase = s.phase
  currentTrack : t.currentTrack = s.currentTrack
  currentStep : t.currentStep = s.currentStep
  log : t.log = s.log

theorem SameTracks.due (h : SameTracks s t) {track : ℕ} (hdue : Due s track) : Due t track := by
  rw [Due, h.enabled, h.phase, h.currentTrack]
  exact hdue

theorem SameTracks.tended (h : SameTracks s t) {kept : ℕ → Prop} {notes : ℕ → BitVec 16}
    (hkept : ∀ n, Hangs s.log n → Releases cfg kept notes s n) (hnotes : t.trackNotes = notes)
    (hsteps : ∀ track, kept track → isStepOnForTrack cfg s.currentStep track s = true →
      isStepOnForTrack cfg s.currentStep track t = true) : Tended cfg t := by
  rintro n hn
  rw [h.log] at hn
  obtain ⟨track, hdue, hkeep, hon, hnote⟩ := hkept n hn
  refine ⟨track, h.due hdue, trivial, ?_, ?_⟩
  · rw [h.currentStep]
    exact hsteps track hkeep hon
  · rw [hnotes, hnote]

/-- Only the active tracks, the tempo, the resolution and the timer differ. -/
structure Untouched (s t : State) : Prop extends SameTracks s t where
  steps : t.steps = s.steps
  trackNotes : t.trackNotes = s.trackNotes

theorem Untouched.tended (h : Untouched s t) (hs : Tended cfg s) : Tended cfg t := by
  apply h.toSameTracks.tended hs h.trackNotes
  rintro track - hon
  rwa [isStepOnForTrack, h.steps]

theorem untouched_setTrackActivation (track : ℕ) (value : Bool) :
    Untouched s (setTrackActivation track value s) := by
  unfold setTrackActivation
  split_ifs <;> exact ⟨⟨rfl, rfl, rfl, rfl, rfl⟩, rfl, rfl⟩

theorem untouched_toggleSingleActiveTrack (track : ℕ) :
    Untouched s (toggleSingleActiveTrack track s) := by
  unfold toggleSingleActiveTrack
  split_ifs <;> exact ⟨⟨rfl, rfl, rfl, rfl, rfl⟩, rfl, rfl⟩

theorem untouched_setTempo (tempo : BitVec 8) : Untouched s (setTempo tempo s) := by
  unfold setTempo
  split_ifs <;> exact ⟨⟨rfl, rfl, rfl, rfl, rfl⟩, rfl, rfl⟩

theorem untouched_increaseTempo : Untouched s (increaseTempo s) := by
  unfold increaseTempo
  split_ifs
  · exact untouched_setTempo _
  · exact ⟨⟨rfl, rfl, rfl, rfl, rfl⟩, rfl, rfl⟩

theorem untouched_setResolution (resolution : ℤ) : Untouched s (setResolution resolution s) := by
  unfold setResolution
  split_ifs <;> exact ⟨⟨rfl, rfl, rfl, rfl, rfl⟩, rfl, rfl⟩

theorem getLsbD_editStep_true (active tracks : BitVec 8) {track : ℕ}
    (h : tracks.getLsbD track = true) : (editStep true active tracks).getLsbD track = true := by
  simp [editStep, h]

theorem getLsbD_editStep_false {active tracks : BitVec 8} {track : ℕ}
    (h : tracks.getLsbD track = true) (hactive : active.getLsbD track = false) :
    (editStep false active tracks).getLsbD track = true := by
  have htrack : track < 8 := BitVec.lt_of_getLsbD h
  rw [editStep, if_neg (by decide), BitVec.getLsbD_and, BitVec.getLsbD_not, h, hactive]
  simp [htrack]

theorem isStepOnForTrack_iff {step track : ℕ} : isStepOnForTrack cfg step track s = true ↔
    step < cfg.steps ∧ (s.steps step).getLsbD track = true := by
  rw [isStepOnForTrack, decide_eq_true_iff]

structure Edits (cfg : Config) (s t : State) (value : Bool) (edited : ℕ → Prop) : Prop where
  same : SameTracks s t
  notes : t.trackNotes = s.trackNotes
  steps : ∀ step < cfg.steps, edited step →
    t.steps step = editStep value s.activeTracks (s.steps step)
  others : ∀ step, ¬ edited step → t.steps step = s.steps step

variable {value : Bool} {edited : ℕ → Prop}

theorem Edits.isStepOnForTrack (h : Edits cfg s t value edited) {track : ℕ}
    (hkept : value = true ∨ KeepsOn s edited track)
    (hon : isStepOnForTrack cfg s.currentStep track s = true) :
    isStepOnForTrack cfg s.currentStep track t = true := by
  rw [isStepOnForTrack_iff] at hon ⊢
  obtain ⟨hlt, hbit⟩ := hon
  refine ⟨hlt, ?_⟩
  by_cases hedited : edited s.currentStep
  · rw [h.steps _ hlt hedited]
    cases value with
    | true => exact getLsbD_editStep_true _ _ hbit
    | false =>
      have hinactive : s.activeTracks.getLsbD track = false := by
        rcases hkept with h | h
        · exact absurd h (by decide)
        · exact eq_false_of_ne_true fun hactive => h ⟨hedited, hactive⟩
      exact getLsbD_editStep_false hbit hinactive
  · rwa [h.others _ hedited]

theorem Edits.tended (h : Edits cfg s t value edited) (hs : Tended cfg s)
    (hkept : value = false → ∀ n, Hangs s.log n →
      Releases cfg (KeepsOn s edited) s.trackNotes s n) : Tended cfg t := by
  cases value with
  | true => exact h.same.tended hs h.notes fun _ _ => h.isStepOnForTrack (Or.inl rfl)
  | false => exact h.same.tended (hkept rfl) h.notes fun _ hk => h.isStepOnForTrack (Or.inr hk)

theorem tended_setStep (hs : Tended cfg s) (step : ℕ) (value : Bool)
    (hkept : value = false → ∀ n, Hangs s.log n →
      Releases cfg (KeepsOn s (· = step)) s.trackNotes s n) :
    Tended cfg (setStep cfg step value s) := by
  unfold setStep
  split_ifs
  · apply Edits.tended _ hs hkept
    refine ⟨⟨rfl, rfl, rfl, rfl, rfl⟩, rfl, ?_, ?_⟩
    · rintro _ - rfl
      exact Function.update_self _ _ _
    · rintro _ hne
      exact Function.update_of_ne hne _ _
  · exact hs

theorem tended_setAllSteps (hs : Tended cfg s) (value : Bool)
    (hkept : value = false → ∀ n, Hangs s.log n →
      Releases cfg (KeepsOn s fun _ => True) s.trackNotes s n) :
    Tended cfg (setAllSteps cfg value s) := by
  apply Edits.tended _ hs hkept
  refine ⟨⟨rfl, rfl, rfl, rfl, rfl⟩, rfl, ?_, ?_⟩
  · rintro step hlt -
    exact if_pos hlt
  · rintro step hne
    exact absurd trivial hne

structure SameStep (s t : State) : Prop where
  enabled : t.enabled = s.enabled
  currentStep : t.currentStep = s.currentStep
  steps : t.steps = s.steps
  trackNotes : t.trackNotes = s.trackNotes

/-- The tracks that are due after a phase are those that were due, with one more or one less. -/
theorem SameStep.tended (h : SameStep s t)
    (hnotes : ∀ n, Hangs t.log n → ∃ track, Due t track ∧
      isStepOnForTrack cfg s.currentStep track s = true ∧ note cfg track s = n) : Tended cfg t := by
  rintro n hn
  obtain ⟨track, hdue, hon, hnote⟩ := hnotes n hn
  refine ⟨track, hdue, trivial, ?_, ?_⟩
  · rwa [h.currentStep, isStepOnForTrack, h.steps]
  · rwa [h.trackNotes]

theorem hangs_send_noteOn {n : BitVec 8} (h : Hangs (send cfg .noteOn s).log n) : Hangs s.log n ∨
    (isStepOnForTrack cfg s.currentStep s.currentTrack s = true ∧
      note cfg s.currentTrack s = n) := by
  unfold send at h
  split_ifs at h with hon
  · rcases (hangs_append_singleton _ _ _).mp h with heq | ⟨hn, -⟩
    · exact Or.inr ⟨hon, Midi.noteOn.inj heq⟩
    · exact Or.inl hn
  · exact Or.inl h

theorem hangs_send_noteOff {n : BitVec 8} (h : Hangs (send cfg .noteOff s).log n) : Hangs s.log n ∧
    ¬ (isStepOnForTrack cfg s.currentStep s.currentTrack s = true ∧
      note cfg s.currentTrack s = n) := by
  unfold send at h
  split_ifs at h with hon
  · rcases (hangs_append_singleton _ _ _).mp h with heq | ⟨hn, hne⟩
    · exact Midi.noConfusion heq
    · exact ⟨hn, fun hnote => hne (by rw [hnote.2])⟩
  · exact ⟨h, fun hnote => hon hnote.1⟩

theorem tended_phaseAttack (hs : Tended cfg s) (henabled : s.enabled = true)
    (hphase : s.phase = .attack) (now : BitVec 16) : Tended cfg (phaseAttack cfg now s) := by
  unfold phaseAttack
  generalize ht : (if s.currentTrack = 0 then { s with timer := now } else s) = t
  have hsame : Untouched s t := by
    subst ht
    split_ifs <;> exact ⟨⟨rfl, rfl, rfl, rfl, rfl⟩, rfl, rfl⟩
  have ht : Tended cfg t := hsame.tended hs
  have hphase : t.phase = .attack := hsame.phase.trans hphase
  have henabled : t.enabled = true := hsame.enabled.trans henabled
  -- a note that sounds belongs to an earlier track or to the current one
  have hsounds (n : BitVec 8) (hn : Hangs (send cfg .noteOn t).log n) : ∃ track,
      track ≤ t.currentTrack ∧ isStepOnForTrack cfg t.currentStep track t = true ∧
      note cfg track t = n := by
    rcases hangs_send_noteOn hn with hold | ⟨hon, hnote⟩
    · obtain ⟨track, ⟨-, hdue⟩, -, hon, hnote⟩ := ht n hold
      rw [hphase] at hdue
      exact ⟨track, le_of_lt hdue, hon, hnote⟩
    · exact ⟨t.currentTrack, le_rfl, hon, hnote⟩
  have hsend : (send cfg .noteOn t).phase = t.phase ∧
      (send cfg .noteOn t).currentTrack = t.currentTrack ∧ SameStep t (send cfg .noteOn t) := by
    unfold send
    split_ifs <;> exact ⟨rfl, rfl, ⟨rfl, rfl, rfl, rfl⟩⟩
  obtain ⟨hsendPhase, hsendTrack, hstep⟩ := hsend
  dsimp only
  split_ifs
  · exact ht
  · refine SameStep.tended ⟨hstep.enabled, hstep.currentStep, hstep.steps, hstep.trackNotes⟩ ?_
    rintro n hn
    obtain ⟨track, hle, hon, hnote⟩ := hsounds n hn
    refine ⟨track, ⟨hstep.enabled.trans henabled, ?_⟩, hon, hnote⟩
    simp only [hsendPhase, hphase, hsendTrack]
    omega
  · refine SameStep.tended ⟨hstep.enabled, hstep.currentStep, hstep.steps, hstep.trackNotes⟩ ?_
    rintro n hn
    obtain ⟨track, hle, hon, hnote⟩ := hsounds n hn
    exact ⟨track, ⟨hstep.enabled.trans henabled, hsendTrack ▸ hle⟩, hon, hnote⟩

theorem tended_phaseRelease (hs : Tended cfg s) (henabled : s.enabled = true)
    (hphase : s.phase = .release) (now : BitVec 16) : Tended cfg (phaseRelease cfg now s) := by
  -- a note that still sounds does not belong to the current track
  have hsounds (n : BitVec 8) (hn : Hangs (send cfg .noteOff s).log n) : ∃ track,
      track < s.currentTrack ∧ isStepOnForTrack cfg s.currentStep track s = true ∧
      note cfg track s = n := by
    obtain ⟨hold, hcurrent⟩ := hangs_send_noteOff hn
    obtain ⟨track, ⟨-, hdue⟩, -, hon, hnote⟩ := hs n hold
    rw [hphase] at hdue
    have hne : track ≠ s.currentTrack := by
      rintro rfl
      exact hcurrent ⟨hon, hnote⟩
    exact ⟨track, lt_of_le_of_ne hdue hne, hon, hnote⟩
  have hsend : (send cfg .noteOff s).phase = s.phase ∧
      (send cfg .noteOff s).currentTrack = s.currentTrack ∧ SameStep s (send cfg .noteOff s) := by
    unfold send
    split_ifs <;> exact ⟨rfl, rfl, ⟨rfl, rfl, rfl, rfl⟩⟩
  obtain ⟨hsendPhase, hsendTrack, hstep⟩ := hsend
  unfold phaseRelease
  dsimp only
  split_ifs with _ hpositive
  · exact hs
  · refine SameStep.tended ⟨hstep.enabled, hstep.currentStep, hstep.steps, hstep.trackNotes⟩ ?_
    rintro n hn
    obtain ⟨track, hlt, hon, hnote⟩ := hsounds n hn
    refine ⟨track, ⟨hstep.enabled.trans henabled, ?_⟩, hon, hnote⟩
    simp only [hsendPhase, hphase, hsendTrack]
    omega
  · apply tended_of_silent
    rintro n hn
    obtain ⟨track, hlt, -⟩ := hsounds n hn
    rw [hsendTrack] at hpositive
    omega

theorem tended_phasePause (hs : Tended cfg s) (hphase : s.phase = .pause) (now : BitVec 16) :
    Tended cfg (phasePause cfg now s) := by
  unfold phasePause
  split_ifs
  · exact hs
  · exact tended_of_silent (hs.quietWhenIdle (Or.inr hphase))

theorem enabled_phasePause (now : BitVec 16) : (phasePause cfg now s).enabled = s.enabled := by
  unfold phasePause
  split_ifs <;> rfl

theorem enabled_phaseRelease (now : BitVec 16) :
    (phaseRelease cfg now s).enabled = s.enabled := by
  unfold phaseRelease send
  dsimp only
  split_ifs <;> rfl

theorem tended_sequencerTask (hs : Tended cfg s) (now : BitVec 16) :
    Tended cfg (sequencerTask cfg now s) := by
  by_cases henabled : s.enabled = true
  · rw [sequencerTask, if_pos henabled]
    dsimp only
    -- one phase after another, each for the state that the one before it leaves
    generalize ht : (if s.phase = .pause then phasePause cfg now s else s) = t
    have hpause : Tended cfg t ∧ t.enabled = true := by
      subst ht
      split_ifs with h
      · exact ⟨tended_phasePause hs h now, (enabled_phasePause now).trans henabled⟩
      · exact ⟨hs, henabled⟩
    generalize hu : (if t.phase = .release then phaseRelease cfg now t else t) = u
    have hrelease : Tended cfg u ∧ u.enabled = true := by
      subst hu
      split_ifs with h
      · exact ⟨tended_phaseRelease hpause.1 hpause.2 h now,
          (enabled_phaseRelease now).trans hpause.2⟩
      · exact hpause
    split_ifs with h
    · exact tended_phaseAttack hrelease.1 hrelease.2 h now
    · exact hrelease.1
  · rwa [sequencerTask, if_neg henabled]

theorem tended_step {a : Action} (hs : Tended cfg s) (h : (careful cfg).ok s a) :
    Tended cfg (step cfg s a) := by
  cases a with
  | on now => exact tended_of_silent h
  | off => exact tended_of_silent h
  | toggle now =>
    unfold step sequencerToggle
    dsimp only
    split_ifs <;> exact tended_of_silent h
  | task now => exact tended_sequencerTask hs now
  | setTrackNotes notes =>
    exact SameTracks.tended ⟨rfl, rfl, rfl, rfl, rfl⟩ h rfl fun _ _ hon => hon
  | setStep step value => exact tended_setStep hs step value h
  | toggleStep step =>
    exact tended_setStep hs step _ fun hvalue => h (by simpa using hvalue)
  | setAllSteps value => exact tended_setAllSteps hs value h
  | setTrackActivation track value => exact (untouched_setTrackActivation track value).tended hs
  | toggleTrackActivation track => exact (untouched_setTrackActivation track _).tended hs
  | toggleSingleActiveTrack track => exact (untouched_toggleSingleActiveTrack track).tended hs
  | setTempo tempo => exact (untouched_setTempo tempo).tended hs
  | increaseTempo => exact untouched_increaseTempo.tended hs
  | decreaseTempo => exact (untouched_setTempo _).tended hs
  | setResolution resolution => exact (untouched_setResolution resolution).tended hs
  | increaseResolution => exact (untouched_setResolution _).tended hs
  | decreaseResolution => exact (untouched_setResolution _).tended hs

theorem tended_start : Tended cfg {} := tended_of_silent not_hangs_nil

/-- No note is left hanging in the runs that are careful. -/
theorem run_quietWhenIdle {actions : List Action} (h : (careful cfg).Accepts {} actions) :
    ∀ pre post, actions = pre ++ post → QuietWhenIdle (run cfg {} pre) :=
  h.prefixes (fun _ hs => hs.quietWhenIdle) (fun _ _ hs => tended_step hs) tended_start

/-- One track is played and released, then the sequencer is switched off. -/
def playedOnce : List Action :=
  [.setTrackActivation 0 true, .setStep 0 true, .on 0, .task 0, .task 30, .off]

theorem playedOnce_quietWhenIdle : (run { tracks := 1 } {} playedOnce).enabled = false ∧
    ∀ pre post, playedOnce = pre ++ post → QuietWhenIdle (run { tracks := 1 } {} pre) := by
  refine ⟨rfl, ?_⟩
  apply run_quietWhenIdle
  refine ⟨trivial, fun h => absurd h (by decide), not_hangs_nil, trivial, trivial, ?_, trivial⟩
  intro n hn
  change Hangs ([.noteOn 253] ++ [.noteOff 253]) n at hn
  rcases (hangs_append_singleton _ _ n).mp hn with h | ⟨hplayed, hreleased⟩
  · exact Midi.noConfusion h
  · rcases (hangs_append_singleton [] _ n).mp hplayed with h | ⟨h, -⟩
    · exact hreleased (congrArg Midi.noteOff (Midi.noteOn.inj h))
    · exact not_hangs_nil n h

/-- The sequencer is switched off between the attack and the release. -/
theorem switchedOff_not_quietWhenIdle :
    ¬ ∀ pre post, [Action.setTrackActivation 0 true, .setStep 0 true, .on 0, .task 0, .off] =
      pre ++ post → QuietWhenIdle (run {} {} pre) := by
  intro h
  refine h _ [] (List.append_nil _).symm (Or.inl rfl) 253 ⟨[], [], ?_, List.not_mem_nil⟩
  decide

end Invariant

end Qmk.Sequencer
