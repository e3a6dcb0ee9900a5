import Qmk.Monitor

/-! # MIDI keys

A tone key remembers the note that it has switched on, but not the channel, and one of the notes
stands for none. The other keys change the octave, the transposition, the velocity and the channel
at any time.
-/

namespace Qmk.Midi

inductive Message
  | noteOn (channel : BitVec 4) (note velocity : BitVec 8)
  | noteOff (channel : BitVec 4) (note velocity : BitVec 8)
  deriving DecidableEq

def Message.note : Message → BitVec 8
  | noteOn _ note _ => note
  | noteOff _ note _ => note

/-- `midi_config_t`, with the fields that the keys below set. -/
structure MidiConfig where
  octave : BitVec 4
  transpose : BitVec 4
  velocity : BitVec 7
  channel : BitVec 4
  deriving DecidableEq

/-- The tones are numbered from `MIDI_TONE_MIN` on, the octaves, transpositions, velocities and
channels from their first keycodes on. -/
inductive Key
  | tone (t : Fin 72)
  | octave (o : Fin 10)
  | octaveDown
  | octaveUp
  | transpose (t : Fin 13)
  | transposeDown
  | transposeUp
  | velocity (v : Fin 11)
  | velocityDown
  | velocityUp
  | channel (c : Fin 16)
  | channelDown
  | channelUp
  deriving DecidableEq

structure Event where
  key : Key
  pressed : Bool
  deriving DecidableEq

def invalidNote : BitVec 8 := 0xFF

structure State where
  config : MidiConfig
  toneStatus : Fin 72 → BitVec 8
  sent : List Message := []

section Model

def midiInit : State where
  config := { octave := 4, transpose := 0, velocity := 127, channel := 0 }
  toneStatus := fun _ => invalidNote

/-- `midi_send_noteon`, a velocity has seven bits already. -/
def sendNoteOn (channel : BitVec 4) (note : BitVec 8) (velocity : BitVec 7) (s : State) : State :=
  { s with sent := s.sent ++ [.noteOn channel (note &&& 0x7F) (velocity.setWidth 8)] }

def sendNoteOff (channel : BitVec 4) (note : BitVec 8) (velocity : BitVec 7) (s : State) : State :=
  { s with sent := s.sent ++ [.noteOff channel (note &&& 0x7F) (velocity.setWidth 8)] }

def MidiConfig.computeNote (config : MidiConfig) (tone : Fin 72) : BitVec 8 :=
  .ofInt 8 (12 * config.octave.toNat + tone + config.transpose.toInt)

def computeVelocity (setting : Fin 11) : BitVec 7 := .ofNat 7 (setting * (128 / 10))

def toneKey (tone : Fin 72) (pressed : Bool) (s : State) : State :=
  let channel := s.config.channel
  let velocity := s.config.velocity
  if pressed then
    if s.toneStatus tone = invalidNote then
      let note := s.config.computeNote tone
      let s := sendNoteOn channel note velocity s
      { s with toneStatus := Function.update s.toneStatus tone note }
    else s
  else
    let note := s.toneStatus tone
    let s := if note ≠ invalidNote then sendNoteOff channel note velocity s else s
    { s with toneStatus := Function.update s.toneStatus tone invalidNote }

def setConfig (key : Key) (config : MidiConfig) : MidiConfig :=
  match key with
  | .tone _ => config
  | .octave o => { config with octave := .ofNat 4 o }
  | .octaveDown =>
    if 0 < config.octave.toNat then { config with octave := config.octave - 1 } else config
  | .octaveUp =>
    if config.octave.toNat < 9 then { config with octave := config.octave + 1 } else config
  | .transpose t => { config with transpose := .ofInt 4 (t - 6) }
  | .transposeDown =>
    if -6 < config.transpose.toInt then { config with transpose := config.transpose - 1 }
    else config
  | .transposeUp =>
    if config.transpose.toInt < 6 then
      let positive := 0 < config.transpose.toInt
      let transpose := config.transpose + 1
      if positive ∧ transpose.toInt < 0 then { config with transpose := transpose - 1 }
      else { config with transpose }
    else config
  | .velocity v => { config with velocity := computeVelocity v }
  | .velocityDown =>
    if 0 < config.velocity.toNat then
      if config.velocity = 127 then { config with velocity := config.velocity - 10 }
      else if 12 < config.velocity.toNat then { config with velocity := config.velocity - 13 }
      else { config with velocity := 0 }
    else config
  | .velocityUp =>
    if config.velocity.toNat < 127 then
      if config.velocity.toNat < 115 then { config with velocity := config.velocity + 13 }
      else { config with velocity := 127 }
    else config
  | .channel c => { config with channel := .ofNat 4 c }
  | .channelDown => { config with channel := config.channel - 1 }
  | .channelUp => { config with channel := config.channel + 1 }

def processMidi (s : State) (e : Event) : State :=
  match e.key with
  | .tone t => toneKey t e.pressed s
  | key => if e.pressed then { s with config := setConfig key s.config } else s

end Model

section History

/-- A state with what is observed of the tone keys: which of them are down, and the channel on which
each has been switched on. -/
structure Observed where
  state : State
  down : Fin 72 → Bool
  onChannel : Fin 72 → BitVec 4

def Observed.start : Observed where
  state := midiInit
  down := fun _ => false
  onChannel := fun _ => 0

def Observed.Sounds (o : Observed) (t : Fin 72) : Prop := o.state.toneStatus t = invalidNote

instance (o : Observed) (t : Fin 72) : Decidable (o.Sounds t) :=
  inferInstanceAs (Decidable (_ = _))

def Observed.next (o : Observed) (e : Event) : Observed :=
  { state := processMidi o.state e
    down := match e.key with
      | .tone t => Function.update o.down t e.pressed
      | _ => o.down
    onChannel := match e.key, e.pressed with
      | .tone t, true =>
        if o.Sounds t then Function.update o.onChannel t o.state.config.channel else o.onChannel
      | _, _ => o.onChannel }

/-- A press does not give the note that stands for none, and a release finds the channel of the
press. -/
def Observed.Passes (o : Observed) (e : Event) : Prop :=
  match e.key, e.pressed with
  | .tone t, true => o.Sounds t → o.state.config.computeNote t ≠ invalidNote
  | .tone t, false => ¬ o.Sounds t → o.state.config.channel = o.onChannel t
  | _, _ => True

/-- The tone keys as a monitor of the events. -/
def keys : Monitor Event Observed where
  next := Observed.next
  ok := Observed.Passes

def Released (sent : List Message) : Prop :=
  ∀ pre channel note velocity post, sent = pre ++ .noteOn channel note velocity :: post →
    ∃ velocity', .noteOff channel note velocity' ∈ post

/-- What is promised of every state. -/
structure NoHangingNote (o : Observed) : Prop where
  inRange : ∀ m ∈ o.state.sent, m.note.toNat ≤ 127
  released : (∀ t, o.down t = false) → Released o.state.sent

end History

section Invariant

variable (channel : BitVec 4) (note : BitVec 8) (velocity : BitVec 7) (s : State)

@[simp] theorem sendNoteOn_toneStatus :
    (sendNoteOn channel note velocity s).toneStatus = s.toneStatus := rfl

@[simp] theorem sendNoteOff_toneStatus :
    (sendNoteOff channel note velocity s).toneStatus = s.toneStatus := rfl

def Observed.On (o : Observed) (channel : BitVec 4) (note : BitVec 8) : Prop :=
  ∃ t, ¬ o.Sounds t ∧ o.onChannel t = channel ∧ o.state.toneStatus t &&& 0x7F = note

/-- Each note that was switched on is on or has been switched off, and a tone key that is up has
none. -/
structure Inv (o : Observed) : Prop where
  inRange : ∀ m ∈ o.state.sent, m.note.toNat ≤ 127
  silent : ∀ t, o.down t = false → o.Sounds t
  paired : ∀ pre channel note velocity post,
    o.state.sent = pre ++ .noteOn channel note velocity :: post →
    (∃ velocity', .noteOff channel note velocity' ∈ post) ∨ o.On channel note

theorem Inv.noHangingNote {o : Observed} (h : Inv o) : NoHangingNote o := by
  refine ⟨h.inRange, fun hup pre channel note velocity post hsent => ?_⟩
  refine (h.paired pre channel note velocity post hsent).resolve_right ?_
  rintro ⟨t, ht, -⟩
  exact ht (h.silent t (hup t))

theorem inv_start : Inv Observed.start where
  inRange := by simp [Observed.start, midiInit]
  silent := fun _ _ => rfl
  paired := by simp [Observed.start, midiInit]

theorem and_le (note : BitVec 8) : (note &&& 0x7F).toNat ≤ 127 := by
  rw [BitVec.toNat_and]
  exact Nat.and_le_right

theorem append_singleton_split {sent pre post : List Message} {m n : Message}
    (h : sent ++ [m] = pre ++ n :: post) :
    (∃ post', post = post' ++ [m] ∧ sent = pre ++ n :: post') ∨ (n = m ∧ post = []) := by
  rcases List.eq_nil_or_concat post with rfl | ⟨post', m', rfl⟩
  · obtain ⟨-, hm⟩ := List.append_inj' h rfl
    exact .inr ⟨(List.singleton_inj.mp hm).symm, rfl⟩
  · rw [List.concat_eq_append] at h ⊢
    rw [← List.cons_append, ← List.append_assoc] at h
    obtain ⟨hsent, hm⟩ := List.append_inj' h rfl
    exact .inl ⟨post', by rw [List.singleton_inj.mp hm], hsent⟩

theorem Inv.paired_append {o : Observed} (h : Inv o) {sent : List Message} {m : Message}
    {on : BitVec 4 → BitVec 8 → Prop} (hsent : sent = o.state.sent ++ [m])
    (hon : ∀ channel note, o.On channel note →
      (∃ velocity, m = .noteOff channel note velocity) ∨ on channel note)
    (hnew : ∀ channel note velocity, m = .noteOn channel note velocity → on channel note)
    (pre : List Message) (channel : BitVec 4) (note velocity : BitVec 8) (post : List Message)
    (hsplit : sent = pre ++ .noteOn channel note velocity :: post) :
    (∃ velocity', .noteOff channel note velocity' ∈ post) ∨ on channel note := by
  rcases append_singleton_split (hsent.symm.trans hsplit) with ⟨post', rfl, hold⟩ | ⟨hm, rfl⟩
  · rcases h.paired pre channel note velocity post' hold with ⟨velocity', hoff⟩ | hstill
    · exact .inl ⟨velocity', List.mem_append_left _ hoff⟩
    · refine (hon channel note hstill).imp_left ?_
      rintro ⟨velocity', rfl⟩
      exact ⟨velocity', List.mem_append_right _ (List.mem_singleton_self _)⟩
  · exact .inr (hnew channel note velocity hm.symm)

theorem Inv.press {o : Observed} (h : Inv o) {t : Fin 72} (hpasses : o.Passes ⟨.tone t, true⟩) :
    Inv (o.next ⟨.tone t, true⟩) := by
  by_cases hsounds : o.Sounds t
  · have hstatus : o.state.toneStatus t = invalidNote := hsounds
    have hvalid := hpasses hsounds
    simp only [Observed.next, processMidi, toneKey, if_pos hstatus, if_pos hsounds, if_true]
    refine ⟨?_, fun u hu => ?_, h.paired_append rfl ?_ ?_⟩
    · intro m hm
      rcases List.mem_append.mp hm with hm | hm
      · exact h.inRange m hm
      · obtain rfl := List.mem_singleton.mp hm
        exact and_le _
    · have hne : u ≠ t := by
        rintro rfl
        simp at hu
      have hup : o.down u = false := by simpa [hne] using hu
      simpa [Observed.Sounds, hne] using h.silent u hup
    · rintro channel note ⟨u, hu, hchannel, hnote⟩
      have hne : u ≠ t := by
        rintro rfl
        exact hu hsounds
      exact .inr ⟨u, by simpa [Observed.Sounds, hne] using hu, by simpa [hne] using hchannel,
        by simpa [hne] using hnote⟩
    · intro channel note velocity hm
      obtain ⟨rfl, rfl, -⟩ := Message.noteOn.inj hm
      exact ⟨t, by simpa [Observed.Sounds] using hvalid, by simp, by simp⟩
  · have hstatus : ¬ o.state.toneStatus t = invalidNote := hsounds
    simp only [Observed.next, processMidi, toneKey, if_neg hstatus, if_neg hsounds, if_true]
    refine ⟨h.inRange, fun u hu => ?_, h.paired⟩
    have hne : u ≠ t := by
      rintro rfl
      simp at hu
    exact h.silent u (by simpa [hne] using hu)

theorem Inv.release {o : Observed} (h : Inv o) {t : Fin 72}
    (hpasses : o.Passes ⟨.tone t, false⟩) : Inv (o.next ⟨.tone t, false⟩) := by
  have hsilent (u : Fin 72) (hu : Function.update o.down t false u = false) :
      Function.update o.state.toneStatus t invalidNote u = invalidNote := by
    by_cases hne : u = t
    · simp [hne]
    · rw [Function.update_of_ne hne] at hu ⊢
      exact h.silent u hu
  by_cases hsounds : o.Sounds t
  · have hstatus : o.state.toneStatus t = invalidNote := hsounds
    have hsame : Function.update o.state.toneStatus t invalidNote = o.state.toneStatus := by
      rw [← hstatus, Function.update_eq_self]
    have hnone : ¬ o.state.toneStatus t ≠ invalidNote := not_not.mpr hstatus
    simp only [Observed.next, processMidi, toneKey, if_neg hnone, Bool.false_eq_true, if_false]
    refine ⟨h.inRange, hsilent, fun pre channel note velocity post hsplit => ?_⟩
    simpa only [Observed.On, Observed.Sounds, hsame] using
      h.paired pre channel note velocity post hsplit
  · have hstatus : o.state.toneStatus t ≠ invalidNote := hsounds
    have hchannel := hpasses hsounds
    simp only [Observed.next, processMidi, toneKey, if_pos hstatus, Bool.false_eq_true, if_false,
      sendNoteOff_toneStatus]
    refine ⟨?_, hsilent, h.paired_append rfl ?_ ?_⟩
    · intro m hm
      rcases List.mem_append.mp hm with hm | hm
      · exact h.inRange m hm
      · obtain rfl := List.mem_singleton.mp hm
        exact and_le _
    · rintro channel note ⟨u, hu, rfl, rfl⟩
      by_cases hne : u = t
      · subst hne
        exact .inl ⟨_, by rw [hchannel]⟩
      · exact .inr ⟨u, by simpa [Observed.Sounds, hne] using hu, rfl, by simp [hne]⟩
    · intro channel note velocity hm
      cases hm

theorem Inv.next {o : Observed} {e : Event} (h : Inv o) (hpasses : o.Passes e) :
    Inv (o.next e) := by
  obtain ⟨key, pressed⟩ := e
  cases key with
  | tone t =>
    cases pressed with
    | true => exact h.press hpasses
    | false => exact h.release hpasses
  | _ =>
    cases pressed
    · exact ⟨h.inRange, h.silent, h.paired⟩
    · exact ⟨h.inRange, h.silent, h.paired⟩

/-- As long as every event passes, no note is left on when all tone keys are up. -/
theorem run_noHangingNote {events : List Event}
    (h : ∀ pre e post, events = pre ++ e :: post → (keys.after .start pre).Passes e) :
    ∀ pre rest, events = pre ++ rest → NoHangingNote (keys.after .start pre) :=
  (keys.accepts_iff.mpr h).prefixes (I := Inv) (fun _ => Inv.noHangingNote)
    (fun _ _ => Inv.next) inv_start

instance (o : Observed) : (e : Event) → Decidable (keys.ok o e)
  | ⟨.tone _, true⟩ | ⟨.tone _, false⟩ => inferInstanceAs (Decidable (_ → _))
  | ⟨.octave _, _⟩ | ⟨.octaveDown, _⟩ | ⟨.octaveUp, _⟩ | ⟨.transpose _, _⟩
  | ⟨.transposeDown, _⟩ | ⟨.transposeUp, _⟩ | ⟨.velocity _, _⟩ | ⟨.velocityDown, _⟩
  | ⟨.velocityUp, _⟩ | ⟨.channel _, _⟩ | ⟨.channelDown, _⟩ | ⟨.channelUp, _⟩ => isTrue trivial

/-- A note under a change of the octave. -/
theorem octaveUp_noHangingNote : NoHangingNote (keys.after .start
    [⟨.tone 5, true⟩, ⟨.octaveUp, true⟩, ⟨.octaveUp, false⟩, ⟨.tone 5, false⟩]) :=
  run_noHangingNote (keys.accepts_iff.mp (by decide)) _ [] rfl

/-- The release after a change of the channel goes to the other channel. -/
theorem channelUp_hangs : ¬ NoHangingNote (keys.after .start
    [⟨.tone 0, true⟩, ⟨.channelUp, true⟩, ⟨.channelUp, false⟩, ⟨.tone 0, false⟩]) := by
  intro h
  obtain ⟨velocity, hoff⟩ := h.released (by decide) [] 0 48 127 _ rfl
  exact absurd (Message.noteOff.inj (List.mem_singleton.mp hoff)).1 (by decide)

end Invariant

end Qmk.Midi
