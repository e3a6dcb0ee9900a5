import Qmk.DynamicMacro.Refinement

/-! # Playing dynamic macros

A macro without play keys plays what it stores. After a one-shot layer its second playback differs
from the first one.
-/

namespace Qmk.DynamicMacro

open BothEnds

section Sharing

variable {κ σ : Type*} {fw : Firmware κ σ} {buffer : ℤ → KeyRecord κ} {spec : Spec κ}
  {s s' : State κ σ} {m : Macro} {r : KeyRecord κ}

theorem toNat_place (m : Macro) (place : ℤ) (n : ℕ) :
    (m.direction * (place + m.direction * n - place)).toNat = n := by
  cases m <;> simp [Macro.direction]

theorem Refines.contents_eq (h : Refines fw buffer spec s) (hm : s.macroId ≠ some m) :
    contents fw s m = spec.stored m := by
  rw [contents, h.macroEnd, toNat_place]
  exact h.stored m hm

theorem Refines.exists_lengths (h : Refines fw buffer spec s) :
    ∃ n : Macro → ℕ, (∀ m, tip s m = fw.begin m + m.direction * n m) ∧
      n .one + n .two ≤ fw.size := by
  cases hm : spec.recording with
  | none =>
    have hs : s.macroId = none := by rw [h.macroId, hm]; rfl
    refine ⟨fun m => (spec.stored m).length, fun m => ?_, h.room .one⟩
    simpa [tip, hs] using h.macroEnd m
  | some p =>
    obtain ⟨m, events⟩ := p
    have hs := h.macroId_of_recording hm
    have hlen := length_written_le (spec.room fw.size m) events
    have hroom := h.room m
    refine ⟨Function.update (fun m' => (spec.stored m').length) m
      (written (spec.room fw.size m) events).length, fun m' => ?_, ?_⟩
    · obtain rfl | rfl := m.eq_or_eq_other m'
      · simpa [tip, hs] using h.pointer m' events hm
      · simpa [tip, hs, m.other_ne.symm] using h.macroEnd m.other
    · unfold Spec.room at hlen ⊢
      cases m <;> simp [Macro.other] at * <;> omega

theorem Refines.regions (h : Refines fw buffer spec s) :
    region fw s .one ∩ region fw s .two = ∅ ∧ ∀ m, region fw s m ⊆ places fw := by
  obtain ⟨n, htip, hsize⟩ := h.exists_lengths
  have hregion (m : Macro) : region fw s m = span m.direction (fw.begin m) (n m) := by
    rw [region, htip, toNat_place]
  simp only [hregion]
  refine ⟨span_inter_span hsize, fun m p hp => ?_⟩
  cases m with
  | one =>
    simp only [Macro.direction, Firmware.begin, mem_span_up] at hp
    exact ⟨hp.1, by omega⟩
  | two =>
    simp only [Macro.direction, Firmware.begin, mem_span_down] at hp
    exact ⟨by omega, hp.2⟩

theorem Refines.recordValid (h : Refines fw buffer spec s) (hs : s.macroId = some m)
    (hr : Storable fw r) : (∃ spec', Refines fw buffer spec' (recordValid fw m r s)) ∧
      (recordValid fw m r s).macroId = some m ∧
      contents fw (recordValid fw m r s) m.other = contents fw s m.other := by
  obtain ⟨events, hm⟩ := h.exists_recording hs
  have hne : s.macroId ≠ some m.other := by simp [hs, m.other_ne.symm]
  unfold DynamicMacro.recordValid
  split_ifs
  · have h' := h.recordKey hm hr
    have hs' : (DynamicMacro.recordKey fw m r s).macroId = some m := by
      rw [h'.macroId, next_record hm]
      rfl
    refine ⟨⟨_, h'⟩, hs', ?_⟩
    rw [h'.contents_eq (by simp [hs', m.other_ne.symm]), h.contents_eq hne, next_record hm]
  · exact ⟨⟨spec, h⟩, hs, rfl⟩

theorem contents_stopRecording (hs : s.macroId = some m) :
    contents fw (stopRecording fw s) m.other = contents fw s m.other := by
  simp [DynamicMacro.stopRecording, hs, recordEnd, State.log, contents]

theorem Refines.processDynamicMacro_other {process : Process κ σ} {n : ℕ} {goesOn : Bool}
    {fed : List (KeyRecord κ)} (h : Refines fw buffer spec s) (hs : s.macroId = some m)
    (hrun : processDynamicMacro fw process n r s = some (goesOn, fed, s')) :
    contents fw s' m.other = contents fw s m.other ∧
      (goesOn = true → s'.macroId = some m ∧ ∃ spec', Refines fw buffer spec' s') := by
  simp only [processDynamicMacro, hs] at hrun
  split at hrun
  case h_1 | h_2 =>
    cases hrun
    refine ⟨?_, fun h => by cases h⟩
    split_ifs
    · exact contents_stopRecording hs
    · rfl
  case h_3 k hk =>
    have hr : Storable fw r := fun m' hm => by simp [hk] at hm
    obtain ⟨hspec, hid, hc⟩ := h.recordValid hs hr
    split_ifs at hrun
    · cases hrun
      exact ⟨rfl, fun h => by cases h⟩
    · cases hrun
      exact ⟨hc, fun _ => ⟨hid, hspec⟩⟩
  case h_4 hk =>
    have hr : Storable fw r := fun m' hm => by simp [hk] at hm
    obtain ⟨hspec, hid, hc⟩ := h.recordValid hs hr
    cases hrun
    exact ⟨hc, fun _ => ⟨hid, hspec⟩⟩

theorem Refines.processRecord_other (n : ℕ) :
    ∀ {spec : Spec κ} {s s' : State κ σ} {r : KeyRecord κ} {fed : List (KeyRecord κ)},
      Refines fw buffer spec s → s.macroId = some m →
      processRecord fw n none r s = some (fed, s') →
      contents fw s' m.other = contents fw s m.other := by
  induction n with
  | zero => exact fun _ _ hrun => by simp [processRecord] at hrun
  | succ n ih =>
    intro spec s s' r fed h hs hrun
    simp only [processRecord, Option.bind_eq_bind, Option.bind_eq_some_iff, Prod.exists] at hrun
    obtain ⟨goesOn, fed₁, s₁, hmacro, hrun⟩ := hrun
    obtain ⟨hc, hon⟩ := h.processDynamicMacro_other hs hmacro
    split_ifs at hrun with hgo
    · obtain ⟨hs₁, spec₁, h₁⟩ := hon hgo
      split at hrun
      · cases hrun
        exact hc
      · cases hrun
        exact hc
      case h_3 env layerOff he =>
        simp only [Option.bind_eq_some_iff, Prod.exists, Option.some.injEq,
          Prod.mk.injEq] at hrun
        obtain ⟨fed₂, s₂, hagain, -, rfl⟩ := hrun
        exact (ih (h₁.withEnv env _) hs₁ hagain).trans hc
    · cases hrun
      exact hc

theorem Refines.step_other {n : ℕ} {op : Op κ σ} (h : Refines fw buffer spec s)
    (hs : s.macroId = some m) (hstep : step fw n s op = some s') :
    contents fw s' m.other = contents fw s m.other := by
  cases op with
  | record r =>
    obtain ⟨⟨fed, s₁⟩, hrun, rfl⟩ := Option.map_eq_some_iff.mp hstep
    exact Refines.processRecord_other n h hs hrun
  | stopRecording =>
    cases hstep
    exact contents_stopRecording hs
  | task env =>
    cases hstep
    rfl

end Sharing

section Playing

variable {κ σ : Type*} {fw : Firmware κ σ} {buffer : ℤ → KeyRecord κ} {spec : Spec κ}
  {s s' : State κ σ} {m : Macro} {r : KeyRecord κ}

/-- A record with a key that neither starts a recording nor plays a macro. -/
def Plain (fw : Firmware κ σ) (r : KeyRecord κ) : Prop :=
  Storable fw r ∧ ∀ m, fw.keycode r.key ≠ .play m

/-- A record that the macros leave alone while none is recorded. -/
def GoesOn (fw : Firmware κ σ) (r : KeyRecord κ) : Prop :=
  Storable fw r ∧ (r.pressed = true ∨ ∀ m, fw.keycode r.key ≠ .play m)

theorem Plain.goesOn (h : Plain fw r) : GoesOn fw r := ⟨h.1, .inr h.2⟩

theorem processDynamicMacro_goesOn {process : Process κ σ} {n : ℕ} (hs : s.macroId = none)
    (hr : GoesOn fw r) : processDynamicMacro fw process n r s = some (true, [], s) := by
  simp only [processDynamicMacro, hs]
  split_ifs with hdown
  · rfl
  · split
    case h_1 m hk => exact absurd hk (hr.1 m)
    case h_2 m hk => exact absurd hk (hr.2.resolve_left hdown m)
    case h_3 => rfl

/-- A state without a recording, in which only the record at a place has changed. -/
structure IdleBut (home : Option ℤ) (s s' : State κ σ) : Prop where
  macroId : s'.macroId = none
  buffer : ∀ p, home ≠ some p → s'.macroBuffer p = s.macroBuffer p

theorem idleBut_write (hs : s.macroId = none) (home : Option ℤ) (r r' : KeyRecord κ) (env : σ) :
    IdleBut home s { (s.handOn home r).write home r' with env := env } := by
  cases home with
  | none => exact ⟨hs, fun _ _ => rfl⟩
  | some p =>
    refine ⟨hs, fun q hq => ?_⟩
    have hqp : q ≠ p := by
      rintro rfl
      exact hq rfl
    exact Function.update_of_ne hqp _ _

theorem idleBut_handOn (hs : s.macroId = none) (home : Option ℤ) (r : KeyRecord κ) (env : σ) :
    IdleBut home s { s.handOn home r with env := env } := by
  cases home <;> exact ⟨hs, fun _ _ => rfl⟩

theorem IdleBut.trans {home : Option ℤ} {s'' : State κ σ} (h : IdleBut home s s')
    (h' : IdleBut home s' s'') : IdleBut home s s'' :=
  ⟨h'.macroId, fun p hp => (h'.buffer p hp).trans (h.buffer p hp)⟩

theorem processRecord_idle (n : ℕ) (home : Option ℤ) (hs : s.macroId = none) (hr : GoesOn fw r) :
    processRecord fw (n + 1) home r s =
      match fw.handle s.env r with
      | .done env => some ([], { s.handOn home r with env := env })
      | .untap env =>
        some ([], { (s.handOn home r).write home { r with tapCount := 0 } with env := env })
      | .release env layerOff =>
        (processRecord fw n home { r with pressed := false }
          { (s.handOn home r).write home { r with pressed := false } with env := env }).map
            fun out => (out.1, { out.2 with env := layerOff out.2.env }) := by
  simp only [processRecord, processDynamicMacro_goesOn hs hr, Option.bind_eq_bind,
    Option.bind_some, if_true, Option.map_eq_bind]
  rfl

theorem processRecord_release (n : ℕ) (home : Option ℤ) (hs : s.macroId = none)
    (hr : Plain fw r) (hup : r.pressed = false) :
    ∃ s', processRecord fw (n + 1) home r s = some ([], s') ∧ IdleBut home s s' := by
  rw [processRecord_idle n home hs hr.goesOn]
  cases he : fw.handle s.env r with
  | done env => exact ⟨_, rfl, idleBut_handOn hs home r env⟩
  | untap env => exact ⟨_, rfl, idleBut_write hs home r _ env⟩
  | release env layerOff =>
    have := fw.pressed_of_release he
    rw [hup] at this
    cases this

theorem processRecord_plain (n : ℕ) (home : Option ℤ) (hs : s.macroId = none)
    (hr : Plain fw r) :
    ∃ s', processRecord fw (n + 2) home r s = some ([], s') ∧ IdleBut home s s' := by
  rw [processRecord_idle (n + 1) home hs hr.goesOn]
  cases he : fw.handle s.env r with
  | done env => exact ⟨_, rfl, idleBut_handOn hs home r env⟩
  | untap env => exact ⟨_, rfl, idleBut_write hs home r _ env⟩
  | release env layerOff =>
    have hfirst := idleBut_write hs home r { r with pressed := false } env
    obtain ⟨s₂, hagain, hsecond⟩ := processRecord_release n home hfirst.macroId
      (show Plain fw { r with pressed := false } from hr) rfl
    refine ⟨{ s₂ with env := layerOff s₂.env }, ?_, hfirst.trans ?_⟩
    · simp only [hagain, Option.map_some]
    · exact ⟨hsecond.macroId, hsecond.buffer⟩

theorem playFrom_eq (fw : Firmware κ σ) {n : ℕ} {direction : ℤ} (hd : direction ≠ 0)
    (l : List (KeyRecord κ)) :
    ∀ {k : ℕ} {cursor finish : ℤ} {s : State κ σ}, s.macroId = none → (∀ r ∈ l, Plain fw r) →
      readFrom s.macroBuffer direction cursor l.length = l →
      finish = cursor + direction * l.length → l.length < k →
      ∃ s', playFrom (processRecord fw (n + 2)) direction finish k cursor s = some (l, s') := by
  induction l with
  | nil =>
    rintro (_ | k) cursor finish s hs - - rfl hk
    · cases hk
    · exact ⟨s, by simp [playFrom]⟩
  | cons a l ih =>
    rintro (_ | k) cursor finish s hs hplain hread rfl hk
    · cases hk
    rw [List.length_cons, readFrom_succ', List.cons.injEq] at hread
    obtain ⟨ha, hl⟩ := hread
    have hne : cursor ≠ cursor + direction * ((a :: l).length : ℤ) := by
      intro h
      have : direction * ((a :: l).length : ℤ) = 0 := by linarith
      rcases mul_eq_zero.mp this with h0 | h0
      · exact hd h0
      · simp only [List.length_cons] at h0
        omega
    obtain ⟨s₁, hfirst, hbut⟩ := processRecord_plain n (some cursor) hs
      (hplain a List.mem_cons_self)
    have hl₁ : readFrom s₁.macroBuffer direction (cursor + direction) l.length = l := by
      rw [readFrom_congr fun p hp => hbut.buffer p ?_]
      · exact hl
      · rintro ⟨⟩
        exact start_notMem_span hd _ hp
    obtain ⟨s₂, hrest⟩ := ih hbut.macroId (fun r hr => hplain r (List.mem_cons_of_mem a hr)) hl₁
      rfl (Nat.lt_of_succ_lt_succ hk)
    refine ⟨s₂, ?_⟩
    have hfinish : cursor + direction * ((a :: l).length : ℤ) =
        cursor + direction + direction * (l.length : ℤ) := by
      rw [List.length_cons]
      push_cast
      ring
    rw [playFrom, if_neg hne, ha, hfirst, hfinish]
    simp [hrest]

theorem Refines.plays (h : Refines fw buffer spec s) (hs : s.macroId = none)
    (hkey : fw.keycode r.key = .play m) (hup : r.pressed = false)
    (hplay : ∀ x ∈ spec.stored m, ∀ m', fw.keycode x.key ≠ .play m') {n : ℕ}
    (hn : (spec.stored m).length + 3 ≤ n) :
    ∃ s', processRecord fw n none r s = some (spec.stored m, s') := by
  obtain ⟨k, rfl⟩ : ∃ k, n = k + 3 := ⟨n - 3, by omega⟩
  obtain ⟨s₁, hloop⟩ := playFrom_eq fw (n := k) m.direction_ne (spec.stored m)
    (k := k + 2) (s := { s with env := fw.clear s.env }) hs
    (fun x hx => ⟨h.storable m x hx, hplay x hx⟩) (h.stored m (by simp [hs])) (h.macroEnd m)
    (by omega)
  have hmacro : processDynamicMacro fw (processRecord fw (k + 2)) (k + 2) r s =
      some (false, spec.stored m, { s₁ with env := fw.restore s.env s₁.env }) := by
    have hplayed : play fw (processRecord fw (k + 2)) (k + 2) m s =
        some (spec.stored m, { s₁ with env := fw.restore s.env s₁.env }) := by
      rw [play, hloop]
      rfl
    simp only [processDynamicMacro, hs, hup, hkey, hplayed]
    rfl
  exact ⟨_, by rw [processRecord, hmacro]; rfl⟩

theorem Refines.sharesBuffer (h : Refines fw buffer (Spec.after fw.size s.trace) s) :
    SharesBuffer fw buffer s where
  disjoint := h.regions.1
  within := h.regions.2
  outside := h.outside
  other _ _ _ _ hs hstep := h.step_other hs hstep
  plays _ _ _ hs hkey hup hplay hn := h.plays hs hkey hup hplay hn

/-- In every run in which `process_record` leaves the records that are played as they are, the
macros share the buffer. -/
theorem run_sharesBuffer (buffer : ℤ → KeyRecord κ) (env : σ) {n : ℕ} {ops : List (Op κ σ)}
    (hrun : run fw n ops (start fw buffer env) = some s) (hcalm : Calm fw s.trace) :
    SharesBuffer fw buffer s :=
  (((sound_start env).run hrun) hcalm).sharesBuffer

end Playing

section OneShot

/-- Keys that record and play a macro, a one-shot layer key, and another key. -/
inductive Key
  | recordOne
  | recordStop
  | playOne
  | oneShot (layer : BitVec 5)
  | a
  deriving DecidableEq

/-- `clear_oneshot_layer_state`, for one-shot keys that are enabled. The data are a layer and three
bits, one for the pressed key and one for the wait for another key. -/
def clearOneshotLayerState (state data : BitVec 8) : BitVec 8 :=
  if (data &&& ~~~state) &&& 0b111 = 0 ∧ data ≠ data &&& ~~~state then 0 else data &&& ~~~state

/-- A press while a one-shot layer is active. -/
def endsOneshot (data : BitVec 8) (r : KeyRecord Key) : Bool :=
  data &&& 0b111 ≠ 0 ∧ r.pressed

/-- Such a press clears the wait for another key. -/
def useOneshot (data : BitVec 8) (r : KeyRecord Key) : BitVec 8 :=
  if endsOneshot data r then clearOneshotLayerState 0b10 data else data

/-- The case of `process_action` for a key. -/
def oneshotAction (r : KeyRecord Key) (data : BitVec 8) : BitVec 8 :=
  match r.key with
  | .oneShot layer =>
    if r.pressed then layer.setWidth 8 <<< 3 ||| 0b11
    else
      if 1 < r.tapCount then clearOneshotLayerState 0b10 (clearOneshotLayerState 0b01 data)
      else clearOneshotLayerState 0b01 data
  | _ => data

/-- `process_action`, as far as it is about one-shot layers. -/
def processAction (data : BitVec 8) (r : KeyRecord Key) : Handled (BitVec 8) :=
  let data' := oneshotAction r (useOneshot data r)
  if (endsOneshot data r ∧ useOneshot data r &&& 0b111 = 0) ∧ data' &&& 0b01 = 0 then
    .release data' id
  else .done data'

/-- Room for eight events, and the layers have the same keys. -/
def oneShotFirmware : Firmware Key (BitVec 8) where
  size := 8
  noNesting := false
  keycode
    | .recordOne => .recordStart .one
    | .recordStop => .recordStop
    | .playOne => .play .one
    | _ => .other
  validKey _ _ := true
  clear := id
  restore _ data := data
  handle := processAction
  refuse := useOneshot
  pressed_of_release {data r _ _} h := by
    have hends : endsOneshot data r = true := by
      by_contra hends
      simp [processAction, hends] at h
    simp only [endsOneshot, decide_eq_true_eq] at hends
    exact hends.2

/-- The layer key, a key on the layer, and the end of the recording. -/
def typed : List (Op Key (BitVec 8)) :=
  [.record ⟨.recordOne, true, 0⟩, .record ⟨.recordOne, false, 0⟩,
    .record ⟨.oneShot 1, true, 1⟩, .record ⟨.oneShot 1, false, 1⟩,
    .record ⟨.a, true, 0⟩, .record ⟨.a, false, 0⟩,
    .record ⟨.recordStop, true, 0⟩, .record ⟨.recordStop, false, 0⟩]

def playKey (pressed : Bool) : KeyRecord Key := ⟨.playOne, pressed, 0⟩

def blank : ℤ → KeyRecord Key := fun _ => ⟨.a, false, 0⟩

/-- A macro without a layer key is played. -/
theorem run_sharesBuffer_a :
    ∃ s, run oneShotFirmware 4 [.record ⟨.recordOne, false, 0⟩, .record ⟨.a, true, 0⟩,
        .record ⟨.a, false, 0⟩, .record ⟨.recordStop, true, 0⟩, .record (playKey false)]
        (start oneShotFirmware blank 0) = some s ∧ SharesBuffer oneShotFirmware blank s := by
  have htrace : (run oneShotFirmware 4 [.record ⟨.recordOne, false, 0⟩, .record ⟨.a, true, 0⟩,
        .record ⟨.a, false, 0⟩, .record ⟨.recordStop, true, 0⟩, .record (playKey false)]
        (start oneShotFirmware blank 0)).map State.trace =
      some [.start .one, .record ⟨.a, true, 0⟩, .record ⟨.a, false, 0⟩, .stop,
        .handled 0 ⟨.a, true, 0⟩, .handled 0 ⟨.a, false, 0⟩] := rfl
  obtain ⟨s, hrun, hs⟩ := Option.map_eq_some_iff.mp htrace
  refine ⟨s, hrun, run_sharesBuffer blank 0 hrun ?_⟩
  rw [hs]
  rintro e r hm
  simp only [List.mem_cons, reduceCtorEq, Event.handled.injEq, List.not_mem_nil, or_false,
    false_or] at hm
  rcases hm with ⟨rfl, rfl⟩ | ⟨rfl, rfl⟩ <;> rfl

/-- The number of the macro that is recorded, the events of the first macro, and what it plays. -/
def replay (s : State Key (BitVec 8)) :
    Option Macro × List (KeyRecord Key) × Option (List (KeyRecord Key)) :=
  (s.macroId, recorded oneShotFirmware s .one,
    (processRecord oneShotFirmware 9 none (playKey false) s).map Prod.fst)

/-- The second time, the macro plays the release of the key instead of its press. -/
theorem typed_replay :
    (run oneShotFirmware 9 (typed ++ [.record (playKey true), .record (playKey false)])
      (start oneShotFirmware blank 0)).map replay =
    some (none,
      [⟨.oneShot 1, true, 1⟩, ⟨.oneShot 1, false, 1⟩, ⟨.a, true, 0⟩, ⟨.a, false, 0⟩,
        ⟨.a, false, 0⟩],
      some [⟨.oneShot 1, true, 1⟩, ⟨.oneShot 1, false, 1⟩, ⟨.a, false, 0⟩, ⟨.a, false, 0⟩,
        ⟨.a, false, 0⟩]) := by
  decide

/-- Two releases of the play key, with the macro recorded before. -/
theorem oneShot_not_sharesBuffer :
    ∃ s, run oneShotFirmware 9 (typed ++ [.record (playKey true), .record (playKey false)])
        (start oneShotFirmware blank 0) = some s ∧
      ¬ SharesBuffer oneShotFirmware blank s := by
  obtain ⟨s, hrun, hreplay⟩ := Option.map_eq_some_iff.mp typed_replay
  refine ⟨s, hrun, fun h => ?_⟩
  simp only [replay, Prod.mk.injEq] at hreplay
  obtain ⟨hs, hrec, hfed⟩ := hreplay
  have hplay : ∀ x ∈ recorded oneShotFirmware s .one,
      ∀ m', oneShotFirmware.keycode x.key ≠ .play m' := by
    rw [hrec]
    simp [oneShotFirmware]
  obtain ⟨s', hs'⟩ := h.plays .one (playKey false) 9 hs rfl rfl hplay (by rw [hrec]; decide)
  rw [hs', hrec] at hfed
  simp at hfed

end OneShot

end Qmk.DynamicMacro
