import Qmk.DynamicMacro

/-! # What dynamic macros store

Every function of the macros keeps the buffer in step with the events that have been recorded. So
does a whole run, as long as it is calm.
-/

namespace Qmk.DynamicMacro

open BothEnds

section Refinement

variable {κ σ : Type*} {fw : Firmware κ σ} {buffer : ℤ → KeyRecord κ} {spec : Spec κ}
  {s : State κ σ} {m : Macro} {r : KeyRecord κ}

@[simp] theorem Macro.other_other (m : Macro) : m.other.other = m := by cases m <;> rfl

@[simp] theorem Macro.other_ne (m : Macro) : m.other ≠ m := by cases m <;> decide

theorem Macro.eq_or_eq_other (m m' : Macro) : m' = m ∨ m' = m.other := by
  cases m <;> cases m' <;> simp [Macro.other]

theorem Macro.direction_ne (m : Macro) : m.direction ≠ 0 := by cases m <;> decide

/-- The events of a recording that have been written, with room for so many. -/
def written (room : ℕ) (events : List (KeyRecord κ)) : List (KeyRecord κ) :=
  (events.dropWhile fun r => !r.pressed).take room

theorem written_append (room : ℕ) (events : List (KeyRecord κ)) (r : KeyRecord κ) :
    written room (events ++ [r]) =
      if r.pressed = false ∧ written room events = [] then written room events
      else if (written room events).length < room then written room events ++ [r]
      else written room events := by
  unfold written
  rw [List.dropWhile_append]
  set D := events.dropWhile fun r => !r.pressed
  cases hD : D with
  | nil =>
    cases hr : r.pressed with
    | false => simp [hr]
    | true => cases room <;> simp [hr]
  | cons a l =>
    simp only [List.isEmpty_cons, Bool.false_eq_true, if_false]
    by_cases hl : (a :: l).length < room
    · have hr : (a :: l ++ [r]).length ≤ room := by
        rw [List.length_append]
        exact hl
      rw [List.take_of_length_le hr, List.take_of_length_le hl.le]
      rw [if_neg (by simp), if_pos hl]
    · have hle : room ≤ (a :: l).length := not_lt.mp hl
      rw [List.take_append_of_le_length hle, List.length_take, Nat.min_eq_left hle]
      simp

theorem length_written_le (room : ℕ) (events : List (KeyRecord κ)) :
    (written room events).length ≤ room :=
  List.length_take_le _ _

theorem kept_isPrefix (room : ℕ) (events : List (KeyRecord κ)) :
    kept room events <+: written room events :=
  List.rdropWhile_prefix _ _

theorem mem_of_mem_kept {room : ℕ} {events : List (KeyRecord κ)} (h : r ∈ kept room events) :
    r ∈ events :=
  (List.dropWhile_suffix _).mem (List.mem_of_mem_take ((kept_isPrefix _ _).mem h))

def Spec.room (size : ℕ) (spec : Spec κ) (m : Macro) : ℕ := size - (spec.stored m.other).length

def Storable (fw : Firmware κ σ) (r : KeyRecord κ) : Prop :=
  ∀ m, fw.keycode r.key ≠ .recordStart m

/-- The buffer and the pointers store the events of the specification. -/
structure Refines (fw : Firmware κ σ) (buffer : ℤ → KeyRecord κ) (spec : Spec κ)
    (s : State κ σ) : Prop where
  macroId : s.macroId = spec.recording.map Prod.fst
  macroEnd : ∀ m, s.macroEnd m = fw.begin m + m.direction * (spec.stored m).length
  room : ∀ m, (spec.stored m).length + (spec.stored m.other).length ≤ fw.size
  stored : ∀ m, s.macroId ≠ some m →
    readFrom s.macroBuffer m.direction (fw.begin m) (spec.stored m).length = spec.stored m
  pointer : ∀ m events, spec.recording = some (m, events) →
    s.macroPointer = fw.begin m + m.direction * (written (spec.room fw.size m) events).length
  recording : ∀ m events, spec.recording = some (m, events) →
    readFrom s.macroBuffer m.direction (fw.begin m)
      (written (spec.room fw.size m) events).length = written (spec.room fw.size m) events
  outside : ∀ p ∉ places fw, s.macroBuffer p = buffer p
  storable : ∀ m, ∀ r ∈ spec.stored m, Storable fw r
  recordable : ∀ m events, spec.recording = some (m, events) → ∀ r ∈ events, Storable fw r

theorem refines_start (env : σ) : Refines fw buffer {} (start fw buffer env) where
  macroId := rfl
  macroEnd m := by simp [start]
  room m := by simp
  stored m _ := by simp
  pointer := by simp
  recording := by simp
  outside _ _ := rfl
  storable := by simp
  recordable := by simp

theorem Refines.withEnv (h : Refines fw buffer spec s) (env : σ) (trace : List (Event κ σ)) :
    Refines fw buffer spec { s with env := env, trace := trace } :=
  ⟨h.macroId, h.macroEnd, h.room, h.stored, h.pointer, h.recording, h.outside, h.storable,
    h.recordable⟩

theorem Refines.recordStart (h : Refines fw buffer spec s) (hs : s.macroId = none) (m : Macro) :
    Refines fw buffer (spec.next (σ := σ) fw.size (.start m)) (recordStart fw m s) where
  macroId := rfl
  macroEnd := h.macroEnd
  room := h.room
  stored m' _ := h.stored m' (by simp [hs])
  pointer m' events he := by
    obtain ⟨rfl, rfl⟩ : m = m' ∧ [] = events := by simpa [Spec.next] using he
    simp [DynamicMacro.recordStart, written]
  recording m' events he := by
    obtain ⟨rfl, rfl⟩ : m = m' ∧ [] = events := by simpa [Spec.next] using he
    simp [written]
  outside := h.outside
  storable := h.storable
  recordable m' events he := by
    obtain ⟨rfl, rfl⟩ : m = m' ∧ [] = events := by simpa [Spec.next] using he
    simp

theorem Refines.macroId_of_recording {events : List (KeyRecord κ)}
    (h : Refines fw buffer spec s) (hm : spec.recording = some (m, events)) :
    s.macroId = some m := by
  rw [h.macroId, hm]
  rfl

/-- There is room behind the pointer exactly if the end of the other macro is not next to it. -/
theorem Refines.free_iff {events : List (KeyRecord κ)} (h : Refines fw buffer spec s)
    (hm : spec.recording = some (m, events)) :
    s.macroPointer - m.direction ≠ s.macroEnd m.other ↔
      (written (spec.room fw.size m) events).length < spec.room fw.size m := by
  have hle := length_written_le (spec.room fw.size m) events
  have hroom := h.room m
  rw [h.pointer m events hm, h.macroEnd]
  generalize (written (spec.room fw.size m) events).length = n at *
  unfold Spec.room at *
  cases m <;> simp only [Macro.direction, Macro.other, Firmware.begin] at * <;> omega

theorem Refines.pointer_eq_begin_iff {events : List (KeyRecord κ)}
    (h : Refines fw buffer spec s) (hm : spec.recording = some (m, events)) :
    s.macroPointer = fw.begin m ↔ written (spec.room fw.size m) events = [] := by
  rw [h.pointer m events hm, ← List.length_eq_zero_iff]
  have := m.direction_ne
  simp [this]

theorem free_place (fw : Firmware κ σ) {n k : ℕ} (hn : n < fw.size - k) (m : Macro) :
    fw.begin m + m.direction * n ∈ places fw ∧
      fw.begin m + m.direction * n ∉ span m.other.direction (fw.begin m.other) k := by
  cases m with
  | one =>
    refine ⟨?_, fun hp => ?_⟩
    · simp only [Firmware.begin, Macro.direction, places, Set.mem_ofPred_eq]
      omega
    · simp only [Macro.other, Macro.direction, Firmware.begin, mem_span_down] at hp
      omega
  | two =>
    refine ⟨?_, fun hp => ?_⟩
    · simp only [Firmware.begin, Macro.direction, places, Set.mem_ofPred_eq]
      omega
    · simp only [Macro.other, Macro.direction, Firmware.begin, mem_span_up] at hp
      omega

theorem next_record {events : List (KeyRecord κ)} (hm : spec.recording = some (m, events)) :
    spec.next (σ := σ) fw.size (.record r) =
      { spec with recording := some (m, events ++ [r]) } := by
  rw [Spec.next, hm]
  rfl

theorem Refines.extend {events : List (KeyRecord κ)} {s' : State κ σ}
    (h : Refines fw buffer spec s) (hm : spec.recording = some (m, events)) (hr : Storable fw r)
    (hid : s'.macroId = s.macroId) (hend : s'.macroEnd = s.macroEnd)
    (hout : ∀ p ∉ places fw, s'.macroBuffer p = s.macroBuffer p)
    (hother : ∀ p ∈ span m.other.direction (fw.begin m.other) (spec.stored m.other).length,
      s'.macroBuffer p = s.macroBuffer p)
    (hp : s'.macroPointer = fw.begin m +
      m.direction * (written (spec.room fw.size m) (events ++ [r])).length)
    (hw : readFrom s'.macroBuffer m.direction (fw.begin m)
      (written (spec.room fw.size m) (events ++ [r])).length =
        written (spec.room fw.size m) (events ++ [r])) :
    Refines fw buffer { spec with recording := some (m, events ++ [r]) } s' := by
  have hsm := h.macroId_of_recording hm
  constructor
  case macroId => rw [hid, hsm]; rfl
  case macroEnd => rw [hend]; exact h.macroEnd
  case room => exact h.room
  case stored =>
    intro m' hm'
    rw [hid, hsm] at hm'
    obtain rfl | rfl := m.eq_or_eq_other m'
    · exact absurd rfl hm'
    · rw [readFrom_congr hother]
      exact h.stored _ (by rw [hsm]; exact hm')
  case pointer =>
    rintro m' _ ⟨⟩
    exact hp
  case recording =>
    rintro m' _ ⟨⟩
    exact hw
  case outside => exact fun p hp => (hout p hp).trans (h.outside p hp)
  case storable => exact h.storable
  case recordable =>
    rintro m' _ ⟨⟩ x hx
    rcases List.mem_append.mp hx with hx | hx
    · exact h.recordable m events hm x hx
    · rwa [List.mem_singleton.mp hx]

theorem Refines.recordKey {events : List (KeyRecord κ)} (h : Refines fw buffer spec s)
    (hm : spec.recording = some (m, events)) (hr : Storable fw r) :
    Refines fw buffer (spec.next (σ := σ) fw.size (.record r)) (recordKey fw m r s) := by
  have hw := written_append (spec.room fw.size m) events r
  rw [next_record hm]
  simp only [DynamicMacro.recordKey, State.log, h.pointer_eq_begin_iff hm, h.free_iff hm]
  split_ifs with hlead hfree
  · -- a release at the beginning of the recording
    rw [if_pos hlead] at hw
    refine h.extend hm hr rfl rfl (fun _ _ => rfl) (fun _ _ => rfl) ?_ ?_
    · rw [hw]
      exact h.pointer m events hm
    · rw [hw]
      exact h.recording m events hm
  · rw [if_neg hlead, if_pos hfree] at hw
    obtain ⟨hin, hnot⟩ := free_place fw hfree m
    rw [← h.pointer m events hm] at hin hnot
    have hne {p q : ℤ} (hpq : p ≠ q) :
        Function.update s.macroBuffer q r p = s.macroBuffer p := Function.update_of_ne hpq _ _
    refine h.extend hm hr rfl rfl ?_ ?_ ?_ ?_
    · intro p hp
      exact hne (by rintro rfl; exact hp hin)
    · intro p hp
      exact hne (by rintro rfl; exact hnot hp)
    · rw [hw, List.length_append, h.pointer m events hm]
      push_cast
      simp only [List.length_cons, List.length_nil]
      push_cast
      ring
    · rw [hw, List.length_append]
      refine (readFrom_succ _).trans ?_
      rw [h.pointer m events hm, readFrom_update (next_notMem_span m.direction_ne _),
        h.recording m events hm]
      simp only [Function.update_self]
  · -- the recording has come to the other macro
    rw [if_neg hlead, if_neg hfree] at hw
    refine h.extend hm hr rfl rfl (fun _ _ => rfl) (fun _ _ => rfl) ?_ ?_
    · rw [hw]
      exact h.pointer m events hm
    · rw [hw]
      exact h.recording m events hm

theorem trim_readFrom (fw : Firmware κ σ) (m : Macro) (mem : ℤ → KeyRecord κ) (n : ℕ) :
    trim fw m mem n (fw.begin m + m.direction * n) = fw.begin m + m.direction *
      ((readFrom mem m.direction (fw.begin m) n).rdropWhile KeyRecord.pressed).length := by
  induction n with
  | zero => simp [trim]
  | succ n ih =>
    have hback : fw.begin m + m.direction * (n + 1 : ℕ) - m.direction =
        fw.begin m + m.direction * n := by
      push_cast
      ring
    have hne : fw.begin m + m.direction * (n + 1 : ℕ) ≠ fw.begin m := by
      have := m.direction_ne
      simpa [this] using by omega
    rw [trim, hback, ih, readFrom_succ, List.rdropWhile_concat]
    simp only [hne, ne_eq, not_false_eq_true, true_and]
    split_ifs
    · rfl
    · simp

theorem Refines.stopRecording (h : Refines fw buffer spec s) :
    Refines fw buffer (spec.next (σ := σ) fw.size .stop) (stopRecording fw s) := by
  cases hm : spec.recording with
  | none =>
    have hs : s.macroId = none := by rw [h.macroId, hm]; rfl
    simp only [DynamicMacro.stopRecording, Spec.next, hs, hm]
    exact h.withEnv _ _
  | some p =>
    obtain ⟨m, events⟩ := p
    have hs := h.macroId_of_recording hm
    have hw := h.recording m events hm
    have hkept := kept_isPrefix (spec.room fw.size m) events
    have hend : trim fw m s.macroBuffer (s.macroPointer - fw.begin m).natAbs s.macroPointer =
        fw.begin m + m.direction * (kept (spec.room fw.size m) events).length := by
      have hlen : (s.macroPointer - fw.begin m).natAbs =
          (written (spec.room fw.size m) events).length := by
        rw [h.pointer m events hm, add_sub_cancel_left, Int.natAbs_mul, Int.natAbs_natCast]
        cases m <;> simp [Macro.direction]
      rw [hlen, h.pointer m events hm, trim_readFrom, hw]
      rfl
    have hle : (kept (spec.room fw.size m) events).length ≤
        fw.size - (spec.stored m.other).length :=
      hkept.length_le.trans (length_written_le _ _)
    have hroom := h.room m
    have hnext : spec.next (σ := σ) fw.size .stop =
        { stored := Function.update spec.stored m (kept (spec.room fw.size m) events) } := by
      rw [Spec.next, hm]
      rfl
    rw [hnext]
    simp only [DynamicMacro.stopRecording, hs, DynamicMacro.recordEnd, State.log, hend]
    constructor
    case macroId => rfl
    case macroEnd =>
      intro m'
      obtain rfl | rfl := m.eq_or_eq_other m'
      · simp
      · simp [h.macroEnd]
    case room =>
      intro m'
      obtain rfl | rfl := m.eq_or_eq_other m' <;> simp <;> omega
    case stored =>
      intro m' _
      obtain rfl | rfl := m.eq_or_eq_other m'
      · simp only [Function.update_self]
        exact readFrom_of_isPrefix (hw ▸ hkept)
      · simp only [Function.update_of_ne m.other_ne]
        exact h.stored _ (by simpa [hs] using m.other_ne.symm)
    case pointer => rintro m' _ ⟨⟩
    case recording => rintro m' _ ⟨⟩
    case outside => exact h.outside
    case storable =>
      intro m' x hx
      obtain rfl | rfl := m.eq_or_eq_other m'
      · simp only [Function.update_self] at hx
        exact h.recordable m' events hm x (mem_of_mem_kept hx)
      · simp only [Function.update_of_ne m.other_ne] at hx
        exact h.storable _ x hx
    case recordable => rintro m' _ ⟨⟩

theorem Refines.exists_recording (h : Refines fw buffer spec s) (hs : s.macroId = some m) :
    ∃ events, spec.recording = some (m, events) := by
  obtain ⟨⟨m', events⟩, hm, rfl⟩ := Option.map_eq_some_iff.mp (h.macroId ▸ hs)
  exact ⟨events, hm⟩

end Refinement

section Runs

variable {κ σ : Type*} {fw : Firmware κ σ} {buffer : ℤ → KeyRecord κ} {s s' : State κ σ}
  {m : Macro} {r : KeyRecord κ} {home : Option ℤ}

@[simp] theorem after_concat (size : ℕ) (trace : List (Event κ σ)) (e : Event κ σ) :
    Spec.after size (trace ++ [e]) = (Spec.after size trace).next size e := by
  simp [Spec.after]

theorem Calm.of_concat {trace : List (Event κ σ)} {e : Event κ σ} (h : Calm fw (trace ++ [e])) :
    Calm fw trace :=
  fun env r hm => h env r (List.mem_append_left _ hm)

/-- As long as no stored record is written to, the macros store what was recorded. -/
def Sound (fw : Firmware κ σ) (buffer : ℤ → KeyRecord κ) (s : State κ σ) : Prop :=
  Calm fw s.trace → Refines fw buffer (Spec.after fw.size s.trace) s

theorem sound_start (env : σ) : Sound fw buffer (start fw buffer env) :=
  fun _ => refines_start env

theorem Sound.withEnv (h : Sound fw buffer s) (env : σ) : Sound fw buffer { s with env := env } :=
  fun hc => (h hc).withEnv env s.trace

theorem Sound.recordStart (h : Sound fw buffer s) (hs : s.macroId = none) (m : Macro) :
    Sound fw buffer (recordStart fw m s) := by
  intro hc
  simp only [DynamicMacro.recordStart, State.log] at hc
  exact after_concat (σ := σ) .. ▸ (h hc.of_concat).recordStart hs m

theorem Sound.recordKey (h : Sound fw buffer s) (hs : s.macroId = some m)
    (hr : Storable fw r) : Sound fw buffer (recordKey fw m r s) := by
  have ht : (DynamicMacro.recordKey fw m r s).trace = s.trace ++ [.record r] := by
    unfold DynamicMacro.recordKey
    dsimp only
    split
    · rfl
    · split <;> rfl
  unfold Sound
  rw [ht, after_concat]
  intro hc
  obtain ⟨events, hm⟩ := (h hc.of_concat).exists_recording hs
  exact (h hc.of_concat).recordKey hm hr

theorem Sound.recordValid (h : Sound fw buffer s) (hs : s.macroId = some m)
    (hr : Storable fw r) : Sound fw buffer (recordValid fw m r s) := by
  unfold DynamicMacro.recordValid
  split_ifs
  · exact h.recordKey hs hr
  · exact h

theorem Sound.stopRecording (h : Sound fw buffer s) : Sound fw buffer (stopRecording fw s) := by
  have ht : (DynamicMacro.stopRecording fw s).trace = s.trace ++ [.stop] := by
    unfold DynamicMacro.stopRecording
    split <;> rfl
  unfold Sound
  rw [ht, after_concat]
  exact fun hc => (h hc.of_concat).stopRecording

theorem Sound.handOn (h : Sound fw buffer s) (home : Option ℤ) (r : KeyRecord κ) :
    Sound fw buffer (s.handOn home r) := by
  unfold State.handOn
  split_ifs
  · intro hc
    simp only [State.log] at hc
    exact after_concat (σ := σ) .. ▸ (h hc.of_concat).withEnv s.env _
  · exact h

theorem Sound.write (h : Sound fw buffer s) (hw : (fw.handle s.env r).leaves = false)
    (r' : KeyRecord κ) : Sound fw buffer ((s.handOn home r).write home r') := by
  cases home with
  | none => exact h
  | some p =>
    intro hc
    have := hc s.env r (by simp [State.write, State.handOn, State.log])
    rw [hw] at this
    cases this

def Keeps (fw : Firmware κ σ) (buffer : ℤ → KeyRecord κ) (process : Process κ σ) : Prop :=
  ∀ home r s fed s', Sound fw buffer s → process home r s = some (fed, s') → Sound fw buffer s'

theorem Keeps.playFrom {process : Process κ σ} (hp : Keeps fw buffer process)
    (direction finish : ℤ) (n : ℕ) :
    ∀ (cursor : ℤ) {s s' : State κ σ} {fed : List (KeyRecord κ)}, Sound fw buffer s →
      playFrom process direction finish n cursor s = some (fed, s') → Sound fw buffer s' := by
  induction n with
  | zero => exact fun _ _ _ _ _ hrun => by simp [DynamicMacro.playFrom] at hrun
  | succ n ih =>
    intro cursor s s' fed h hrun
    rw [DynamicMacro.playFrom] at hrun
    split_ifs at hrun
    · cases hrun
      exact h
    · simp only [Option.bind_eq_bind, Option.bind_eq_some_iff, Prod.exists, Option.some.injEq,
        Prod.mk.injEq] at hrun
      obtain ⟨fed₁, s₁, hfirst, fed₂, s₂, hrest, -, rfl⟩ := hrun
      exact ih _ (hp _ _ _ _ _ h hfirst) hrest

theorem Keeps.play {process : Process κ σ} (hp : Keeps fw buffer process) {n : ℕ} {m : Macro}
    {fed : List (KeyRecord κ)} (h : Sound fw buffer s)
    (hrun : play fw process n m s = some (fed, s')) : Sound fw buffer s' := by
  simp only [DynamicMacro.play, Option.bind_eq_bind, Option.bind_eq_some_iff, Prod.exists,
    Option.some.injEq, Prod.mk.injEq] at hrun
  obtain ⟨fed', s₁, hloop, rfl, rfl⟩ := hrun
  exact (hp.playFrom _ _ _ _ (h.withEnv _) hloop).withEnv _

theorem Keeps.processDynamicMacro {process : Process κ σ} (hp : Keeps fw buffer process) {n : ℕ}
    {goesOn : Bool} {fed : List (KeyRecord κ)} (h : Sound fw buffer s)
    (hrun : processDynamicMacro fw process n r s = some (goesOn, fed, s')) :
    Sound fw buffer s' := by
  unfold DynamicMacro.processDynamicMacro at hrun
  cases hs : s.macroId with
  | none =>
    simp only [hs] at hrun
    split_ifs at hrun
    · cases hrun
      exact h
    · split at hrun
      · cases hrun
        exact h.recordStart hs _
      · obtain ⟨⟨fed', s₁⟩, hplay, hout⟩ := Option.map_eq_some_iff.mp hrun
        cases hout
        exact hp.play h hplay
      · cases hrun
        exact h
  | some m =>
    simp only [hs] at hrun
    split at hrun
    case h_1 | h_2 =>
      cases hrun
      split_ifs
      · exact h.stopRecording
      · exact h
    case h_3 k hk =>
      split_ifs at hrun
      · cases hrun
        exact h
      · cases hrun
        exact h.recordValid hs fun m' hm => by simp [hk] at hm
    case h_4 hk =>
      cases hrun
      exact h.recordValid hs fun m' hm => by simp [hk] at hm

theorem keeps_processRecord (buffer : ℤ → KeyRecord κ) (n : ℕ) :
    Keeps fw buffer (processRecord fw n) := by
  induction n with
  | zero => exact fun _ _ _ _ _ _ hrun => by simp [processRecord] at hrun
  | succ n ih =>
    intro home r s fed s' h hrun
    simp only [processRecord, Option.bind_eq_bind, Option.bind_eq_some_iff, Prod.exists] at hrun
    obtain ⟨goesOn, fed₁, s₁, hmacro, hrun⟩ := hrun
    have h₁ := ih.processDynamicMacro h hmacro
    split_ifs at hrun
    · split at hrun
      case h_1 env he =>
        cases hrun
        exact (h₁.handOn home r).withEnv env
      case h_2 env he =>
        cases hrun
        exact (h₁.write (by rw [he]; rfl) _).withEnv env
      case h_3 env layerOff he =>
        simp only [Option.bind_eq_some_iff, Prod.exists, Option.some.injEq,
          Prod.mk.injEq] at hrun
        obtain ⟨fed₂, s₂, hagain, -, rfl⟩ := hrun
        exact (ih _ _ _ _ _ ((h₁.write (by rw [he]; rfl) _).withEnv env) hagain).withEnv _
    · cases hrun
      exact h₁.withEnv _

theorem Sound.step {n : ℕ} {op : Op κ σ} (h : Sound fw buffer s)
    (hstep : step fw n s op = some s') : Sound fw buffer s' := by
  cases op with
  | record r =>
    obtain ⟨⟨fed, s₁⟩, hrun, rfl⟩ := Option.map_eq_some_iff.mp hstep
    exact keeps_processRecord buffer n _ _ _ _ _ h hrun
  | stopRecording =>
    cases hstep
    exact h.stopRecording
  | task env =>
    cases hstep
    exact h.withEnv env

theorem Sound.run {n : ℕ} {ops : List (Op κ σ)} (h : Sound fw buffer s)
    (hrun : run fw n ops s = some s') : Sound fw buffer s' := by
  induction ops generalizing s with
  | nil =>
    cases hrun
    exact h
  | cons op ops ih =>
    simp only [DynamicMacro.run, List.foldlM_cons, Option.bind_eq_bind,
      Option.bind_eq_some_iff] at hrun
    obtain ⟨s₁, hstep, hrest⟩ := hrun
    exact ih (h.step hstep) hrest

end Runs

end Qmk.DynamicMacro
