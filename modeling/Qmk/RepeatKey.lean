import Qmk.Tapping.Engine

/-! # The Repeat Key

`repeat_key.c` with the key processing of `process_repeat_key.c`. The Repeat Key
plumbs the key pressed last into `process_record` once more, and the Alternate
Repeat Key one that is assigned to it.
-/

namespace Qmk.RepeatKey

open Tapping (Keyevent Tap)

/-- `keyrecord_t`, with the keycode that a record carries instead of one from the keymap. -/
structure Record where
  event : Keyevent := .makeTick 0
  tap : Tap := {}
  keycode : UInt16 := 0
  deriving DecidableEq, Repr

inductive Effect
  | processRecord (record : Record)
  | registerWeakMods (mods : UInt8)
  | unregisterWeakMods (mods : UInt8)
  deriving DecidableEq, Repr

/-- The static variables, those inside `repeat_key_invoke` and `alt_repeat_key_invoke` among them,
and the trace of effects, oldest first. The counts stay between -127 and 127. -/
structure State where
  lastRecord : Record := {}
  lastMods : UInt8 := 0
  lastRepeatCount : ℤ := 0
  processingRepeatCount : ℤ := 0
  registeredRecord : Record := {}
  registeredRepeatCount : ℤ := 0
  altRegisteredRecord : Record := {}
  altRegisteredRepeatCount : ℤ := 0
  effects : List Effect := []
  deriving DecidableEq, Repr

/-- The features chosen at compile time, and `get_alt_repeat_key_keycode` with its user callback,
which is a function of the last keycode and the last mods. -/
structure Config where
  noActionOneshot : Bool := false
  noActionTapping : Bool := false
  noActionLayer : Bool := false
  triLayer : Bool := false
  swapHands : Bool := false
  noAltRepeatKey : Bool := false
  getAltRepeatKeyKeycode : UInt16 → UInt8 → UInt16 := fun _ _ => 0

/-- One call of `process_record` from outside, with the answers that it meets: the keycode of the
event in the keymap, the mods to remember and the decision of `remember_last_key_user`. -/
structure Input where
  record : Record
  eventKeycode : UInt16
  mods : UInt8 := 0
  rememberLastKeyUser : Bool := true
  deriving DecidableEq, Repr

def qkRepeatKey : UInt16 := 0x7C79

def qkAltRepeatKey : UInt16 := 0x7C7A

def getRecordKeycode (i : Input) (r : Record) : UInt16 :=
  if r.keycode ≠ 0 then r.keycode else i.eventKeycode

def Input.keycode (i : Input) : UInt16 := getRecordKeycode i i.record

def setLastRecord (keycode : UInt16) (r : Record) (s : State) : State :=
  { s with lastRecord := { r with keycode := keycode }, lastRepeatCount := 0 }

def updateLastRepeatCount (dir : ℤ) (count : ℤ) : ℤ :=
  if dir * count < 0 then dir else if dir * count < 127 then count + dir else count

section

variable (cfg : Config)

/-- The keycodes that `remember_last_key` never remembers. -/
def ignored (keycode : UInt16) : Bool :=
  (0x5220 ≤ keycode && keycode ≤ 0x523F) || (0x5200 ≤ keycode && keycode ≤ 0x521F) ||
  (0x5260 ≤ keycode && keycode ≤ 0x527F) || (0x52C0 ≤ keycode && keycode ≤ 0x52DF) ||
  (0x00E0 ≤ keycode && keycode ≤ 0x00E7) || keycode = 0x0F00 || keycode = 0x0700 ||
  (!cfg.noActionOneshot &&
    ((0x5280 ≤ keycode && keycode ≤ 0x529F) || (0x52A0 ≤ keycode && keycode ≤ 0x52BF))) ||
  (cfg.triLayer && (keycode = 0x7C77 || keycode = 0x7C78))

/-- The keycodes of tap-hold keys, which `remember_last_key` ignores when they are held. -/
def ignoredHeld (keycode : UInt16) : Bool :=
  (!cfg.noActionTapping && ((0x2000 ≤ keycode && keycode ≤ 0x3FFF) ||
    (!cfg.noActionLayer && (0x4000 ≤ keycode && keycode ≤ 0x4FFF)))) ||
  (cfg.swapHands && (0x5600 ≤ keycode && keycode ≤ 0x56FF))

def rememberLastKey (i : Input) (keycode : UInt16) (r : Record) : Bool :=
  if ignored cfg keycode then false
  else if ignoredHeld cfg keycode && r.tap.count = 0 then false
  else if cfg.swapHands && (0x56F0 ≤ keycode && keycode ≤ 0x56F6) then false
  else if keycode = qkRepeatKey || (!cfg.noAltRepeatKey && keycode = qkAltRepeatKey) then false
  else i.rememberLastKeyUser

/-- `process_last_key`, which always lets the event pass. -/
def processLastKey (i : Input) (keycode : UInt16) (r : Record) (s : State) : State :=
  if s.processingRepeatCount ≠ 0 then s
  else if r.event.pressed && rememberLastKey cfg i keycode r then
    { setLastRecord keycode r s with lastMods := i.mods }
  else s

/-- Plumb a record into `process_record`, counted as repeated, and go on afterwards. -/
def plumb (processRecord : State → Record → Option State) (r : Record) (count : ℤ) (s : State) :
    Option State :=
  (processRecord { s with
    processingRepeatCount := count
    effects := s.effects ++ [.processRecord r] } r).map
    fun s => { s with processingRepeatCount := 0 }

def repeatKeyInvoke (processRecord : State → Record → Option State) (event : Keyevent)
    (s : State) : Option State :=
  if s.processingRepeatCount ≠ 0 ∨ s.lastRecord.keycode = 0 then some s
  else if event.pressed then
    let count := updateLastRepeatCount 1 s.lastRepeatCount
    let r := { s.lastRecord with event := event }
    plumb processRecord r count { s with
      lastRepeatCount := count
      effects := s.effects ++ [.registerWeakMods s.lastMods]
      registeredRecord := r
      registeredRepeatCount := count }
  else
    let r := { s.registeredRecord with event := event }
    (plumb processRecord r s.registeredRepeatCount { s with registeredRecord := r }).map
      fun s => { s with effects := s.effects ++ [.unregisterWeakMods s.lastMods] }

def altRepeatKeyInvoke (processRecord : State → Record → Option State) (event : Keyevent)
    (s : State) : Option State :=
  if s.processingRepeatCount ≠ 0 then some s
  else if event.pressed then
    let keycode := cfg.getAltRepeatKeyKeycode s.lastRecord.keycode s.lastMods
    if keycode = 0 then some { s with altRegisteredRecord := { keycode := keycode } }
    else
      let count := updateLastRepeatCount (-1) s.lastRepeatCount
      let r := { event := event, keycode := keycode }
      plumb processRecord r count { s with
        lastRepeatCount := count
        altRegisteredRecord := r
        altRegisteredRepeatCount := count }
  else if s.altRegisteredRecord.keycode = 0 then some s
  else
    let r := { s.altRegisteredRecord with event := event }
    plumb processRecord r s.altRegisteredRepeatCount { s with altRegisteredRecord := r }

def processRepeatKey (processRecord : State → Record → Option State) (keycode : UInt16)
    (r : Record) (s : State) : Option State :=
  if s.processingRepeatCount ≠ 0 then some s
  else if keycode = qkRepeatKey then repeatKeyInvoke processRecord r.event s
  else if cfg.noAltRepeatKey = false ∧ keycode = qkAltRepeatKey then
    altRepeatKeyInvoke cfg processRecord r.event s
  else some s

/-- The part of `process_record` that concerns the Repeat Key. It calls itself through the records
that are plumbed back into it; `none` stands for calls nested more deeply than the given depth. -/
def processRecord (i : Input) : ℕ → State → Record → Option State
  | 0, _, _ => none
  | depth + 1, s, r =>
    let keycode := getRecordKeycode i r
    processRepeatKey cfg (processRecord i depth) keycode r (processLastKey cfg i keycode r s)

/-- One event from outside. -/
def step (depth : ℕ) (s : State) (i : Input) : Option State :=
  processRecord cfg i depth s i.record

/-- A sequence of events. -/
def run (depth : ℕ) (s : State) (is : List Input) : Option State := is.foldlM (step cfg depth) s

end

def Effect.record? : Effect → Option Record
  | .processRecord r => some r
  | _ => none

/-- The records that have been plumbed into `process_record`. -/
def plumbed (s : State) : List Record := s.effects.filterMap Effect.record?

/-! ### Registered records -/

theorem updateLastRepeatCount_ne_zero {dir count : ℤ} (hdir : dir = 1 ∨ dir = -1) :
    updateLastRepeatCount dir count ≠ 0 := by
  unfold updateLastRepeatCount
  rcases hdir with rfl | rfl <;> split_ifs <;> omega

/-- Between two events nothing is being repeated, and a registered record comes with a count. -/
structure Settled (s : State) : Prop where
  idle : s.processingRepeatCount = 0
  registered : s.registeredRecord.keycode ≠ 0 → s.registeredRepeatCount ≠ 0
  altRegistered : s.altRegisteredRecord.keycode ≠ 0 → s.altRegisteredRepeatCount ≠ 0

variable {cfg : Config}

/-- While a record is being repeated, the handlers let everything pass. -/
theorem processRecord_of_processing {i : Input} {depth : ℕ} {s : State} {r : Record}
    (h : s.processingRepeatCount ≠ 0) : processRecord cfg i (depth + 1) s r = some s := by
  simp [processRecord, processLastKey, processRepeatKey, h]

/-- A record plumbed with a count does nothing but leave its trace. -/
theorem plumb_of_ne_zero {i : Input} {depth : ℕ} {s : State} {r : Record} {count : ℤ}
    (h : count ≠ 0) :
    plumb (processRecord cfg i (depth + 1)) r count s =
      some { s with processingRepeatCount := 0, effects := s.effects ++ [.processRecord r] } := by
  rw [plumb, processRecord_of_processing h]
  rfl

theorem processLastKey_settled {i : Input} {keycode : UInt16} {r : Record} {s : State}
    (h : Settled s) : Settled (processLastKey cfg i keycode r s) := by
  unfold processLastKey
  split_ifs
  · exact h
  · exact ⟨h.idle, h.registered, h.altRegistered⟩
  · exact h

theorem processLastKey_registered {i : Input} {keycode : UInt16} {r : Record} {s : State} :
    (processLastKey cfg i keycode r s).registeredRecord = s.registeredRecord ∧
      (processLastKey cfg i keycode r s).effects = s.effects := by
  unfold processLastKey
  split_ifs <;> exact ⟨rfl, rfl⟩

theorem plumb_settled {i : Input} {depth : ℕ} {s s' : State} {r : Record} {count : ℤ}
    (ih : ∀ s r s', Settled s → processRecord cfg i depth s r = some s' → Settled s')
    (hs : Settled s) (h : plumb (processRecord cfg i depth) r count s = some s') :
    Settled s' := by
  cases depth with
  | zero => simp [plumb, processRecord] at h
  | succ depth =>
    by_cases hc : count = 0
    · obtain ⟨t, ht, rfl⟩ := Option.map_eq_some_iff.mp h
      have hstart : Settled { s with
          processingRepeatCount := count
          effects := s.effects ++ [.processRecord r] } := ⟨hc, hs.registered, hs.altRegistered⟩
      have hsettled := ih _ _ _ hstart ht
      exact ⟨rfl, hsettled.registered, hsettled.altRegistered⟩
    · rw [plumb_of_ne_zero hc, Option.some_inj] at h
      subst h
      exact ⟨rfl, hs.registered, hs.altRegistered⟩

theorem repeatKeyInvoke_settled {i : Input} {depth : ℕ} {s s' : State} {e : Keyevent}
    (ih : ∀ s r s', Settled s → processRecord cfg i depth s r = some s' → Settled s')
    (hs : Settled s) (h : repeatKeyInvoke (processRecord cfg i depth) e s = some s') :
    Settled s' := by
  unfold repeatKeyInvoke at h
  split_ifs at h with hstop hpressed
  · cases h
    exact hs
  · refine plumb_settled ih ?_ h
    exact ⟨hs.idle, fun _ => updateLastRepeatCount_ne_zero (.inl rfl), hs.altRegistered⟩
  · obtain ⟨t, ht, rfl⟩ := Option.map_eq_some_iff.mp h
    have hsettled : Settled t := by
      refine plumb_settled ih ?_ ht
      exact ⟨hs.idle, hs.registered, hs.altRegistered⟩
    exact ⟨hsettled.idle, hsettled.registered, hsettled.altRegistered⟩

theorem altRepeatKeyInvoke_settled {i : Input} {depth : ℕ} {s s' : State} {e : Keyevent}
    (ih : ∀ s r s', Settled s → processRecord cfg i depth s r = some s' → Settled s')
    (hs : Settled s) (h : altRepeatKeyInvoke cfg (processRecord cfg i depth) e s = some s') :
    Settled s' := by
  simp only [altRepeatKeyInvoke] at h
  split_ifs at h with hstop hpressed hnone hnone
  · cases h
    exact hs
  · cases h
    exact ⟨hs.idle, hs.registered, fun hne => absurd hnone hne⟩
  · refine plumb_settled ih ?_ h
    exact ⟨hs.idle, hs.registered, fun _ => updateLastRepeatCount_ne_zero (.inr rfl)⟩
  · cases h
    exact hs
  · refine plumb_settled ih ?_ h
    exact ⟨hs.idle, hs.registered, hs.altRegistered⟩

theorem processRecord_settled {i : Input} {depth : ℕ} {s s' : State} {r : Record}
    (hs : Settled s) (h : processRecord cfg i depth s r = some s') : Settled s' := by
  induction depth generalizing s s' r with
  | zero => cases h
  | succ depth ih =>
    have hlast : Settled (processLastKey cfg i (getRecordKeycode i r) r s) :=
      processLastKey_settled hs
    simp only [processRecord, processRepeatKey] at h
    split_ifs at h with hstop hrep halt
    · exact absurd hlast.idle hstop
    · exact repeatKeyInvoke_settled (fun _ _ _ hs h => ih hs h) hlast h
    · exact altRepeatKeyInvoke_settled (fun _ _ _ hs h => ih hs h) hlast h
    · cases h
      exact hlast

theorem run_settled {depth : ℕ} {s s' : State} {is : List Input} (hs : Settled s)
    (h : run cfg depth s is = some s') : Settled s' := by
  induction is generalizing s with
  | nil =>
    cases h
    exact hs
  | cons i is ih =>
    obtain ⟨t, ht, hrest⟩ := Option.bind_eq_some_iff.mp h
    exact ih (processRecord_settled hs ht) hrest

/-! ### From the press of the Repeat Key to its release -/

theorem rememberLastKey_repeat (i : Input) (r : Record) :
    rememberLastKey cfg i qkRepeatKey r = false := by
  unfold rememberLastKey
  split_ifs with h₁ h₂ h₃ h₄
  · rfl
  · rfl
  · rfl
  · rfl
  · simp at h₄

theorem step_repeat {depth : ℕ} {s : State} (hs : Settled s) {i : Input}
    (hi : i.keycode = qkRepeatKey) :
    step cfg (depth + 1) s i =
      repeatKeyInvoke (processRecord cfg i depth) i.record.event s := by
  have hkey : getRecordKeycode i i.record = qkRepeatKey := hi
  have hlast : processLastKey cfg i qkRepeatKey i.record s = s := by
    simp [processLastKey, rememberLastKey_repeat]
  simp [step, processRecord, processRepeatKey, hkey, hlast, hs.idle]

/-- A press of the Repeat Key plumbs the last key, if there is one. -/
theorem step_press {depth : ℕ} {s : State} (hs : Settled s) {i : Input}
    (hi : i.keycode = qkRepeatKey) (hp : i.record.event.pressed = true) :
    step cfg (depth + 2) s i =
      if s.lastRecord.keycode = 0 then some s
      else some { s with
        lastRepeatCount := updateLastRepeatCount 1 s.lastRepeatCount
        processingRepeatCount := 0
        registeredRecord := { s.lastRecord with event := i.record.event }
        registeredRepeatCount := updateLastRepeatCount 1 s.lastRepeatCount
        effects := s.effects ++ [.registerWeakMods s.lastMods] ++
          [.processRecord { s.lastRecord with event := i.record.event }] } := by
  rw [step_repeat hs hi]
  by_cases h0 : s.lastRecord.keycode = 0
  · simp [repeatKeyInvoke, h0]
  · rw [repeatKeyInvoke, if_neg (by simp [hs.idle, h0]), if_pos hp, if_neg h0]
    exact plumb_of_ne_zero (updateLastRepeatCount_ne_zero (.inl rfl))

/-- A release of the Repeat Key plumbs the registered record, if there is a last key. -/
theorem step_release {depth : ℕ} {s : State} (hs : Settled s)
    (hr : s.registeredRecord.keycode ≠ 0) {i : Input} (hi : i.keycode = qkRepeatKey)
    (hp : i.record.event.pressed = false) :
    step cfg (depth + 2) s i =
      if s.lastRecord.keycode = 0 then some s
      else some { s with
        processingRepeatCount := 0
        registeredRecord := { s.registeredRecord with event := i.record.event }
        effects := s.effects ++ [.processRecord { s.registeredRecord with event := i.record.event }]
          ++ [.unregisterWeakMods s.lastMods] } := by
  rw [step_repeat hs hi]
  by_cases h0 : s.lastRecord.keycode = 0
  · simp [repeatKeyInvoke, h0]
  · rw [repeatKeyInvoke, if_neg (by simp [hs.idle, h0]), if_neg (by simp [hp]), if_neg h0]
    simp only [plumb_of_ne_zero (hs.registered hr), Option.map_some]

/-- The keycode that an event makes the last one. -/
def remembered (cfg : Config) (i : Input) : Option UInt16 :=
  if i.record.event.pressed && rememberLastKey cfg i i.keycode i.record then some i.keycode
  else none

theorem processLastKey_lastRecord {s : State} (hs : Settled s) (i : Input) :
    (processLastKey cfg i i.keycode i.record s).lastRecord.keycode =
      (remembered cfg i).getD s.lastRecord.keycode := by
  simp only [processLastKey, remembered, hs.idle]
  split_ifs <;> simp_all [setLastRecord]

theorem altRepeatKeyInvoke_keeps {i : Input} {depth : ℕ} {s s' : State} {e : Keyevent}
    (hs : Settled s)
    (h : altRepeatKeyInvoke cfg (processRecord cfg i (depth + 1)) e s = some s') :
    s'.registeredRecord = s.registeredRecord ∧ s'.lastRecord = s.lastRecord := by
  simp only [altRepeatKeyInvoke] at h
  split_ifs at h with hstop hpressed hnone hnone
  · cases h
    exact ⟨rfl, rfl⟩
  · cases h
    exact ⟨rfl, rfl⟩
  · rw [plumb_of_ne_zero (updateLastRepeatCount_ne_zero (.inr rfl))] at h
    cases h
    exact ⟨rfl, rfl⟩
  · cases h
    exact ⟨rfl, rfl⟩
  · rw [plumb_of_ne_zero (hs.altRegistered hnone)] at h
    cases h
    exact ⟨rfl, rfl⟩

theorem step_other {depth : ℕ} {s s' : State} (hs : Settled s) {i : Input}
    (hi : i.keycode ≠ qkRepeatKey) (h : step cfg (depth + 2) s i = some s') :
    s'.registeredRecord = s.registeredRecord ∧
      s'.lastRecord.keycode = (remembered cfg i).getD s.lastRecord.keycode := by
  have hkey : getRecordKeycode i i.record = i.keycode := rfl
  have hlast : Settled (processLastKey cfg i i.keycode i.record s) := processLastKey_settled hs
  rw [← processLastKey_lastRecord hs, ← (processLastKey_registered (s := s)).1]
  simp only [step, processRecord, processRepeatKey, hkey, hlast.idle] at h
  split_ifs at h with hstop halt
  · exact absurd rfl hstop
  · obtain ⟨h₁, h₂⟩ := altRepeatKeyInvoke_keeps hlast h
    exact ⟨h₁, by rw [h₂]⟩
  · cases h
    exact ⟨rfl, rfl⟩

/-- Along events of other keys the registered record stays, and the last key is the one
remembered last. -/
theorem run_other {depth : ℕ} {s s' : State} (hs : Settled s) {is : List Input}
    (hi : ∀ i ∈ is, i.keycode ≠ qkRepeatKey) (h : run cfg (depth + 2) s is = some s') :
    s'.registeredRecord = s.registeredRecord ∧
      s'.lastRecord.keycode =
        ((is.filterMap (remembered cfg)).getLast?).getD s.lastRecord.keycode := by
  induction is generalizing s with
  | nil =>
    cases h
    exact ⟨rfl, rfl⟩
  | cons i is ih =>
    obtain ⟨t, ht, hrest⟩ := Option.bind_eq_some_iff.mp h
    obtain ⟨hreg, hlast⟩ := step_other hs (hi i List.mem_cons_self) ht
    obtain ⟨hreg', hlast'⟩ := ih (processRecord_settled hs ht)
      (fun j hj => hi j (List.mem_cons_of_mem _ hj)) hrest
    refine ⟨hreg'.trans hreg, ?_⟩
    rw [hlast', hlast]
    cases hr : remembered cfg i with
    | none => simp [hr]
    | some k =>
      rw [List.filterMap_cons_some hr, List.getLast?_cons]
      rfl

/-- The release of the Repeat Key plumbs one release of the keycode that the press has plumbed,
exactly if the key remembered last while it was held is not `KC_NO`. -/
theorem release_matches_press_iff (cfg : Config) (depth : ℕ) {pre mid : List Input}
    {press release : Input} {s₀ s₁ s : State} {r : Record}
    (h₀ : run cfg (depth + 2) {} pre = some s₀)
    (hpress : press.keycode = qkRepeatKey ∧ press.record.event.pressed = true)
    (h₁ : step cfg (depth + 2) s₀ press = some s₁) (hr : plumbed s₁ = plumbed s₀ ++ [r])
    (hmid : ∀ i ∈ mid, i.keycode ≠ qkRepeatKey) (h : run cfg (depth + 2) s₁ mid = some s)
    (hrelease : release.keycode = qkRepeatKey ∧ release.record.event.pressed = false) :
    (∃ s' r', step cfg (depth + 2) s release = some s' ∧ plumbed s' = plumbed s ++ [r'] ∧
        r'.keycode = r.keycode ∧ r'.event.pressed = false) ↔
      (mid.filterMap (remembered cfg)).getLast? ≠ some 0 := by
  have hs₀ : Settled s₀ := run_settled ⟨rfl, by simp, by simp⟩ h₀
  have hs₁ : Settled s₁ := processRecord_settled hs₀ h₁
  have hs : Settled s := run_settled hs₁ h
  obtain ⟨hreg, hlast⟩ := run_other hs₁ hmid h
  rw [step_press hs₀ hpress.1 hpress.2] at h₁
  split_ifs at h₁ with h0
  · cases h₁
    simp at hr
  · cases h₁
    have hrk : r.keycode = s₀.lastRecord.keycode := by
      simp only [plumbed, List.filterMap_append, List.append_assoc] at hr
      have := List.append_cancel_left hr
      simp only [List.filterMap_cons, Effect.record?, List.filterMap_nil, List.nil_append,
        List.cons.injEq, and_true] at this
      rw [← this]
    have hregk : s.registeredRecord.keycode = r.keycode := by rw [hreg, hrk]
    have hreg0 : s.registeredRecord.keycode ≠ 0 := by rwa [hregk, hrk]
    have hzero : s.lastRecord.keycode = 0 ↔
        (mid.filterMap (remembered cfg)).getLast? = some 0 := by
      rw [hlast]
      cases (mid.filterMap (remembered cfg)).getLast? with
      | none => simp [h0]
      | some k => simp
    rw [step_release hs hreg0 hrelease.1 hrelease.2]
    split_ifs with hl
    · simp only [hzero.mp hl, ne_eq, not_true_eq_false, iff_false]
      rintro ⟨s', r', hs', hplumbed, -⟩
      cases hs'
      simp at hplumbed
    · simp only [ne_eq, mt hzero.mpr hl, not_false_eq_true, iff_true]
      refine ⟨_, { s.registeredRecord with event := release.record.event }, rfl, ?_, hregk,
        hrelease.2⟩
      simp [plumbed, Effect.record?]

/-- A release of the Repeat Key whose press found no key to repeat, once there is a last key and
before anything was ever repeated: the record that it plumbs carries no keycode, so
`process_record` takes it for the Repeat Key again, without end. -/
theorem stray_release_recurses {i : Input} (hi : i.eventKeycode = qkRepeatKey) (depth : ℕ)
    {s : State} {r : Record} (hr : r.keycode = 0) (hp : r.event.pressed = false)
    (hidle : s.processingRepeatCount = 0) (hlast : s.lastRecord.keycode ≠ 0)
    (hreg : s.registeredRecord.keycode = 0) (hcount : s.registeredRepeatCount = 0) :
    processRecord cfg i depth s r = none := by
  induction depth generalizing s r with
  | zero => rfl
  | succ depth ih =>
    have hkey : getRecordKeycode i r = qkRepeatKey := by simp [getRecordKeycode, hr, hi]
    have hkept : processLastKey cfg i qkRepeatKey r s = s := by simp [processLastKey, hp]
    rw [processRecord, hkey, hkept, processRepeatKey, if_neg (by simp [hidle]), if_pos rfl,
      repeatKeyInvoke, if_neg (by simp [hidle, hlast]), if_neg (by simp [hp])]
    simp only [Option.map_eq_none_iff, plumb]
    exact ih hreg hp hcount hlast hreg hcount

/-- An event of a key with a given keycode. -/
def tapOf (keycode : UInt16) (col : UInt8) (pressed : Bool) : Input where
  record := { event := ⟨⟨col, 0⟩, 0, .key, pressed⟩ }
  eventKeycode := keycode

theorem release_matches_press_iff_rolled :
    ∃ s s' r', run {} 2 {} ([tapOf 4 0 true] ++ tapOf qkRepeatKey 1 true :: [tapOf 5 2 true]) =
        some s ∧ step {} 2 s (tapOf qkRepeatKey 1 false) = some s' ∧
      plumbed s' = plumbed s ++ [r'] ∧ r'.keycode = 4 ∧ r'.event.pressed = false := by
  have hmid : ∀ i ∈ [tapOf 5 2 true], i.keycode ≠ qkRepeatKey := by decide
  have hpress : (tapOf qkRepeatKey 1 true).keycode = qkRepeatKey ∧
      (tapOf qkRepeatKey 1 true).record.event.pressed = true := by decide
  have hrelease : (tapOf qkRepeatKey 1 false).keycode = qkRepeatKey ∧
      (tapOf qkRepeatKey 1 false).record.event.pressed = false := by decide
  obtain ⟨s', r', h⟩ := (release_matches_press_iff {} 0
    (rfl : run {} 2 {} [tapOf 4 0 true] = some _) hpress rfl rfl hmid rfl hrelease).mpr (by decide)
  exact ⟨_, s', r', rfl, h⟩

/-- A position without a key, pressed while the Repeat Key is held: the repeated key is pressed
and never released. -/
theorem release_lost_behind_no_key :
    ((run {} 2 {} [tapOf 4 0 true, tapOf 4 0 false, tapOf qkRepeatKey 1 true, tapOf 0 2 true,
      tapOf qkRepeatKey 1 false, tapOf 0 2 false]).map plumbed) = some
        [{ event := ⟨⟨1, 0⟩, 0, .key, true⟩, keycode := 4 }] := by
  decide

end Qmk.RepeatKey
