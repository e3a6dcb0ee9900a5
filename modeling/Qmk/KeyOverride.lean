import Mathlib.Data.List.Basic
import Qmk.Monitor

/-! # Key overrides

The handling of a key event in `process_key_override`, with the task that registers deferred keys,
for overrides without custom actions.
-/

namespace Qmk.KeyOverride

section Keycodes

def safeRange : ℕ := 0x7E40

def isBasicKeycode (code : ℕ) : Prop := 0x04 ≤ code ∧ code ≤ 0xA4

instance (code : ℕ) : Decidable (isBasicKeycode code) := inferInstanceAs (Decidable (_ ∧ _))

def isModifierKeycode (code : ℕ) : Prop := 0xE0 ≤ code ∧ code ≤ 0xE7

instance (code : ℕ) : Decidable (isModifierKeycode code) := inferInstanceAs (Decidable (_ ∧ _))

def qkKeyOverrideToggle : BitVec 16 := 0x7C5D
def qkKeyOverrideOn : BitVec 16 := 0x7C5E
def qkKeyOverrideOff : BitVec 16 := 0x7C5F

/-- The keycode is in the range `QK_MODS`. -/
def hasMods (code : BitVec 16) : Prop := 0x0100 ≤ code.toNat ∧ code.toNat ≤ 0x1FFF

instance (code : BitVec 16) : Decidable (hasMods code) := inferInstanceAs (Decidable (_ ∧ _))

def clearModsFrom (code : BitVec 16) : BitVec 16 :=
  if hasMods code then code &&& ~~~0x1F00 else code

def modBit (code : BitVec 16) : BitVec 8 := 1 <<< (code.toNat % 8)

def extractModBits (code : BitVec 16) : BitVec 8 :=
  if hasMods code then
    let mods := ((code >>> 8) &&& 0xF).setWidth 8
    if code &&& 0x1000 ≠ 0 then mods <<< 4 else mods
  else 0

end Keycodes

/-- `key_override_t`, without a custom action. The flag that enables the override is given by its
place. -/
structure Override where
  trigger : BitVec 16
  triggerMods : BitVec 8
  layers : BitVec 32
  negativeModMask : BitVec 8
  suppressedMods : BitVec 8
  replacement : BitVec 16
  options : BitVec 8
  enabled : Option ℕ
  deriving DecidableEq

def activationTriggerDown : BitVec 8 := 1
def activationRequiredModDown : BitVec 8 := 2
def activationNegativeModUp : BitVec 8 := 4
def allActivations : BitVec 8 := activationTriggerDown ||| activationRequiredModDown |||
  activationNegativeModUp
def oneMod : BitVec 8 := 8
def noReregisterTrigger : BitVec 8 := 16
def noUnregisterOnOtherKeyDown : BitVec 8 := 32

/-- The pointers in `key_overrides`, and what they point to. -/
structure Config (ι : Type*) where
  keyOverrides : List ι
  get : ι → Override
  repeatDelay : BitVec 32 := 500

/-- The calls of the rest of the firmware, and that of `schedule_deferred_register`. -/
inductive Effect
  | setSuppressedOverrideMods (mods : BitVec 8)
  | clearSuppressedOverrideMods
  | setWeakOverrideMods (mods : BitVec 8)
  | clearWeakOverrideMods
  | addKey (key : BitVec 8)
  | delKey (key : BitVec 8)
  | registerCode (code : BitVec 8)
  | unregisterCode (code : BitVec 8)
  | registerCode16 (code : BitVec 16)
  | scheduleDeferredRegister (code : BitVec 16)
  | sendKeyboardReport
  deriving DecidableEq

/-- What has been done, for an override that was activated or deactivated or apart from that. -/
inductive Entry (ι : Type*)
  | activate (override : ι) (effects : List Effect)
  | deactivate (override : ι) (effects : List Effect)
  | plain (effects : List Effect)
  deriving DecidableEq

/-- A key that is to be registered later: `deferred_register`, `defer_reference_time` and
`defer_delay`, with the override that has scheduled it, for the statements only. -/
structure Deferral (ι : Type*) where
  keycode : BitVec 16
  referenceTime : BitVec 32
  delay : BitVec 32
  override : ι
  deriving DecidableEq

/-- The variables of `process_key_override.c`. Nothing is deferred when `deferred_register` is
zero. -/
structure State (ι : Type*) where
  active : Option ι := none
  activeTriggerIsDown : Bool := false
  lastKeyDown : BitVec 16 := 0
  lastKeyDownTime : BitVec 32 := 0
  deferred : Option (Deferral ι) := none
  enabled : Bool := true
  log : List (Entry ι) := []
  deriving DecidableEq

/-- A key event, with the time and the layer of the key. The modifiers are those of `get_mods`,
with the weak and the one-shot modifiers, before the event. -/
structure Event (κ : Type*) where
  key : κ
  keycode : BitVec 16
  pressed : Bool
  layer : ℕ
  mods : BitVec 8
  flags : ℕ → Bool
  now : BitVec 32

variable {ι κ : Type*}

section Model

variable (cfg : Config ι)

def matchesActiveModifiers (o : Override) (mods : BitVec 8) : Prop :=
  o.negativeModMask &&& mods = 0 ∧
    (o.triggerMods = 0 ∨
      if o.options &&& oneMod ≠ 0 then o.triggerMods &&& mods ≠ 0
      else
        let required := (o.triggerMods &&& 0xF) ||| (o.triggerMods >>> 4)
        let active := o.triggerMods &&& mods
        (active &&& 0xF) ||| (active >>> 4) = required)

instance (o : Override) (mods : BitVec 8) : Decidable (matchesActiveModifiers o mods) :=
  inferInstanceAs (Decidable (_ ∧ (_ ∨ ite _ _ _)))

def scheduleDeferredRegister (now : BitVec 32) (override : ι) (keycode : BitVec 16)
    (s : State ι) : State ι :=
  if now - s.lastKeyDownTime < cfg.repeatDelay then
    { s with deferred := some ⟨keycode, s.lastKeyDownTime, cfg.repeatDelay, override⟩ }
  else { s with deferred := some ⟨keycode, now, 50, override⟩ }

def unregisterReplacement (o : Override) : List Effect :=
  -- the variable has 8 bits here
  let modFree : BitVec 8 := (clearModsFrom o.replacement).setWidth 8
  if modFree ≠ 0 ∧ modFree.toNat < safeRange then
    if isBasicKeycode modFree.toNat then [.delKey modFree]
    else [.sendKeyboardReport, .unregisterCode modFree]
  else []

def clearActiveOverride (now : BitVec 32) (allowReregister : Bool) (s : State ι) : State ι :=
  match s.active with
  | none => s
  | some override =>
    let o := cfg.get override
    let reregister : Prop := allowReregister ∧ o.options &&& noReregisterTrigger = 0 ∧
      s.activeTriggerIsDown ∧ o.trigger ≠ 0 ∧ o.trigger.toNat < safeRange
    have : Decidable reregister := inferInstanceAs (Decidable (_ ∧ _))
    let effects := [.clearSuppressedOverrideMods, .clearWeakOverrideMods] ++
      unregisterReplacement o ++
      (if reregister then [.scheduleDeferredRegister o.trigger] else []) ++ [.sendKeyboardReport]
    let s := { s with deferred := none }
    let s := if reregister then scheduleDeferredRegister cfg now override o.trigger s else s
    { s with
      active := none
      activeTriggerIsDown := false
      log := s.log ++ [.deactivate override effects] }

def checkActivationEvent (o : Override) (keyDown isMod : Bool) : Bool :=
  let options := if o.options &&& allActivations = 0 then allActivations else o.options
  if isMod then
    if keyDown then options &&& activationRequiredModDown ≠ 0
    else options &&& activationNegativeModUp ≠ 0
  else if keyDown then options &&& activationTriggerDown ≠ 0
  else false

def Event.isMod (e : Event κ) : Bool := isModifierKeycode e.keycode.toNat

/-- The tests of the loop in `try_activating_override`. -/
def CanActivate [DecidableEq ι] (e : Event κ) (activeMods : BitVec 8) (s : State ι)
    (override : ι) : Prop :=
  let o := cfg.get override
  ¬ (activeMods = 0 ∧ o.triggerMods ≠ 0) ∧
  o.layers.getLsbD e.layer ∧
  checkActivationEvent o e.pressed e.isMod ∧
  ¬ (o.trigger = e.keycode ∧ ¬ e.pressed) ∧
  s.active ≠ some override ∧
  (∀ flag ∈ o.enabled, e.flags flag) ∧
  matchesActiveModifiers o activeMods ∧
  (o.trigger = 0 ∨ o.trigger = e.keycode ∧ e.pressed ∨ s.lastKeyDown = o.trigger)

instance [DecidableEq ι] (e : Event κ) (activeMods : BitVec 8) (s : State ι) (override : ι) :
    Decidable (CanActivate cfg e activeMods s override) :=
  inferInstanceAs (Decidable (_ ∧ _))

def registersReplacement (o : Override) : Prop :=
  clearModsFrom o.replacement ≠ 0 ∧ (clearModsFrom o.replacement).toNat < safeRange

instance (o : Override) : Decidable (registersReplacement o) :=
  inferInstanceAs (Decidable (_ ∧ _))

/-- The effects of an activation, by a modifier event or with the trigger that was just pressed. -/
def activationEffects (o : Override) (isMod triggerDown : Bool) : List Effect :=
  let modFree := clearModsFrom o.replacement
  [.setSuppressedOverrideMods o.suppressedMods] ++
  (if ¬ triggerDown ∧ o.trigger ≠ 0 then
    if isBasicKeycode o.trigger.toNat then [.delKey (o.trigger.setWidth 8)]
    else [.unregisterCode (o.trigger.setWidth 8)]
  else []) ++
  (if registersReplacement o then
    .setWeakOverrideMods (extractModBits o.replacement) ::
    (if isMod then [.scheduleDeferredRegister modFree, .sendKeyboardReport]
    else if isBasicKeycode modFree.toNat then [.addKey (modFree.setWidth 8)]
    else [.sendKeyboardReport, .registerCode (modFree.setWidth 8)])
  else [.sendKeyboardReport])

def activateOverride (e : Event κ) (override : ι) (s : State ι) : State ι :=
  let o := cfg.get override
  let s := clearActiveOverride cfg e.now false s
  let s := { s with
    active := some override
    activeTriggerIsDown := true
    log := s.log ++
      [.activate override (activationEffects o e.isMod (o.trigger = e.keycode ∧ e.pressed))] }
  if registersReplacement o ∧ e.isMod then
    scheduleDeferredRegister cfg e.now override (clearModsFrom o.replacement) s
  else s

/-- `try_activating_override`: whether the action of the key is sent, whether an override is
activated, and the state. -/
def tryActivatingOverride [DecidableEq ι] (e : Event κ) (activeMods : BitVec 8) (s : State ι) :
    Bool × Bool × State ι :=
  match cfg.keyOverrides.find? fun o => CanActivate cfg e activeMods s o with
  | none => (true, false, s)
  | some override =>
    (¬ ((cfg.get override).trigger = e.keycode ∧ e.pressed), true,
      activateOverride cfg e override s)

def keyOverrideTask (now : BitVec 32) (s : State ι) : State ι :=
  match s.deferred with
  | none => s
  | some d =>
    if d.delay ≤ now - d.referenceTime then
      { s with deferred := none, log := s.log ++ [.plain [.registerCode16 d.keycode]] }
    else s

def keyOverrideOff (now : BitVec 32) (s : State ι) : State ι :=
  clearActiveOverride cfg now false { s with enabled := false }

def keyOverrideOn (s : State ι) : State ι := { s with enabled := true }

def keyOverrideToggle (now : BitVec 32) (s : State ι) : State ι :=
  if s.enabled then keyOverrideOff cfg now s else keyOverrideOn s

def Event.effectiveMods (e : Event κ) : BitVec 8 :=
  if e.isMod then
    if e.pressed then e.mods ||| modBit e.keycode else e.mods &&& ~~~ modBit e.keycode
  else e.mods

/-- The last key that was pressed down is kept, and a deferred key is cancelled. -/
def noteKey (e : Event κ) (s : State ι) : State ι :=
  if e.isMod then s
  else if e.pressed then
    { s with lastKeyDown := e.keycode, lastKeyDownTime := e.now, deferred := none }
  else if e.keycode = s.lastKeyDown then
    { s with lastKeyDown := 0, lastKeyDownTime := 0, deferred := none }
  else s

/-- The last part of `process_key_override`, where the active override may be deactivated. -/
def deactivate (e : Event κ) (s : State ι) : State ι :=
  match s.active with
  | none => s
  | some override =>
    let o := cfg.get override
    if e.isMod then
      if matchesActiveModifiers o e.effectiveMods then s else clearActiveOverride cfg e.now true s
    else
      let triggerUp : Prop := e.keycode = o.trigger ∧ ¬ e.pressed
      have : Decidable triggerUp := inferInstanceAs (Decidable (_ ∧ _))
      let s := if triggerUp then { s with activeTriggerIsDown := false } else s
      if triggerUp ∨ e.pressed ∧ o.options &&& noUnregisterOnOtherKeyDown = 0 then
        clearActiveOverride cfg e.now false s
      else s

/-- `process_key_override` with key overrides enabled. -/
def handle [DecidableEq ι] (e : Event κ) (s : State ι) : Bool × State ι :=
  let s := noteKey e s
  let (sendKeyAction, activated, s) :=
    if e.isMod ∨ e.pressed then tryActivatingOverride cfg e e.effectiveMods s else (true, false, s)
  let s := if sendKeyAction then s else { s with log := s.log ++ [.plain [.sendKeyboardReport]] }
  (sendKeyAction, if activated then s else deactivate cfg e s)

def processKeyOverride [DecidableEq ι] (e : Event κ) (s : State ι) : Bool × State ι :=
  if e.pressed ∧ e.keycode = qkKeyOverrideToggle then (false, keyOverrideToggle cfg e.now s)
  else if e.pressed ∧ e.keycode = qkKeyOverrideOn then (false, keyOverrideOn s)
  else if e.pressed ∧ e.keycode = qkKeyOverrideOff then (false, keyOverrideOff cfg e.now s)
  else if s.enabled then handle cfg e s
  else (true, s)

end Model

/-- A key event, or the task. -/
inductive Action (κ : Type*)
  | event (e : Event κ)
  | task (now : BitVec 32)

def step [DecidableEq ι] (cfg : Config ι) (s : State ι) : Action κ → State ι
  | .event e => (processKeyOverride cfg e s).2
  | .task now => keyOverrideTask now s

def run [DecidableEq ι] (cfg : Config ι) (s : State ι) (actions : List (Action κ)) : State ι :=
  actions.foldl (step cfg) s

section Deactivation

variable {cfg : Config ι} {now : BitVec 32} {allowReregister : Bool} {s : State ι}

@[simp] theorem scheduleDeferredRegister_active (override : ι) (keycode : BitVec 16) :
    (scheduleDeferredRegister cfg now override keycode s).active = s.active := by
  rw [scheduleDeferredRegister]
  split_ifs <;> rfl

@[simp] theorem scheduleDeferredRegister_lastKeyDown (override : ι) (keycode : BitVec 16) :
    (scheduleDeferredRegister cfg now override keycode s).lastKeyDown = s.lastKeyDown := by
  rw [scheduleDeferredRegister]
  split_ifs <;> rfl

@[simp] theorem scheduleDeferredRegister_enabled (override : ι) (keycode : BitVec 16) :
    (scheduleDeferredRegister cfg now override keycode s).enabled = s.enabled := by
  rw [scheduleDeferredRegister]
  split_ifs <;> rfl

@[simp] theorem scheduleDeferredRegister_log (override : ι) (keycode : BitVec 16) :
    (scheduleDeferredRegister cfg now override keycode s).log = s.log := by
  rw [scheduleDeferredRegister]
  split_ifs <;> rfl

theorem scheduleDeferredRegister_deferred {override : ι} {keycode : BitVec 16} {d : Deferral ι}
    (h : (scheduleDeferredRegister cfg now override keycode s).deferred = some d) :
    d.override = override := by
  rw [scheduleDeferredRegister] at h
  split_ifs at h
  · exact (Option.some.inj h) ▸ rfl
  · exact (Option.some.inj h) ▸ rfl

theorem clearActiveOverride_of_none (h : s.active = none) :
    clearActiveOverride cfg now allowReregister s = s := by
  rw [clearActiveOverride, h]

@[simp] theorem clearActiveOverride_active :
    (clearActiveOverride cfg now allowReregister s).active = none := by
  rw [clearActiveOverride]
  split
  · assumption
  · rfl

@[simp] theorem clearActiveOverride_lastKeyDown :
    (clearActiveOverride cfg now allowReregister s).lastKeyDown = s.lastKeyDown := by
  rw [clearActiveOverride]
  split
  · rfl
  · dsimp only
    split_ifs <;> simp

@[simp] theorem clearActiveOverride_enabled :
    (clearActiveOverride cfg now allowReregister s).enabled = s.enabled := by
  rw [clearActiveOverride]
  split
  · rfl
  · dsimp only
    split_ifs <;> simp

/-- A key that is deferred after a deactivation is the trigger of the override, if this is allowed.
Where no override was active, nothing has changed. -/
theorem clearActiveOverride_deferred {d : Deferral ι}
    (h : (clearActiveOverride cfg now allowReregister s).deferred = some d) :
    s.active = none ∧ s.deferred = some d ∨
      allowReregister = true ∧ s.active = some d.override := by
  rw [clearActiveOverride] at h
  split at h
  · rename_i hactive
    exact .inl ⟨hactive, h⟩
  · rename_i override hactive
    dsimp only at h
    split_ifs at h with hreregister
    refine .inr ⟨hreregister.1, ?_⟩
    rw [hactive, scheduleDeferredRegister_deferred h]

end Deactivation

section Preserved

variable {cfg : Config ι} {e : Event κ} {s : State ι} {P : State ι → Prop}

theorem deactivate_preserves (h : P s)
    (hclear : ∀ t allowReregister, P t → P (clearActiveOverride cfg e.now allowReregister t))
    (hup : ∀ t, P t → P { t with activeTriggerIsDown := false }) : P (deactivate cfg e s) := by
  rw [deactivate]
  split
  · exact h
  · dsimp only
    split_ifs
    · exact h
    · exact hclear s _ h
    · exact hclear _ _ (hup s h)
    · exact hclear s _ h
    · exact hup s h
    · exact h

/-- An event notes the key, may activate an override, may send a report, and may deactivate the
active override. -/
theorem handle_preserves [DecidableEq ι] (hnote : P (noteKey e s))
    (htry : P (tryActivatingOverride cfg e e.effectiveMods (noteKey e s)).2.2)
    (hreport : ∀ t, P t → P { t with log := t.log ++ [.plain [.sendKeyboardReport]] })
    (hdeactivate : ∀ t, P t → P (deactivate cfg e t)) : P (handle cfg e s).2 := by
  have hactivated : P (if e.isMod = true ∨ e.pressed = true then
      tryActivatingOverride cfg e e.effectiveMods (noteKey e s)
      else (true, false, noteKey e s)).2.2 := by
    split_ifs
    · exact htry
    · exact hnote
  rw [handle]
  generalize (if e.isMod = true ∨ e.pressed = true then
      tryActivatingOverride cfg e e.effectiveMods (noteKey e s)
      else (true, false, noteKey e s)) = r at hactivated ⊢
  obtain ⟨sendKeyAction, activated, t⟩ := r
  have hsent : P (if sendKeyAction = true then t
      else { t with log := t.log ++ [.plain [.sendKeyboardReport]] }) := by
    split_ifs
    · exact hactivated
    · exact hreport t hactivated
  cases activated with
  | true => exact hsent
  | false => exact hdeactivate _ hsent

end Preserved

end Qmk.KeyOverride
