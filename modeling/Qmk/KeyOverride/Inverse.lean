import Qmk.KeyOverride

/-! # What a deactivation unregisters

The replacement of an override is registered when it is activated and unregistered when it is
deactivated. Both compute the key anew, and the deactivation has eight bits for it.
-/

namespace Qmk.KeyOverride

variable {ι κ : Type*}

def Effect.registered : Effect → Option (BitVec 8)
  | .addKey key => some key
  | .registerCode code => some code
  | .scheduleDeferredRegister code => some (code.setWidth 8)
  | _ => none

def Effect.unregistered : Effect → Option (BitVec 8)
  | .delKey key => some key
  | .unregisterCode code => some code
  | _ => none

/-- The matching activation is the last entry before a deactivation. What a deactivation
unregisters has been registered or scheduled by the matching activation of the override. -/
def inverse (ι : Type*) : Monitor (Entry ι) (Option (ι × List Effect)) where
  next
    | _, .activate override effects => some (override, effects)
    | _, .deactivate _ _ => none
    | q, .plain _ => q
  ok
    | q, .deactivate override effects =>
      ∃ activation, q = some (override, activation) ∧
        ∀ key ∈ effects.filterMap Effect.unregistered,
          key ∈ activation.filterMap Effect.registered
    | q, .activate _ _ => q = none
    | _, .plain _ => True

section Inverse

variable {q : Option (ι × List Effect)} {o : ι} {effects : List Effect}

@[simp] theorem inverse_next_activate :
    (inverse ι).next q (.activate o effects) = some (o, effects) := rfl

@[simp] theorem inverse_next_deactivate : (inverse ι).next q (.deactivate o effects) = none := rfl

@[simp] theorem inverse_next_plain : (inverse ι).next q (.plain effects) = q := rfl

@[simp] theorem inverse_ok_activate : (inverse ι).ok q (.activate o effects) ↔ q = none := Iff.rfl

@[simp] theorem inverse_ok_plain : (inverse ι).ok q (.plain effects) := trivial

theorem inverse_ok_deactivate {activation : List Effect} :
    (inverse ι).ok (some (o, activation)) (.deactivate o effects) ↔
      ∀ key ∈ effects.filterMap Effect.unregistered,
        key ∈ activation.filterMap Effect.registered := by
  simp [inverse]

end Inverse

/-- The replacement is registered, or its low byte is zero. -/
def Fits (o : Override) : Prop :=
  o.replacement.toNat < safeRange ∨ o.replacement.setWidth 8 = 0

section Effects

variable {o : Override} {cfg : Config ι} {now : BitVec 32} {s : State ι}

theorem clearModsFrom_setWidth (code : BitVec 16) :
    (clearModsFrom code).setWidth 8 = code.setWidth 8 := by
  rw [clearModsFrom]
  split_ifs
  · rw [BitVec.setWidth_and]
    exact BitVec.and_allOnes
  · rfl

theorem clearModsFrom_lt_safeRange (code : BitVec 16) :
    (clearModsFrom code).toNat < safeRange ↔ code.toNat < safeRange := by
  rw [clearModsFrom]
  split_ifs with hmods
  · have hlt : code.toNat < safeRange := Nat.lt_of_le_of_lt hmods.2 (by decide)
    rw [BitVec.toNat_and]
    exact iff_of_true (Nat.lt_of_le_of_lt Nat.and_le_left hlt) hlt
  · rfl

theorem mem_unregisterReplacement {key : BitVec 8} :
    key ∈ (unregisterReplacement o).filterMap Effect.unregistered ↔
      key = o.replacement.setWidth 8 ∧ key ≠ 0 := by
  have hlt : (o.replacement.setWidth 8).toNat < safeRange :=
    Nat.lt_trans (o.replacement.setWidth 8).isLt (by decide)
  rw [unregisterReplacement, clearModsFrom_setWidth]
  split_ifs with hkey hbasic
  · simp only [List.filterMap_cons, List.filterMap_nil, Effect.unregistered, List.mem_singleton]
    exact ⟨fun h => ⟨h, h ▸ hkey.1⟩, And.left⟩
  · simp only [List.filterMap_cons, List.filterMap_nil, Effect.unregistered, List.mem_singleton]
    exact ⟨fun h => ⟨h, h ▸ hkey.1⟩, And.left⟩
  · simp only [List.filterMap_nil, List.not_mem_nil, false_iff]
    rintro ⟨rfl, hne⟩
    exact hkey ⟨hne, hlt⟩

/-- An activation registers or schedules the low byte, if the replacement is no custom keycode. -/
theorem mem_activationEffects {isMod triggerDown : Bool} {key : BitVec 8} :
    key ∈ (activationEffects o isMod triggerDown).filterMap Effect.registered ↔
      registersReplacement o ∧ key = o.replacement.setWidth 8 := by
  have htrigger : (if ¬ triggerDown ∧ o.trigger ≠ 0 then
      if isBasicKeycode o.trigger.toNat then [Effect.delKey (o.trigger.setWidth 8)]
      else [.unregisterCode (o.trigger.setWidth 8)]
    else []).filterMap Effect.registered = [] := by
    split_ifs <;> rfl
  rw [activationEffects, List.filterMap_append, List.filterMap_append, htrigger]
  split_ifs with hregisters hmod hbasic
  · simp [Effect.registered, hregisters, clearModsFrom_setWidth, eq_comm]
  · simp [Effect.registered, hregisters, clearModsFrom_setWidth, eq_comm]
  · simp [Effect.registered, hregisters, clearModsFrom_setWidth, eq_comm]
  · simp [Effect.registered, hregisters]

/-- The matching activation has registered what a deactivation unregisters exactly if the
replacement fits. -/
theorem unregistered_registered_iff {isMod triggerDown : Bool} :
    (∀ key ∈ (unregisterReplacement o).filterMap Effect.unregistered,
      key ∈ (activationEffects o isMod triggerDown).filterMap Effect.registered) ↔ Fits o := by
  simp only [mem_unregisterReplacement, mem_activationEffects]
  constructor
  · intro h
    by_cases hzero : o.replacement.setWidth 8 = 0
    · exact .inr hzero
    · exact .inl ((clearModsFrom_lt_safeRange _).mp (h _ ⟨rfl, hzero⟩).1.2)
  · rintro (hlt | hzero) key ⟨rfl, hne⟩
    · refine ⟨⟨fun hmodFree => hne ?_, (clearModsFrom_lt_safeRange _).mpr hlt⟩, rfl⟩
      rw [← clearModsFrom_setWidth, hmodFree]
      rfl
    · exact absurd hzero hne

end Effects

section Runs

variable {cfg : Config ι} {s : State ι} {e : Event κ}

/-- The active override is that of the last activation in the log, and the log is accepted as long
as the replacements of the deactivations fit. -/
structure Logged (cfg : Config ι) (s : State ι) : Prop where
  active : ∀ o, s.active = some o → ∃ isMod triggerDown, (inverse ι).after none s.log =
    some (o, activationEffects (cfg.get o) isMod triggerDown)
  inactive : s.active = none → (inverse ι).after none s.log = none
  accepts : (inverse ι).Accepts none s.log ↔
    ∀ o effects, .deactivate o effects ∈ s.log → Fits (cfg.get o)

theorem logged_start : Logged cfg ({} : State ι) where
  active := by rintro o ⟨⟩
  inactive _ := rfl
  accepts := by simp

theorem Logged.congr (h : Logged cfg s) {t : State ι} (hactive : t.active = s.active)
    (hlog : t.log = s.log) : Logged cfg t where
  active := by rw [hactive, hlog]; exact h.active
  inactive := by rw [hactive, hlog]; exact h.inactive
  accepts := by rw [hlog]; exact h.accepts

theorem Logged.plain (h : Logged cfg s) (effects : List Effect) :
    Logged cfg { s with log := s.log ++ [.plain effects] } where
  active o ho := by simpa using h.active o ho
  inactive ho := by simpa using h.inactive ho
  accepts := by
    rw [Monitor.accepts_append, h.accepts]
    simp

theorem Logged.activate (h : Logged cfg s) (hactive : s.active = none) (o : ι)
    (isMod triggerDown : Bool) : Logged cfg { s with
      active := some o
      activeTriggerIsDown := true
      log := s.log ++ [.activate o (activationEffects (cfg.get o) isMod triggerDown)] } where
  active := by
    rintro p ⟨⟩
    exact ⟨isMod, triggerDown, by simp⟩
  inactive := by rintro ⟨⟩
  accepts := by
    rw [Monitor.accepts_append, h.accepts]
    simp [h.inactive hactive]

theorem clearActiveOverride_log (cfg : Config ι) {o : ι} (h : s.active = some o) (now : BitVec 32)
    (allowReregister : Bool) : ∃ effects,
      (clearActiveOverride cfg now allowReregister s).log = s.log ++ [.deactivate o effects] ∧
      effects.filterMap Effect.unregistered =
        (unregisterReplacement (cfg.get o)).filterMap Effect.unregistered := by
  simp only [clearActiveOverride, h]
  split_ifs
  · refine ⟨_, by rw [scheduleDeferredRegister_log], ?_⟩
    simp [Effect.unregistered, List.filterMap_cons, List.filterMap_append]
  · refine ⟨_, rfl, ?_⟩
    simp [Effect.unregistered, List.filterMap_cons, List.filterMap_append]

theorem Logged.clear (h : Logged cfg s) (now : BitVec 32) (allowReregister : Bool) :
    Logged cfg (clearActiveOverride cfg now allowReregister s) := by
  cases hactive : s.active with
  | none =>
    rw [clearActiveOverride_of_none hactive]
    exact h
  | some o =>
    obtain ⟨effects, hlog, hunregistered⟩ :=
      clearActiveOverride_log cfg hactive now allowReregister
    obtain ⟨isMod, triggerDown, hafter⟩ := h.active o hactive
    have hok : (inverse ι).ok ((inverse ι).after none s.log) (.deactivate o effects) ↔
        Fits (cfg.get o) := by
      rw [hafter, inverse_ok_deactivate, hunregistered]
      exact unregistered_registered_iff
    constructor
    · simp
    · intro _
      rw [hlog, Monitor.after_append]
      rfl
    · rw [hlog, Monitor.accepts_append, h.accepts, Monitor.accepts_cons, hok]
      constructor
      · rintro ⟨hall, hfits, -⟩ p effects' hmem
        rcases List.mem_append.mp hmem with hmem | hmem
        · exact hall p effects' hmem
        · obtain ⟨rfl, -⟩ := Entry.deactivate.inj (List.mem_singleton.mp hmem)
          exact hfits
      · intro hall
        refine ⟨fun p effects' hmem => hall p effects' (List.mem_append_left _ hmem), ?_, trivial⟩
        exact hall o effects (List.mem_append_right _ List.mem_cons_self)

theorem Logged.activateOverride (h : Logged cfg s) (o : ι) :
    Logged cfg (KeyOverride.activateOverride cfg e o s) := by
  have hactivated := (h.clear e.now false).activate clearActiveOverride_active o e.isMod
    ((cfg.get o).trigger = e.keycode ∧ e.pressed)
  rw [KeyOverride.activateOverride]
  split_ifs
  · exact hactivated.congr (by simp) (by simp)
  · exact hactivated

theorem Logged.deactivate (h : Logged cfg s) : Logged cfg (KeyOverride.deactivate cfg e s) := by
  apply deactivate_preserves h
  · exact fun t _ ht => ht.clear _ _
  · exact fun t ht => ht.congr rfl rfl

theorem Logged.note (h : Logged cfg s) : Logged cfg (noteKey e s) := by
  rw [noteKey]
  split_ifs
  · exact h
  · exact h.congr rfl rfl
  · exact h.congr rfl rfl
  · exact h

theorem Logged.off (h : Logged cfg s) (now : BitVec 32) :
    Logged cfg (keyOverrideOff cfg now s) := by
  apply Logged.clear
  exact h.congr rfl rfl

variable [DecidableEq ι]

theorem Logged.tryActivating (h : Logged cfg s) (mods : BitVec 8) :
    Logged cfg (tryActivatingOverride cfg e mods s).2.2 := by
  rw [tryActivatingOverride]
  split
  · exact h
  · exact h.activateOverride _

theorem Logged.handle (h : Logged cfg s) : Logged cfg (KeyOverride.handle cfg e s).2 := by
  apply handle_preserves h.note
  · exact h.note.tryActivating _
  · exact fun t ht => ht.plain _
  · exact fun t ht => ht.deactivate

theorem Logged.step (h : Logged cfg s) (a : Action κ) : Logged cfg (KeyOverride.step cfg s a) := by
  cases a with
  | event e =>
    change Logged cfg (processKeyOverride cfg e s).2
    rw [processKeyOverride]
    split_ifs
    · dsimp only
      rw [keyOverrideToggle]
      split_ifs
      · exact h.off _
      · exact h.congr rfl rfl
    · exact h.congr rfl rfl
    · exact h.off _
    · exact h.handle
    · exact h
  | task now =>
    change Logged cfg (keyOverrideTask now s)
    rw [keyOverrideTask]
    split
    · exact h
    · split_ifs
      · exact (h.plain _).congr rfl rfl
      · exact h

/-- In a run, the deactivations unregister what the matching activations have registered or
scheduled, exactly if their replacements fit. -/
theorem inverse_iff (cfg : Config ι) (actions : List (Action κ)) :
    (inverse ι).Accepts none (run cfg {} actions).log ↔
      ∀ o effects, .deactivate o effects ∈ (run cfg {} actions).log → Fits (cfg.get o) := by
  have hrun : ∀ s, Logged cfg s → Logged cfg (run cfg s actions) := by
    induction actions with
    | nil => exact fun _ h => h
    | cons a actions ih => exact fun s h => ih _ (h.step a)
  exact (hrun {} logged_start).accepts

/-- Shift and A give the custom keycode `QK_USER_4`. -/
def shiftAUser : Config Unit where
  keyOverrides := [()]
  get _ := ⟨4, 0x22, BitVec.allOnes 32, 0, 0x22, 0x7E44, allActivations, none⟩

/-- A is pressed and released while shift is held. -/
def tapA : List (Action ℕ) :=
  [.event ⟨0, 4, true, 0, 2, fun _ => true, 0⟩, .event ⟨0, 4, false, 0, 2, fun _ => true, 9⟩]

/-- The deactivation unregisters F11, whose keycode is the low byte of `QK_USER_4`. -/
theorem shiftAUser_unregisters : ¬ (inverse Unit).Accepts none (run shiftAUser {} tapA).log := by
  have hlog : (run shiftAUser {} tapA).log = [
        .activate () [.setSuppressedOverrideMods 0x22, .sendKeyboardReport],
        .plain [.sendKeyboardReport],
        .deactivate () [.clearSuppressedOverrideMods, .clearWeakOverrideMods, .delKey 0x44,
          .sendKeyboardReport]] := by
    decide
  rw [hlog]
  rintro ⟨-, -, ⟨activation, hsome, hkeys⟩, -⟩
  obtain ⟨-, rfl⟩ := Prod.mk.inj (Option.some.inj hsome)
  exact absurd (hkeys 0x44 (by decide)) (by decide)

end Runs

end Qmk.KeyOverride
