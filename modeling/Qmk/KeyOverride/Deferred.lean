import Mathlib.Data.Fintype.Basic
import Qmk.KeyOverride

/-! # Deferred keys

While a key is deferred, the trigger of the override that has scheduled it is held. A release of
the trigger that comes while key overrides are disabled, or after another key, leaves the deferred
key behind.
-/

namespace Qmk.KeyOverride

variable {ι κ : Type*}

/-- The keycodes of the keys that are held. A key is pressed when it is up, and released with the
keycode that it was pressed with. -/
def keys (κ : Type*) [DecidableEq κ] : Monitor (Action κ) (κ → Option (BitVec 16)) where
  next
    | held, .event e => Function.update held e.key (if e.pressed then some e.keycode else none)
    | held, .task _ => held
  ok
    | held, .event e => held e.key = if e.pressed then none else some e.keycode
    | _, .task _ => True

def allUp : κ → Option (BitVec 16) := fun _ => none

def Held (held : κ → Option (BitVec 16)) (keycode : BitVec 16) : Prop :=
  ∃ k, held k = some keycode

/-- The trigger of the override that has scheduled a deferred key is held, and the task does not
register a key while all keys are up. -/
structure TriggerHeld (cfg : Config ι) (s : State ι) (held : κ → Option (BitVec 16)) : Prop where
  trigger : ∀ d ∈ s.deferred, Held held (cfg.get d.override).trigger
  registers : ∀ now, (keyOverrideTask now s).log ≠ s.log → held ≠ allUp

/-- The last key that was pressed is released while key overrides are enabled, and the trigger of a
deferred key as the last key that was pressed, unless another key with the same keycode is held. -/
def Cancels (cfg : Config ι) (s : State ι) (held : κ → Option (BitVec 16)) : Action κ → Prop
  | .event e => ¬ e.pressed → e.keycode ≠ 0 →
    (∃ k, k ≠ e.key ∧ held k = some e.keycode) ∨
    ((s.lastKeyDown = e.keycode → s.enabled) ∧
      ∀ d ∈ s.deferred, (cfg.get d.override).trigger = e.keycode → s.lastKeyDown = e.keycode)
  | .task _ => True

/-- A run, with the keys that are held. -/
def typing [DecidableEq ι] (cfg : Config ι) (κ : Type*) [DecidableEq κ] :
    Monitor (Action κ) (State ι × (κ → Option (BitVec 16))) where
  next q a := (step cfg q.1 a, (keys κ).next q.2 a)
  ok q a := Cancels cfg q.1 q.2 a

/-- The trigger of an override is a basic keycode, and one of `H`. -/
def TriggerIn (H : BitVec 16 → Prop) (o : Override) : Prop :=
  isBasicKeycode o.trigger.toNat ∧ H o.trigger

/-- The last key and the triggers of the active override and of the deferred key are held. -/
structure Tracks (cfg : Config ι) (s : State ι) (H : BitVec 16 → Prop) : Prop where
  last : s.lastKeyDown ≠ 0 → H s.lastKeyDown
  notMod : ¬ isModifierKeycode s.lastKeyDown.toNat
  active : ∀ o, s.active = some o → s.enabled = true ∧ TriggerIn H (cfg.get o)
  deferred : ∀ d, s.deferred = some d → TriggerIn H (cfg.get d.override)

theorem ne_zero_of_isBasicKeycode {code : BitVec 16} (h : isBasicKeycode code.toNat) :
    code ≠ 0 := by
  rintro rfl
  exact absurd h (by decide)

theorem ne_of_isModifierKeycode {code other : BitVec 16} (h : isBasicKeycode code.toNat)
    (hmod : isModifierKeycode other.toNat) : code ≠ other := by
  rintro rfl
  exact absurd (Nat.le_trans hmod.1 h.2) (by decide)

section Steps

variable {cfg : Config ι} {s : State ι} {H H' : BitVec 16 → Prop} {e : Event κ}

theorem tracks_start : Tracks cfg ({} : State ι) H where
  last h := absurd rfl h
  notMod := by simp [isModifierKeycode]
  active := by rintro o ⟨⟩
  deferred := by rintro d ⟨⟩

theorem Tracks.imp (h : Tracks cfg s H)
    (hlast : s.lastKeyDown ≠ 0 → H s.lastKeyDown → H' s.lastKeyDown)
    (hactive : ∀ o, s.active = some o → TriggerIn H (cfg.get o) → TriggerIn H' (cfg.get o))
    (hdeferred : ∀ d, s.deferred = some d → TriggerIn H (cfg.get d.override) →
      TriggerIn H' (cfg.get d.override)) : Tracks cfg s H' where
  last hne := hlast hne (h.last hne)
  notMod := h.notMod
  active o ho := (h.active o ho).imp_right (hactive o ho)
  deferred d hd := hdeferred d hd (h.deferred d hd)

theorem Tracks.clear (h : Tracks cfg s H) (now : BitVec 32) (allowReregister : Bool) :
    Tracks cfg (clearActiveOverride cfg now allowReregister s) H where
  last := by simpa using h.last
  notMod := by simpa using h.notMod
  active o ho := by simp at ho
  deferred d hd := by
    rcases clearActiveOverride_deferred hd with ⟨-, hd⟩ | ⟨-, hactive⟩
    · exact h.deferred d hd
    · exact (h.active _ hactive).2

theorem Tracks.schedule (h : Tracks cfg s H) {override : ι} (ht : TriggerIn H (cfg.get override))
    (now : BitVec 32) (keycode : BitVec 16) :
    Tracks cfg (scheduleDeferredRegister cfg now override keycode s) H where
  last := by simpa using h.last
  notMod := by simpa using h.notMod
  active := by simpa using h.active
  deferred d hd := by
    rw [scheduleDeferredRegister_deferred hd]
    exact ht

theorem Tracks.congr (h : Tracks cfg s H) {t : State ι} (hlast : t.lastKeyDown = s.lastKeyDown)
    (hactive : t.active = s.active) (henabled : t.enabled = s.enabled)
    (hdeferred : t.deferred = s.deferred) : Tracks cfg t H where
  last := by rw [hlast]; exact h.last
  notMod := by rw [hlast]; exact h.notMod
  active := by rw [hactive, henabled]; exact h.active
  deferred := by rw [hdeferred]; exact h.deferred

theorem Tracks.activate (h : Tracks cfg s H) (henabled : s.enabled = true) {override : ι}
    (ht : TriggerIn H (cfg.get override)) : Tracks cfg (activateOverride cfg e override s) H := by
  have hclear := h.clear e.now false
  have hactive : Tracks cfg { clearActiveOverride cfg e.now false s with
      active := some override
      activeTriggerIsDown := true
      log := (clearActiveOverride cfg e.now false s).log ++ [.activate override
        (activationEffects (cfg.get override) e.isMod
          ((cfg.get override).trigger = e.keycode ∧ e.pressed))] } H := by
    refine ⟨hclear.last, hclear.notMod, ?_, hclear.deferred⟩
    rintro o ⟨⟩
    exact ⟨by simpa using henabled, ht⟩
  rw [activateOverride]
  split_ifs
  · exact hactive.schedule ht _ _
  · exact hactive

theorem Tracks.tryActivating [DecidableEq ι] (h : Tracks cfg s H) (henabled : s.enabled = true)
    (hbasic : ∀ o ∈ cfg.keyOverrides, isBasicKeycode (cfg.get o).trigger.toNat)
    (hpressed : e.pressed = true → H e.keycode)
    (mods : BitVec 8) : Tracks cfg (tryActivatingOverride cfg e mods s).2.2 H := by
  rw [tryActivatingOverride]
  cases hfind : cfg.keyOverrides.find? fun o => CanActivate cfg e mods s o with
  | none => exact h
  | some override =>
    have hcan : CanActivate cfg e mods s override := by simpa using List.find?_some hfind
    obtain ⟨-, -, -, -, -, -, -, hdown⟩ := hcan
    have htrigger := hbasic override (List.mem_of_find?_eq_some hfind)
    apply h.activate henabled
    refine ⟨htrigger, ?_⟩
    rcases hdown with hzero | ⟨heq, hdown⟩ | hlast
    · exact absurd hzero (ne_zero_of_isBasicKeycode htrigger)
    · exact heq ▸ hpressed hdown
    · exact hlast ▸ h.last (hlast ▸ ne_zero_of_isBasicKeycode htrigger)

theorem Tracks.deactivate (h : Tracks cfg s H) :
    Tracks cfg (KeyOverride.deactivate cfg e s) H := by
  apply deactivate_preserves (P := fun t => Tracks cfg t H) h
  · exact fun t _ ht => ht.clear _ _
  · exact fun t ht => ht.congr rfl rfl rfl rfl

theorem Tracks.off (h : Tracks cfg s H) (now : BitVec 32) :
    Tracks cfg (keyOverrideOff cfg now s) H where
  last := by simpa [keyOverrideOff] using h.last
  notMod := by simpa [keyOverrideOff] using h.notMod
  active o ho := by simp [keyOverrideOff] at ho
  deferred d hd := by
    rcases clearActiveOverride_deferred hd with ⟨-, hd⟩ | ⟨-, hactive⟩
    · exact h.deferred d hd
    · exact (h.active _ hactive).2

theorem Tracks.on (h : Tracks cfg s H) : Tracks cfg (keyOverrideOn s) H where
  last := h.last
  notMod := h.notMod
  active o ho := ⟨rfl, (h.active o ho).2⟩
  deferred := h.deferred

theorem Tracks.toggle (h : Tracks cfg s H) (now : BitVec 32) :
    Tracks cfg (keyOverrideToggle cfg now s) H := by
  rw [keyOverrideToggle]
  split_ifs
  · exact h.off now
  · exact h.on

theorem Tracks.task (h : Tracks cfg s H) (now : BitVec 32) :
    Tracks cfg (keyOverrideTask now s) H := by
  rw [keyOverrideTask]
  split
  · exact h
  · split_ifs
    · exact ⟨h.last, h.notMod, h.active, by rintro d ⟨⟩⟩
    · exact h

theorem Tracks.note (h : Tracks cfg s H) (hpressed : e.pressed = true → H e.keycode) :
    Tracks cfg (noteKey e s) H := by
  rw [noteKey]
  split_ifs with hmod hdown hlast
  · exact h
  · refine ⟨fun _ => hpressed hdown, ?_, h.active, by rintro d ⟨⟩⟩
    simpa [Event.isMod] using hmod
  · exact ⟨fun hne => absurd rfl hne, by simp [isModifierKeycode], h.active, by rintro d ⟨⟩⟩
  · exact h

@[simp] theorem noteKey_enabled : (noteKey e s).enabled = s.enabled := by
  rw [noteKey]
  split_ifs <;> rfl

@[simp] theorem noteKey_active : (noteKey e s).active = s.active := by
  rw [noteKey]
  split_ifs <;> rfl

theorem Tracks.handle [DecidableEq ι] (h : Tracks cfg s H) (henabled : s.enabled = true)
    (hbasic : ∀ o ∈ cfg.keyOverrides, isBasicKeycode (cfg.get o).trigger.toNat)
    (hpressed : e.pressed = true → H e.keycode) :
    Tracks cfg (KeyOverride.handle cfg e s).2 H := by
  have hnote := h.note hpressed
  apply handle_preserves (P := fun t => Tracks cfg t H) hnote
  · exact hnote.tryActivating (by simpa using henabled) hbasic hpressed _
  · exact fun t ht => ht.congr rfl rfl rfl rfl
  · exact fun t ht => ht.deactivate

theorem handle_release [DecidableEq ι] (hmod : ¬ e.isMod = true) (hup : ¬ e.pressed = true) :
    (KeyOverride.handle cfg e s).2 = KeyOverride.deactivate cfg e (noteKey e s) := by
  rw [KeyOverride.handle, if_neg (by simp [hmod, hup])]
  rfl

theorem deactivate_release (hmod : ¬ e.isMod = true) (hup : ¬ e.pressed = true) {o : ι}
    (hactive : s.active = some o) : KeyOverride.deactivate cfg e s =
      if e.keycode = (cfg.get o).trigger then
        clearActiveOverride cfg e.now false { s with activeTriggerIsDown := false }
      else s := by
  simp only [KeyOverride.deactivate, hactive, hmod, hup]
  by_cases heq : e.keycode = (cfg.get o).trigger
  · simp [heq]
  · simp [heq]

theorem tracks_deactivate (hmod : ¬ e.isMod = true) (hup : ¬ e.pressed = true)
    (hlast : s.lastKeyDown ≠ 0 → H s.lastKeyDown)
    (hnotMod : ¬ isModifierKeycode s.lastKeyDown.toNat)
    (hactive : ∀ o, s.active = some o → e.keycode ≠ (cfg.get o).trigger →
      s.enabled = true ∧ TriggerIn H (cfg.get o))
    (hdeferred : ∀ d, s.deferred = some d → TriggerIn H (cfg.get d.override)) :
    Tracks cfg (KeyOverride.deactivate cfg e s) H := by
  cases ho : s.active with
  | none =>
    rw [KeyOverride.deactivate, ho]
    exact ⟨hlast, hnotMod, fun o h => absurd (ho.symm.trans h) (by simp), hdeferred⟩
  | some o =>
    rw [deactivate_release hmod hup ho]
    split_ifs with htrigger
    · refine ⟨by simpa using hlast, by simpa using hnotMod, by simp, ?_⟩
      intro d hd
      rcases clearActiveOverride_deferred hd with ⟨hnone, -⟩ | ⟨hfalse, -⟩
      · exact absurd (ho.symm.trans hnone) (by simp)
      · cases hfalse
    · refine ⟨hlast, hnotMod, ?_, hdeferred⟩
      rintro p hp
      obtain rfl : o = p := Option.some.inj (ho.symm.trans hp)
      exact hactive o ho htrigger

theorem Tracks.release [DecidableEq ι] (h : Tracks cfg s H) (hmod : ¬ e.isMod = true)
    (hup : ¬ e.pressed = true) (hkept : ∀ c, c ≠ e.keycode → H c → H' c)
    (hdeferred : ∀ d, s.deferred = some d → (cfg.get d.override).trigger = e.keycode →
      s.lastKeyDown = e.keycode) : Tracks cfg (KeyOverride.handle cfg e s).2 H' := by
  rw [handle_release hmod hup]
  apply tracks_deactivate hmod hup
  · rw [noteKey, if_neg hmod, if_neg hup]
    split_ifs with heq
    · exact fun hne => absurd rfl hne
    · exact fun hne => hkept _ (Ne.symm heq) (h.last hne)
  · rw [noteKey, if_neg hmod, if_neg hup]
    split_ifs
    · simp [isModifierKeycode]
    · exact h.notMod
  · intro o ho hne
    have hactive := h.active o (by simpa using ho)
    exact ⟨by simpa using hactive.1, hactive.2.imp_right (hkept _ hne.symm)⟩
  · rw [noteKey, if_neg hmod, if_neg hup]
    split_ifs with heq
    · rintro d ⟨⟩
    · intro d hd
      have hne : (cfg.get d.override).trigger ≠ e.keycode :=
        fun htrigger => heq (hdeferred d hd htrigger).symm
      exact (h.deferred d hd).imp_right (hkept _ hne)

theorem Tracks.triggerHeld {held : κ → Option (BitVec 16)} (h : Tracks cfg s (Held held)) :
    TriggerHeld cfg s held where
  trigger d hd := (h.deferred d hd).2
  registers now hlog := by
    rintro rfl
    rw [keyOverrideTask] at hlog
    split at hlog
    · exact hlog rfl
    · rename_i d hd
      obtain ⟨k, hk⟩ := (h.deferred d hd).2
      cases hk

end Steps

section Runs

variable [DecidableEq ι] [DecidableEq κ] {cfg : Config ι} {s : State ι}
  {held : κ → Option (BitVec 16)}

theorem held_press {e : Event κ} (hup : held e.key = none) {c : BitVec 16}
    (h : Held held c) : Held ((keys κ).next held (.event e)) c := by
  obtain ⟨k, hk⟩ := h
  have hne : k ≠ e.key := by
    rintro rfl
    rw [hup] at hk
    cases hk
  exact ⟨k, (Function.update_of_ne hne _ _).trans hk⟩

theorem held_pressed {e : Event κ} (hpressed : e.pressed = true) :
    Held ((keys κ).next held (.event e)) e.keycode :=
  ⟨e.key, by simp [keys, hpressed]⟩

theorem held_release {e : Event κ} (hdown : held e.key = some e.keycode) {c : BitVec 16}
    (hne : c ≠ e.keycode ∨ ∃ k, k ≠ e.key ∧ held k = some e.keycode) (h : Held held c) :
    Held ((keys κ).next held (.event e)) c := by
  have hother {k : κ} (hk : k ≠ e.key) : (keys κ).next held (.event e) k = held k :=
    Function.update_of_ne hk _ _
  obtain ⟨k, hk⟩ := h
  by_cases hkey : k = e.key
  · subst hkey
    obtain rfl : e.keycode = c := Option.some.inj (hdown.symm.trans hk)
    obtain ⟨k', hk', hsame⟩ := hne.resolve_left (not_not.mpr rfl)
    exact ⟨k', (hother hk').trans hsame⟩
  · exact ⟨k, (hother hkey).trans hk⟩

/-- An event keeps the keys, if the key that is released cancels what is deferred for it. -/
theorem Tracks.event (h : Tracks cfg s (Held held))
    (hbasic : ∀ o ∈ cfg.keyOverrides, isBasicKeycode (cfg.get o).trigger.toNat) {e : Event κ}
    (hkeys : (keys κ).ok held (.event e)) (hcancels : Cancels cfg s held (.event e)) :
    Tracks cfg (processKeyOverride cfg e s).2 (Held ((keys κ).next held (.event e))) := by
  by_cases hpressed : e.pressed = true
  · have hup : held e.key = none := by simpa [keys, hpressed] using hkeys
    have hnow : Tracks cfg s (Held ((keys κ).next held (.event e))) :=
      h.imp (fun _ => held_press hup) (fun _ _ => And.imp_right (held_press hup))
        fun _ _ => And.imp_right (held_press hup)
    rw [processKeyOverride]
    split_ifs with htoggle hon hoff henabled
    · exact hnow.toggle _
    · exact hnow.on
    · exact hnow.off _
    · exact hnow.handle henabled hbasic fun _ => held_pressed hpressed
    · exact hnow
  have hdown : held e.key = some e.keycode := by simpa [keys, hpressed] using hkeys
  have hprocess : (processKeyOverride cfg e s).2 =
      if s.enabled = true then (KeyOverride.handle cfg e s).2 else s := by
    rw [processKeyOverride, if_neg (by simp [hpressed]), if_neg (by simp [hpressed]),
      if_neg (by simp [hpressed])]
    split_ifs <;> rfl
  rw [hprocess]
  by_cases hother : ∃ k, k ≠ e.key ∧ held k = some e.keycode
  · -- another key with this keycode is held
    have hnow : Tracks cfg s (Held ((keys κ).next held (.event e))) :=
      h.imp (fun _ => held_release hdown (.inr hother))
        (fun _ _ => And.imp_right (held_release hdown (.inr hother)))
        fun _ _ => And.imp_right (held_release hdown (.inr hother))
    split_ifs with henabled
    · exact hnow.handle henabled hbasic fun hp => absurd hp hpressed
    · exact hnow
  have hkept (c : BitVec 16) (hne : c ≠ e.keycode) (hc : Held held c) :
      Held ((keys κ).next held (.event e)) c := held_release hdown (.inl hne) hc
  have hlast (hne : s.lastKeyDown ≠ 0) (heq : s.lastKeyDown = e.keycode) : s.enabled = true :=
    ((hcancels hpressed (heq ▸ hne)).resolve_left hother).1 heq
  have hdeferred (d : Deferral ι) (hd : s.deferred = some d)
      (heq : (cfg.get d.override).trigger = e.keycode) : s.lastKeyDown = e.keycode := by
    have hne := ne_zero_of_isBasicKeycode (h.deferred d hd).1
    exact ((hcancels hpressed (heq ▸ hne)).resolve_left hother).2 d hd heq
  split_ifs with henabled
  · by_cases hmod : e.isMod = true
    · -- neither the last key nor a trigger is a modifier
      have hmodifier : isModifierKeycode e.keycode.toNat := by simpa [Event.isMod] using hmod
      have hnow : Tracks cfg s (Held ((keys κ).next held (.event e))) :=
        h.imp (fun _ => hkept _ fun heq => h.notMod (heq ▸ hmodifier))
          (fun _ _ ht => ht.imp_right (hkept _ (ne_of_isModifierKeycode ht.1 hmodifier)))
          fun _ _ ht => ht.imp_right (hkept _ (ne_of_isModifierKeycode ht.1 hmodifier))
      exact hnow.handle henabled hbasic fun hp => absurd hp hpressed
    · exact h.release hmod hpressed hkept hdeferred
  · refine h.imp (fun hne => hkept _ fun heq => henabled (hlast hne heq))
      (fun o ho => absurd (h.active o ho).1 henabled) fun d hd ht => ht.imp_right (hkept _ ?_)
    intro heq
    have hsame := hdeferred d hd heq
    exact henabled (hlast (hsame ▸ heq ▸ ne_zero_of_isBasicKeycode ht.1) hsame)

/-- In every run of keys that are pressed and released in turn, in which every key that is released
cancels what is deferred for it, the trigger of a deferred key is held. -/
theorem triggerHeld_run (cfg : Config ι)
    (hbasic : ∀ o ∈ cfg.keyOverrides, isBasicKeycode (cfg.get o).trigger.toNat)
    (actions : List (Action κ)) (hkeys : (keys κ).Accepts allUp actions)
    (hcancels : (typing cfg κ).Accepts ({}, allUp) actions) :
    ∀ pre rest, actions = pre ++ rest →
      TriggerHeld cfg (run cfg {} pre) ((keys κ).after allUp pre) := by
  rintro pre rest rfl
  have hpre := ((keys κ).accepts_append allUp pre rest).mp hkeys
  have hpre' := ((typing cfg κ).accepts_append ({}, allUp) pre rest).mp hcancels
  have htracks : Tracks cfg ({} : State ι) (Held (allUp : κ → Option (BitVec 16))) := tracks_start
  replace hpre := hpre.1
  replace hpre' := hpre'.1
  clear hkeys hcancels
  apply Tracks.triggerHeld
  rw [run]
  generalize ({} : State ι) = s, (allUp : κ → Option (BitVec 16)) = held at htracks hpre hpre'
  induction pre generalizing s held with
  | nil => exact htracks
  | cons a pre ih =>
    refine ih _ _ ?_ hpre.2 hpre'.2
    cases a with
    | event e => exact htracks.event hbasic hpre.1 hpre'.1
    | task now => exact htracks.task now

end Runs

section Examples

variable [DecidableEq κ]

instance (held : κ → Option (BitVec 16)) : ∀ a, Decidable ((keys κ).ok held a)
  | .event e => inferInstanceAs (Decidable (held e.key = _))
  | .task _ => isTrue trivial

variable [Fintype κ]

instance (held : κ → Option (BitVec 16)) (keycode : BitVec 16) : Decidable (Held held keycode) :=
  inferInstanceAs (Decidable (∃ _, _))

instance [DecidableEq ι] (cfg : Config ι) (q : State ι × (κ → Option (BitVec 16))) :
    ∀ a, Decidable ((typing cfg κ).ok q a)
  | .event e => inferInstanceAs (Decidable (¬ e.pressed → e.keycode ≠ 0 → _ ∨ _ ∧ _))
  | .task _ => isTrue trivial

def shiftA : Override := ⟨4, 0x22, BitVec.allOnes 32, 0, 0x22, 5, allActivations, none⟩

def shiftAConfig (options : BitVec 8) : Config Unit :=
  ⟨[()], fun _ => { shiftA with options := shiftA.options ||| options }, 500⟩

/-- An event of the key at `key`, with the left shift key held or not. -/
def press (key : Fin 4) (keycode : BitVec 16) (pressed shift : Bool) : Action (Fin 4) :=
  .event ⟨key, keycode, pressed, 0, if shift then 2 else 0, fun _ => true, 100⟩

def shiftDown : Action (Fin 4) := press 0 0xE1 true false
def shiftUp : Action (Fin 4) := press 0 0xE1 false true

/-- The release of A cancels B. -/
def cancelled : List (Action (Fin 4)) :=
  [press 1 4 true false, shiftDown, press 1 4 false true, .task 600, shiftUp]

theorem triggerHeld_shiftA :
    TriggerHeld (shiftAConfig 0) (run (shiftAConfig 0) {} cancelled)
      ((keys (Fin 4)).after allUp cancelled) :=
  triggerHeld_run _ (by decide) cancelled (by decide) (by decide) _ [] (List.append_nil _).symm

/-- Key overrides are disabled while the trigger is deferred. The key of a trigger is released while
key overrides are disabled, and a modifier activates its override afterwards. The trigger is
deferred while another key is the last one that was pressed. -/
def leftBehind : List (BitVec 8 × List (Action (Fin 4))) :=
  [(0, [shiftDown, press 1 4 true true, shiftUp, press 2 qkKeyOverrideOff true false,
      press 1 4 false false]),
    (0, [press 1 4 true false, press 2 qkKeyOverrideOff true false, press 1 4 false false,
      press 3 qkKeyOverrideOn true false, shiftDown]),
    (noUnregisterOnOtherKeyDown, [shiftDown, press 1 4 true true, press 2 6 true true,
      press 2 6 false true, shiftUp, press 1 4 false false])]

theorem not_triggerHeld_leftBehind : ¬ ∃ p ∈ leftBehind, (keys (Fin 4)).Accepts allUp p.2 →
    TriggerHeld (shiftAConfig p.1) (run (shiftAConfig p.1) {} p.2)
      ((keys (Fin 4)).after allUp p.2) := by
  have hdeferred : ∀ p ∈ leftBehind, (keys (Fin 4)).Accepts allUp p.2 ∧
      ¬ ∀ d ∈ (run (shiftAConfig p.1) {} p.2).deferred,
        Held ((keys (Fin 4)).after allUp p.2) ((shiftAConfig p.1).get d.override).trigger := by
    decide
  rintro ⟨p, hp, h⟩
  obtain ⟨hkeys, hnot⟩ := hdeferred p hp
  exact hnot (h hkeys).trigger

end Examples

end Qmk.KeyOverride
