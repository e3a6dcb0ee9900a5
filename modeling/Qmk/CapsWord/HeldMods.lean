import Qmk.CapsWord
import Qmk.Monitor

/-! # No shift is left held

The shift bits of `held_mods` and of `real_mods` follow the shift keys, whatever turns Caps Word on
and off. Only a left shift that turns Caps Word on is put in `real_mods` while Caps Word is on, and
its release does not take it out.
-/

namespace Qmk.CapsWord

open AutoShift (Keycode kcLsft kcRsft lshift modBit IsModTap)

section Specification

/-- Presses and releases that alternate for each key, of the two shift keys and of keys that are not
shift keys. -/
def typing : Monitor Event (Keycode → Bool) where
  next down
    | .key r _ => Function.update down r.keycode r.pressed
    | .task _ => down
  ok down
    | .key r _ => down r.keycode = !r.pressed ∧ shiftKeycode r = r.keycode
    | .task _ => True

structure Watched where
  down : Keycode → Bool := fun _ => false
  state : State := {}

variable (cfg : Config)

/-- The left shift is not released while Caps Word is on and it is in `real_mods`. -/
def leftCounted : Monitor Event Watched where
  next w e := ⟨typing.next w.down e, step cfg e w.state⟩
  ok w
    | .key r _ => r.keycode = kcLsft → r.pressed = false → w.state.capsWordActive = true →
        w.state.mods.real &&& lshift = 0
    | .task _ => True

/-- No shift is held once both shift keys are up. -/
def Released (w : Watched) : Prop :=
  w.down kcLsft = false → w.down kcRsft = false →
    w.state.heldMods = 0 ∧ w.state.mods.real &&& modMaskShift = 0

end Specification

section Turning

variable {cfg : Config} {s t : State} {r : Record} {now : BitVec 16} {mods : BitVec 8}

structure Stays (s t : State) : Prop where
  active : t.capsWordActive = s.capsWordActive
  held : t.heldMods = s.heldMods
  real : t.mods.real = s.mods.real
  oneshot : t.mods.oneshot = s.mods.oneshot

structure GoesOn (s t : State) : Prop where
  active : t.capsWordActive = true
  held : t.heldMods = s.heldMods
  real : t.mods.real = 0
  oneshot : t.mods.oneshot = 0

/-- Caps Word goes off, and the shifts that are held may count again. -/
structure GoesOff (s t : State) : Prop where
  active : t.capsWordActive = false
  held : t.heldMods = s.heldMods
  real : t.mods.real = s.mods.real ∨ t.mods.real = s.mods.real ||| s.heldMods
  oneshot : t.mods.oneshot = s.mods.oneshot

def Turns (s t : State) : Prop := Stays s t ∨ GoesOn s t ∨ GoesOff s t

theorem Stays.refl (s : State) : Stays s s := ⟨rfl, rfl, rfl, rfl⟩

theorem stays_capsWordResetIdleTimer (cfg : Config) (now : BitVec 16) (s : State) :
    Stays s (capsWordResetIdleTimer cfg now s) := by
  unfold capsWordResetIdleTimer
  split_ifs <;> exact ⟨rfl, rfl, rfl, rfl⟩

theorem goesOn_capsWordOn (cfg : Config) (now : BitVec 16) (h : s.capsWordActive = false) :
    GoesOn s (capsWordOn cfg now s) := by
  rw [capsWordOn, if_neg (ne_true_of_eq_false h)]
  have hstays := stays_capsWordResetIdleTimer cfg now
    { s with mods := { s.mods with real := 0, oneshot := 0 } }
  exact ⟨rfl, hstays.held, hstays.real, hstays.oneshot⟩

theorem goesOff_capsWordOff (h : s.capsWordActive = true) : GoesOff s (capsWordOff s) := by
  rw [capsWordOff, if_neg (not_not.mpr h)]
  exact ⟨rfl, rfl, Or.inl rfl, rfl⟩

theorem turns_capsWordToggle (cfg : Config) (now : BitVec 16) (s : State) :
    Turns s (capsWordToggle cfg now s) := by
  unfold capsWordToggle
  split_ifs with hactive
  · exact Or.inr (Or.inr (goesOff_capsWordOff hactive))
  · exact Or.inr (Or.inl (goesOn_capsWordOn cfg now (eq_false_of_ne_true hactive)))

theorem turns_capsWordTask (cfg : Config) (now : BitVec 16) (s : State) :
    Turns s (capsWordTask cfg now s) := by
  unfold capsWordTask
  split_ifs with hexpired
  · exact Or.inr (Or.inr (goesOff_capsWordOff hexpired.2.1))
  · exact Or.inl (Stays.refl s)

theorem goesOff_endWord (h : s.capsWordActive = true) : GoesOff s (endWord s) := by
  have hoff := goesOff_capsWordOff h
  have hreal : (capsWordOff s).mods.real = s.mods.real := by
    rw [capsWordOff, if_neg (not_not.mpr h)]
  refine ⟨hoff.active, hoff.held, Or.inr ?_, hoff.oneshot⟩
  change (capsWordOff s).mods.real ||| (capsWordOff s).heldMods = _
  rw [hreal, hoff.held]

theorem turns_whileOn (cfg : Config) (r : Record) (now : BitVec 16) (mods : BitVec 8)
    (h : s.capsWordActive = true) : Turns s (whileOn cfg r now mods s) := by
  unfold whileOn
  extract_lets u
  have hu : Stays s u := stays_capsWordResetIdleTimer cfg now s
  have hends {w : State} (hw : Stays s w) : Turns s (endWord w) := by
    have hoff := goesOff_endWord (hw.active.trans h)
    refine Or.inr (Or.inr ⟨hoff.active, hoff.held.trans hw.held, ?_, hoff.oneshot.trans hw.oneshot⟩)
    rw [← hw.real, ← hw.held]
    exact hoff.real
  by_cases hpressed : r.pressed = true
  · rw [if_neg (not_not.mpr hpressed)]
    by_cases hmods : mods &&& ~~~(modMaskShift ||| modBit kcRalt) = 0
    · rw [if_pos hmods]
      cases wordKey cfg r with
      | passes => exact Or.inl hu
      | ends => exact hends hu
      | types keycode =>
        dsimp only
        split_ifs
        · exact Or.inl ⟨hu.active, hu.held, hu.real, hu.oneshot⟩
        · exact Or.inl ⟨hu.active, hu.held, hu.real, hu.oneshot⟩
        · exact hends ⟨hu.active, hu.held, hu.real, hu.oneshot⟩
    · rw [if_neg hmods]
      exact hends hu
  · rw [if_pos hpressed]
    exact Or.inl hu

/-- While Caps Word is off, both shifts or a left shift that is tapped twice turn it on. -/
theorem whileOff_cases (cfg : Config) (r : Record) (now : BitVec 16) (mods : BitVec 8)
    (h : s.capsWordActive = false) :
    Stays s (whileOff cfg r now mods s) ∨
    GoesOn s (whileOff cfg r now mods s) ∧ (mods = modMaskShift ∨
      cfg.doubleTapShiftTurnsOnCapsWord = true ∧ r.pressed = true ∧
        (r.keycode = kcLsft ∨ r.keycode = osm modLsft)) := by
  unfold whileOff
  extract_lets u v
  have hu : Stays s u ∨ GoesOn s u ∧ mods = modMaskShift := by
    unfold u
    split_ifs with hboth
    · exact Or.inr ⟨goesOn_capsWordOn cfg now h, hboth.2.1⟩
    · exact Or.inl (Stays.refl s)
  have hdone {w : State} (hw : Stays u w) : Stays s w ∨ GoesOn s w ∧ (mods = modMaskShift ∨
      cfg.doubleTapShiftTurnsOnCapsWord = true ∧ r.pressed = true ∧
        (r.keycode = kcLsft ∨ r.keycode = osm modLsft)) := by
    rcases hu with hstays | ⟨hon, hmods⟩
    · exact Or.inl ⟨hw.active.trans hstays.active, hw.held.trans hstays.held,
        hw.real.trans hstays.real, hw.oneshot.trans hstays.oneshot⟩
    · exact Or.inr ⟨⟨hw.active.trans hon.active, hw.held.trans hon.held, hw.real.trans hon.real,
        hw.oneshot.trans hon.oneshot⟩, Or.inl hmods⟩
  by_cases hpress : cfg.doubleTapShiftTurnsOnCapsWord ∧ r.pressed
  · rw [if_pos hpress]
    by_cases hkey : r.keycode = kcLsft ∨ r.keycode = osm modLsft
    · rw [if_pos hkey]
      by_cases htapped : u.tapped ∧ ¬ timerExpired r.time u.timer
      · have hv : v = capsWordOn cfg now u := if_pos htapped
        by_cases hactive : u.capsWordActive = true
        · have hsame : v = u := hv.trans (if_pos hactive)
          rw [hsame]
          exact hdone ⟨rfl, rfl, rfl, rfl⟩
        · have hstays : Stays s u := by
            rcases hu with hstays | ⟨hon, -⟩
            · exact hstays
            · exact absurd hon.active hactive
          have hon := goesOn_capsWordOn cfg now (eq_false_of_ne_true hactive)
          rw [hv]
          exact Or.inr ⟨⟨hon.active, hon.held.trans hstays.held, hon.real, hon.oneshot⟩,
            Or.inr ⟨hpress.1, hpress.2, hkey⟩⟩
      · have hv : v = u := if_neg htapped
        rw [hv]
        exact hdone ⟨rfl, rfl, rfl, rfl⟩
    · rw [if_neg hkey]
      exact hdone ⟨rfl, rfl, rfl, rfl⟩
  · rw [if_neg hpress]
    exact hdone (Stays.refl u)

end Turning

section Following

variable {cfg : Config} {s t : State} {r : Record} {now : BitVec 16} {down : Keycode → Bool}

/-- These modifiers are those of shift keys that are down. -/
structure Under (down : Keycode → Bool) (mods : BitVec 8) : Prop where
  left : mods.getLsbD 1 = true → down kcLsft = true
  right : mods.getLsbD 5 = true → down kcRsft = true

/-- The shifts follow their keys, and while Caps Word is on there is none in `real_mods`, unless it
is the left shift that has turned Caps Word on. -/
structure Followed (cfg : Config) (down : Keycode → Bool) (s : State) : Prop where
  shifts : s.heldMods &&& ~~~modMaskShift = 0
  held : Under down s.heldMods
  real : Under down s.mods.real
  noLeft : cfg.doubleTapShiftTurnsOnCapsWord = false → s.capsWordActive = true →
    s.mods.real.getLsbD 1 = false
  noRight : s.capsWordActive = true → s.mods.real.getLsbD 5 = false
  oneshot : s.mods.oneshot &&& modMaskShift = 0

theorem Under.or {mods mods' : BitVec 8} (h : Under down mods) (h' : Under down mods') :
    Under down (mods ||| mods') := by
  constructor
  · intro hbit
    rw [BitVec.getLsbD_or, Bool.or_eq_true] at hbit
    exact hbit.elim h.left h'.left
  · intro hbit
    rw [BitVec.getLsbD_or, Bool.or_eq_true] at hbit
    exact hbit.elim h.right h'.right

theorem under_zero (down : Keycode → Bool) : Under down 0 := ⟨nofun, nofun⟩

theorem Followed.turns (h : Followed cfg down s) (ht : Turns s t) : Followed cfg down t := by
  rcases ht with ht | ht | ht
  · constructor
    · rw [ht.held]
      exact h.shifts
    · rw [ht.held]
      exact h.held
    · rw [ht.real]
      exact h.real
    · rw [ht.active, ht.real]
      exact h.noLeft
    · rw [ht.active, ht.real]
      exact h.noRight
    · rw [ht.oneshot]
      exact h.oneshot
  · constructor
    · rw [ht.held]
      exact h.shifts
    · rw [ht.held]
      exact h.held
    · rw [ht.real]
      exact under_zero down
    · rw [ht.real]
      exact fun _ _ => rfl
    · rw [ht.real]
      exact fun _ => rfl
    · rw [ht.oneshot]
      rfl
  · have hoff : ¬ t.capsWordActive = true := ne_true_of_eq_false ht.active
    refine ⟨?_, ?_, ?_, fun _ hon => absurd hon hoff, fun hon => absurd hon hoff, ?_⟩
    · rw [ht.held]
      exact h.shifts
    · rw [ht.held]
      exact h.held
    · rcases ht.real with hreal | hreal
      · rw [hreal]
        exact h.real
      · rw [hreal]
        exact h.real.or h.held
    · rw [ht.oneshot]
      exact h.oneshot

def IsShift (keycode : Keycode) : Prop := keycode = kcLsft ∨ keycode = kcRsft

variable {keycode : Keycode} {mods : BitVec 8}

theorem Under.pressed (h : Under down mods) (hkey : IsShift keycode) :
    Under (Function.update down keycode true) (mods ||| modBit keycode) := by
  have hleft : modBit kcLsft = 0x02 := rfl
  have hright : modBit kcRsft = 0x20 := rfl
  have hne : kcLsft ≠ kcRsft := by decide
  rcases hkey with rfl | rfl
  · constructor
    · exact fun _ => Function.update_self ..
    · intro hbit
      rw [Function.update_of_ne hne.symm]
      exact h.right (by simpa [hleft] using hbit)
  · constructor
    · intro hbit
      rw [Function.update_of_ne hne]
      exact h.left (by simpa [hright] using hbit)
    · exact fun _ => Function.update_self ..

theorem Under.released (h : Under down mods) (hkey : IsShift keycode) :
    Under (Function.update down keycode false) (mods &&& ~~~modBit keycode) := by
  have hleft : modBit kcLsft = 0x02 := rfl
  have hright : modBit kcRsft = 0x20 := rfl
  have hne : kcLsft ≠ kcRsft := by decide
  rcases hkey with rfl | rfl
  · constructor
    · intro hbit
      simp [hleft] at hbit
    · intro hbit
      rw [Function.update_of_ne hne.symm]
      exact h.right (by simpa [hleft] using hbit)
  · constructor
    · intro hbit
      rw [Function.update_of_ne hne]
      exact h.left (by simpa [hright] using hbit)
    · intro hbit
      simp [hright] at hbit

theorem Under.other (h : Under down mods) (hkey : ¬ IsShift keycode) (pressed : Bool) :
    Under (Function.update down keycode pressed) mods := by
  constructor
  · intro hbit
    rw [Function.update_of_ne fun heq => hkey (Or.inl heq.symm)]
    exact h.left hbit
  · intro hbit
    rw [Function.update_of_ne fun heq => hkey (Or.inr heq.symm)]
    exact h.right hbit

theorem and_two_eq_zero : ∀ mods : BitVec 8, mods &&& 0x02 = 0 ↔ mods.getLsbD 1 = false := by decide

theorem and_thirtyTwo_eq_zero : ∀ mods : BitVec 8, mods &&& 0x20 = 0 ↔ mods.getLsbD 5 = false := by
  decide

theorem Under.and_modBit (h : Under down mods) (hkey : IsShift keycode)
    (hup : down keycode = false) : mods &&& modBit keycode = 0 := by
  rcases hkey with rfl | rfl
  · exact (and_two_eq_zero mods).mpr
      (eq_false_of_ne_true fun hbit => ne_true_of_eq_false hup (h.left hbit))
  · exact (and_thirtyTwo_eq_zero mods).mpr
      (eq_false_of_ne_true fun hbit => ne_true_of_eq_false hup (h.right hbit))

theorem and_not_of_and_eq_zero {bits : BitVec 8} (h : mods &&& bits = 0) :
    mods &&& ~~~bits = mods := by
  ext i hi
  have hbit : (mods &&& bits)[i] = false := by simp [h]
  simp only [BitVec.getElem_and, BitVec.getElem_not] at hbit ⊢
  grind

end Following

section Steps

variable {cfg : Config} {s : State} {r : Record} {now : BitVec 16} {down : Keycode → Bool}

def actionOf (cfg : Config) (r : Record) (p : Bool × State) : State :=
  if p.1 then processAction cfg r p.2 else p.2

theorem processCapsWord_of_handleShift (cfg : Config) (now : BitVec 16)
    (htoggle : r.keycode ≠ qkCapsWordToggle) (h : handleShift r s = (true, s)) :
    processCapsWord cfg r now s =
      (true, if s.capsWordActive then whileOn cfg r now (s.mods.real ||| s.mods.oneshot) s
        else whileOff cfg r now (s.mods.real ||| s.mods.oneshot) s) := by
  rw [processCapsWord, if_neg htoggle, h]
  rfl

theorem processCapsWord_of_held (cfg : Config) (now : BitVec 16) {t : State}
    (htoggle : r.keycode ≠ qkCapsWordToggle) (h : handleShift r s = (false, t)) :
    processCapsWord cfg r now s = (false, t) := by
  rw [processCapsWord, if_neg htoggle, h]
  rfl

theorem IsShift.ne_toggle {keycode : Keycode} (h : IsShift keycode) :
    keycode ≠ qkCapsWordToggle := by
  rcases h with rfl | rfl <;> decide

theorem processAction_shift (cfg : Config) (hkey : IsShift r.keycode) (s : State) :
    processAction cfg r s = { s with
      mods := { s.mods with
        real := if r.pressed then s.mods.real ||| modBit r.keycode
          else s.mods.real &&& ~~~modBit r.keycode } } :=
  if_pos hkey

theorem Followed.not_both (h : Followed cfg down s) (hkey : IsShift r.keycode)
    (hup : down r.keycode = false) : s.mods.real ||| s.mods.oneshot ≠ modMaskShift := by
  intro hboth
  have hnone (i : ℕ) (hi : i < 8) (hbit : modMaskShift[i] = true) : s.mods.oneshot[i] = false := by
    have hand : (s.mods.oneshot &&& modMaskShift)[i] = false := by simp [h.oneshot]
    simpa [hbit] using hand
  have hreal (i : ℕ) (hi : i < 8) (hbit : modMaskShift[i] = true) : s.mods.real[i] = true := by
    have hor : (s.mods.real ||| s.mods.oneshot)[i] = true := by rw [hboth, hbit]
    simpa [hnone i hi hbit] using hor
  rcases hkey with heq | heq
  · rw [heq, h.real.left (hreal 1 (by omega) rfl)] at hup
    exact Bool.noConfusion hup
  · rw [heq, h.real.right (hreal 5 (by omega) rfl)] at hup
    exact Bool.noConfusion hup

theorem shiftKeycode_shift (hkey : IsShift r.keycode) : shiftKeycode r = r.keycode := by
  have hplain (keycode : Keycode) (h : IsShift keycode) :
      keycode ≠ osm modLsft ∧ keycode ≠ osm modRsft ∧ ¬ IsModTap keycode := by
    rcases h with rfl | rfl <;> decide
  obtain ⟨hleft, hright, htap⟩ := hplain r.keycode hkey
  rw [shiftKeycode, if_neg hleft, if_neg hright, if_neg fun hheld => htap hheld.1]

theorem handleShift_shift (hkey : IsShift r.keycode) (s : State) : handleShift r s =
      if s.capsWordActive then
        (false,
          { s with
            heldMods := if r.pressed then s.heldMods ||| modBit r.keycode
              else s.heldMods &&& ~~~modBit r.keycode })
      else if s.heldMods &&& modBit r.keycode ≠ 0 then
        (r.pressed,
          { s with
            heldMods := s.heldMods &&& ~~~modBit r.keycode
            mods := { s.mods with real := s.mods.real &&& ~~~modBit r.keycode } })
      else (true, s) := by
  rw [handleShift, shiftKeycode_shift hkey]
  exact if_pos hkey

theorem shifts_or (hkey : IsShift r.keycode) {mods : BitVec 8}
    (h : mods &&& ~~~modMaskShift = 0) : (mods ||| modBit r.keycode) &&& ~~~modMaskShift = 0 := by
  have hbit : modBit r.keycode &&& ~~~modMaskShift = 0 := by
    rcases hkey with heq | heq <;> rw [heq] <;> rfl
  rw [BitVec.and_or_distrib_right, h, hbit]
  rfl

theorem shifts_and {mods : BitVec 8} (h : mods &&& ~~~modMaskShift = 0) (bits : BitVec 8) :
    (mods &&& bits) &&& ~~~modMaskShift = 0 := by
  rw [BitVec.and_assoc, BitVec.and_comm bits, ← BitVec.and_assoc, h]
  exact BitVec.zero_and

theorem Followed.pressShift (h : Followed cfg down s) (now : BitVec 16) (hkey : IsShift r.keycode)
    (hpressed : r.pressed = true) (hup : down r.keycode = false) :
    Followed cfg (Function.update down r.keycode true)
      (actionOf cfg r (processCapsWord cfg r now s)) := by
  have hsame {mods : BitVec 8} (hmods : Under down mods) :
      Under (Function.update down r.keycode true) mods :=
    ⟨fun hbit => AutoShift.update_true_of_down _ (hmods.left hbit),
      fun hbit => AutoShift.update_true_of_down _ (hmods.right hbit)⟩
  have hhandle := handleShift_shift hkey s
  by_cases hon : s.capsWordActive = true
  · rw [if_pos hon, if_pos hpressed] at hhandle
    rw [processCapsWord_of_held cfg now hkey.ne_toggle hhandle]
    exact ⟨shifts_or hkey h.shifts, h.held.pressed hkey, hsame h.real, h.noLeft, h.noRight,
      h.oneshot⟩
  · rw [if_neg hon, if_neg (not_not.mpr (h.held.and_modBit hkey hup))] at hhandle
    rw [processCapsWord_of_handleShift cfg now hkey.ne_toggle hhandle, if_neg hon, actionOf,
      if_pos rfl, processAction_shift cfg hkey, if_pos hpressed]
    have hcases := whileOff_cases cfg r now (s.mods.real ||| s.mods.oneshot)
      (eq_false_of_ne_true hon)
    dsimp only
    generalize whileOff cfg r now (s.mods.real ||| s.mods.oneshot) s = t at hcases ⊢
    rcases hcases with hstays | ⟨hturned, hboth | ⟨hdouble, -, hleft⟩⟩
    · have hoff : ¬ t.capsWordActive = true := fun hactive => hon (hstays.active.symm.trans hactive)
      constructor
      · exact hstays.held ▸ h.shifts
      · exact hstays.held ▸ hsame h.held
      · exact hstays.real ▸ h.real.pressed hkey
      · exact fun _ hactive => absurd hactive hoff
      · exact fun hactive => absurd hactive hoff
      · exact hstays.oneshot ▸ h.oneshot
    · exact absurd hboth (h.not_both hkey hup)
    · -- the left shift that is tapped twice is passed on
      have heq : r.keycode = kcLsft := by
        rcases hleft with heq | heq
        · exact heq
        · rcases hkey with hkey | hkey <;> rw [hkey] at heq <;> exact absurd heq (by decide)
      constructor
      · exact hturned.held ▸ h.shifts
      · exact hturned.held ▸ hsame h.held
      · exact hturned.real ▸ (under_zero down).pressed hkey
      · exact fun hnone => absurd hdouble (ne_true_of_eq_false hnone)
      · intro _
        change (t.mods.real ||| modBit r.keycode).getLsbD 5 = false
        rw [hturned.real, heq]
        rfl
      · change t.mods.oneshot &&& modMaskShift = 0
        rw [hturned.oneshot]
        rfl

theorem Followed.releaseShift (h : Followed cfg down s) (now : BitVec 16) (hkey : IsShift r.keycode)
    (hreleased : r.pressed = false)
    (hcounted : s.capsWordActive = true → s.mods.real &&& modBit r.keycode = 0) :
    Followed cfg (Function.update down r.keycode false)
      (actionOf cfg r (processCapsWord cfg r now s)) := by
  have hnot : ¬ r.pressed = true := ne_true_of_eq_false hreleased
  have hhandle := handleShift_shift hkey s
  by_cases hon : s.capsWordActive = true
  · rw [if_pos hon, if_neg hnot] at hhandle
    rw [processCapsWord_of_held cfg now hkey.ne_toggle hhandle]
    refine ⟨shifts_and h.shifts _, h.held.released hkey, ?_, h.noLeft, h.noRight, h.oneshot⟩
    have hreal := h.real.released hkey
    rwa [and_not_of_and_eq_zero (hcounted hon)] at hreal
  · by_cases hheld : s.heldMods &&& modBit r.keycode ≠ 0
    · rw [if_neg hon, if_pos hheld, hreleased] at hhandle
      rw [processCapsWord_of_held cfg now hkey.ne_toggle hhandle]
      exact ⟨shifts_and h.shifts _, h.held.released hkey, h.real.released hkey,
        fun _ hactive => absurd hactive hon, fun hactive => absurd hactive hon, h.oneshot⟩
    · rw [if_neg hon, if_neg hheld] at hhandle
      rw [processCapsWord_of_handleShift cfg now hkey.ne_toggle hhandle, if_neg hon, actionOf,
        if_pos rfl, processAction_shift cfg hkey, if_neg hnot]
      have hcases := whileOff_cases cfg r now (s.mods.real ||| s.mods.oneshot)
        (eq_false_of_ne_true hon)
      have hturned : Followed cfg down (whileOff cfg r now (s.mods.real ||| s.mods.oneshot) s) :=
        h.turns (hcases.imp_right fun hturned => Or.inl hturned.1)
      dsimp only
      generalize whileOff cfg r now (s.mods.real ||| s.mods.oneshot) s = t at hcases hturned ⊢
      have hthelds : t.heldMods = s.heldMods :=
        hcases.elim (fun hstays => hstays.held) fun hturned => hturned.1.held
      have hclear {i : ℕ} (hbit : t.mods.real.getLsbD i = false) :
          (t.mods.real &&& ~~~modBit r.keycode).getLsbD i = false := by
        rw [BitVec.getLsbD_and, hbit, Bool.false_and]
      constructor
      · exact hturned.shifts
      · have hreleased := hturned.held.released hkey
        rwa [hthelds, and_not_of_and_eq_zero (not_not.mp hheld), ← hthelds] at hreleased
      · exact hturned.real.released hkey
      · exact fun hnone hactive => hclear (hturned.noLeft hnone hactive)
      · exact fun hactive => hclear (hturned.noRight hactive)
      · exact hturned.oneshot

theorem bit_of_and_eq {mods mods' bits : BitVec 8} (h : mods &&& bits = mods' &&& bits) {i : ℕ}
    (hbit : bits.getLsbD i = true) : mods.getLsbD i = mods'.getLsbD i := by
  have heq : (mods &&& bits).getLsbD i = (mods' &&& bits).getLsbD i := by rw [h]
  simpa [hbit] using heq

theorem Followed.ordinary (h : Followed cfg down s) (hkey : ¬ IsShift r.keycode) :
    Followed cfg down (processAction cfg r s) := by
  have haction : processAction cfg r s =
      { s with mods := cfg.ordinary.action r.keycode r.pressed r.tapCount s.mods } := if_neg hkey
  rw [haction]
  have hreal := cfg.ordinary.real r.keycode r.pressed r.tapCount s.mods
  have hleft := bit_of_and_eq hreal (show modMaskShift.getLsbD 1 = true from rfl)
  have hright := bit_of_and_eq hreal (show modMaskShift.getLsbD 5 = true from rfl)
  constructor
  · exact h.shifts
  · exact h.held
  · exact ⟨fun hbit => h.real.left (hleft.symm.trans hbit),
      fun hbit => h.real.right (hright.symm.trans hbit)⟩
  · exact fun hnone hactive => hleft.trans (h.noLeft hnone hactive)
  · exact fun hactive => hright.trans (h.noRight hactive)
  · exact (cfg.ordinary.oneshot ..).trans h.oneshot

theorem Followed.otherKey (h : Followed cfg down s) (now : BitVec 16) (hkey : ¬ IsShift r.keycode)
    (hshift : shiftKeycode r = r.keycode) :
    Followed cfg (Function.update down r.keycode r.pressed)
      (actionOf cfg r (processCapsWord cfg r now s)) := by
  have hother {t : State} (ht : Followed cfg down t) :
      Followed cfg (Function.update down r.keycode r.pressed) t :=
    ⟨ht.shifts, ht.held.other hkey _, ht.real.other hkey _, ht.noLeft, ht.noRight, ht.oneshot⟩
  apply hother
  by_cases htoggle : r.keycode = qkCapsWordToggle
  · rw [processCapsWord, if_pos htoggle, actionOf, if_neg Bool.false_ne_true]
    dsimp only
    split_ifs
    · exact h.turns (turns_capsWordToggle cfg now s)
    · exact h
  · have hhandle : handleShift r s = (true, s) := by
      rw [handleShift, hshift]
      exact if_neg hkey
    rw [processCapsWord_of_handleShift cfg now htoggle hhandle, actionOf, if_pos rfl]
    have hturned : Followed cfg down
        (if s.capsWordActive then whileOn cfg r now (s.mods.real ||| s.mods.oneshot) s
          else whileOff cfg r now (s.mods.real ||| s.mods.oneshot) s) := by
      split_ifs with hactive
      · exact h.turns (turns_whileOn cfg r now _ hactive)
      · exact h.turns ((whileOff_cases cfg r now _ (eq_false_of_ne_true hactive)).imp_right
          fun hturned => Or.inl hturned.1)
    exact hturned.ordinary hkey

end Steps

section Runs

variable {cfg : Config} {w : Watched} {e : Event}

theorem Followed.step (h : Followed cfg w.down w.state) (htyped : typing.ok w.down e)
    (hcounted : (leftCounted cfg).ok w e) :
    Followed cfg ((leftCounted cfg).next w e).down ((leftCounted cfg).next w e).state := by
  match e with
  | .task now => exact h.turns (turns_capsWordTask cfg now w.state)
  | .key r now =>
    obtain ⟨halternates, hshift⟩ := htyped
    set s := if r.pressed then { w.state with mods := { w.state.mods with weak := 0 } }
      else w.state with hs
    have hstays : Stays w.state s := by
      rw [hs]
      split_ifs <;> exact ⟨rfl, rfl, rfl, rfl⟩
    have hfollowed : Followed cfg w.down s := h.turns (Or.inl hstays)
    change Followed cfg (Function.update w.down r.keycode r.pressed)
      (actionOf cfg r (processCapsWord cfg r now s))
    by_cases hkey : IsShift r.keycode
    · cases hpressed : r.pressed with
      | true =>
        rw [hpressed] at halternates
        exact hfollowed.pressShift now hkey hpressed halternates
      | false =>
        apply hfollowed.releaseShift now hkey hpressed
        intro hactive
        have hon : w.state.capsWordActive = true := hstays.active.symm.trans hactive
        rw [hstays.real]
        rcases hkey with heq | heq
        · rw [heq]
          exact hcounted heq hpressed hon
        · rw [heq]
          exact (and_thirtyTwo_eq_zero _).mpr (h.noRight hon)
    · exact hfollowed.otherKey now hkey hshift

theorem Followed.run (h : Followed cfg w.down w.state) {events : List Event}
    (htyped : typing.Accepts w.down events) (hcounted : (leftCounted cfg).Accepts w events) :
    Followed cfg ((leftCounted cfg).after w events).down
      ((leftCounted cfg).after w events).state := by
  induction events generalizing w with
  | nil => exact h
  | cons e events ih => exact ih (h.step htyped.1 hcounted.1) htyped.2 hcounted.2

theorem followed_start (cfg : Config) : Followed cfg (fun _ => false) {} :=
  ⟨rfl, under_zero _, under_zero _, fun _ _ => rfl, fun _ => rfl, rfl⟩

theorem Followed.released (h : Followed cfg w.down w.state) : Released w := by
  intro hleft hright
  have hnone {mods : BitVec 8} (hmods : Under w.down mods) : mods &&& modMaskShift = 0 := by
    have hor : modMaskShift = modBit kcLsft ||| modBit kcRsft := rfl
    rw [hor, BitVec.and_or_distrib_left, hmods.and_modBit (Or.inl rfl) hleft,
      hmods.and_modBit (Or.inr rfl) hright]
    rfl
  constructor
  · have hkept := and_not_of_and_eq_zero (hnone h.held)
    rw [h.shifts] at hkept
    exact hkept.symm
  · exact hnone h.real

/-- A left shift that is not counted out stays in `real_mods`. -/
theorem not_released_of_not_ok (hcounted : ¬ (leftCounted cfg).ok w e)
    (hright : w.down kcRsft = false) : ¬ Released ((leftCounted cfg).next w e) := by
  match e with
  | .task now => exact absurd trivial hcounted
  | .key r now =>
    change ¬ (r.keycode = kcLsft → r.pressed = false → w.state.capsWordActive = true →
      w.state.mods.real &&& lshift = 0) at hcounted
    simp only [Classical.not_imp] at hcounted
    obtain ⟨hkey, hreleased, hon, hreal⟩ := hcounted
    have hnot : ¬ r.pressed = true := ne_true_of_eq_false hreleased
    have hhandle := handleShift_shift (Or.inl hkey) w.state
    rw [if_pos hon, if_neg hnot] at hhandle
    have hstep : CapsWord.step cfg (.key r now) w.state =
        actionOf cfg r (processCapsWord cfg r now w.state) := by
      rw [CapsWord.step, if_neg hnot]
      rfl
    rw [processCapsWord_of_held cfg now (IsShift.ne_toggle (Or.inl hkey)) hhandle] at hstep
    intro hall
    have hup : ((leftCounted cfg).next w (.key r now)).down =
        Function.update w.down kcLsft false := by
      change Function.update w.down r.keycode r.pressed = _
      rw [hkey, hreleased]
    have hreleased' := (hall (by rw [hup, Function.update_self])
      (by rw [hup, Function.update_of_ne (by decide), hright])).2
    change (CapsWord.step cfg (.key r now) w.state).mods.real &&& modMaskShift = 0 at hreleased'
    rw [hstep] at hreleased'
    have hnone : w.state.mods.real &&& modMaskShift = (0 : BitVec 8) &&& modMaskShift := hreleased'
    have hbit := bit_of_and_eq hnone (show modMaskShift.getLsbD 1 = true from rfl)
    exact hreal ((and_two_eq_zero _).mpr (hbit.trans (by decide)))

/-- Without the double tap, every run counts the left shift out. -/
theorem Followed.accepts (h : Followed cfg w.down w.state)
    (hnone : cfg.doubleTapShiftTurnsOnCapsWord = false) {events : List Event}
    (htyped : typing.Accepts w.down events) : (leftCounted cfg).Accepts w events := by
  induction events generalizing w with
  | nil => exact trivial
  | cons e events ih =>
    have hcounted : (leftCounted cfg).ok w e := by
      cases e with
      | task now => exact trivial
      | key r now => exact fun _ _ hon => (and_two_eq_zero _).mpr (h.noLeft hnone hon)
    exact ⟨hcounted, ih (h.step htyped.1 hcounted) htyped.2⟩

/-- No shift stays held in a run whose steps let the left shift be counted out. A left shift that is
released while Caps Word is on and it is in `real_mods` stays held if the right shift is up. Only
the left shift that is tapped twice can be released so. -/
theorem released_of_leftCounted (cfg : Config) (events : List Event)
    (htyped : typing.Accepts (fun _ => false) events) :
    ((leftCounted cfg).Accepts {} events → ∀ pre rest, events = pre ++ rest →
      Released ((leftCounted cfg).after {} pre)) ∧
    (∀ pre e rest, events = pre ++ e :: rest → (leftCounted cfg).Accepts {} pre →
      ¬ (leftCounted cfg).ok ((leftCounted cfg).after {} pre) e →
      ((leftCounted cfg).after {} pre).down kcRsft = false →
      ¬ Released ((leftCounted cfg).after {} (pre ++ [e]))) ∧
    (cfg.doubleTapShiftTurnsOnCapsWord = false → (leftCounted cfg).Accepts {} events) := by
  refine ⟨?_, ?_, ?_⟩
  · rintro hcounted pre rest rfl
    rw [Monitor.accepts_append] at htyped hcounted
    exact ((followed_start cfg).run htyped.1 hcounted.1).released
  · rintro pre e rest rfl - hcounted hright
    rw [Monitor.after_append]
    exact not_released_of_not_ok hcounted hright
  · exact fun hnone => (followed_start cfg).accepts hnone htyped

/-- A build in which the double tap of left shift turns Caps Word on. -/
def doubleTaps : Config := { doubleTapShiftTurnsOnCapsWord := true }

/-- Left shift is tapped twice. -/
def tappedTwice : List Event :=
  [.key { keycode := kcLsft, pressed := true, time := 10 } 10,
    .key { keycode := kcLsft, pressed := false, time := 60 } 60,
    .key { keycode := kcLsft, pressed := true, time := 110 } 110,
    .key { keycode := kcLsft, pressed := false, time := 160 } 160]

theorem tappedTwice_typing : typing.Accepts (fun _ => false) tappedTwice :=
  ⟨⟨rfl, rfl⟩, ⟨rfl, rfl⟩, ⟨rfl, rfl⟩, ⟨rfl, rfl⟩, trivial⟩

theorem tappedTwice_leftCounted :
    ((leftCounted doubleTaps).Accepts {} tappedTwice → ∀ pre rest, tappedTwice = pre ++ rest →
      Released ((leftCounted doubleTaps).after {} pre)) ∧
    (∀ pre e rest, tappedTwice = pre ++ e :: rest → (leftCounted doubleTaps).Accepts {} pre →
      ¬ (leftCounted doubleTaps).ok ((leftCounted doubleTaps).after {} pre) e →
      ((leftCounted doubleTaps).after {} pre).down kcRsft = false →
      ¬ Released ((leftCounted doubleTaps).after {} (pre ++ [e]))) ∧
    (doubleTaps.doubleTapShiftTurnsOnCapsWord = false →
      (leftCounted doubleTaps).Accepts {} tappedTwice) :=
  released_of_leftCounted doubleTaps tappedTwice tappedTwice_typing

theorem tappedTwice_not_released : ¬ ∀ (cfg : Config) (events : List Event),
    typing.Accepts (fun _ => false) events → ∀ pre rest, events = pre ++ rest →
      Released ((leftCounted cfg).after {} pre) := by
  intro hclaim
  have hall := hclaim doubleTaps tappedTwice tappedTwice_typing tappedTwice []
    (List.append_nil _).symm
  have hreal := (hall rfl rfl).2
  exact absurd hreal (by decide)

end Runs

end Qmk.CapsWord
