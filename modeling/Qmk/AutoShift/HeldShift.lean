import Qmk.AutoShift
import Qmk.Sweep

/-! # The held shift under Auto Shift

While a key repeats, a held shift is taken out of `real_mods` and kept in `cancelling_lshift` or
`cancelling_rshift`. A shift that is in neither place has been lost, and one that is in either place
without its key being held is stuck.
-/

namespace Qmk.AutoShift

/-- A key for one shift: the plain keycode, or a mod-tap with the modifier. -/
structure ShiftKey (plain : Keycode) (modifier : BitVec 8) where
  keycode : Keycode
  shifts : keycode = plain ∨
    (IsModTap keycode ∧ 1 < lowByte keycode ∧ modTapMods keycode &&& modifier ≠ 0)

/-- The shift keys of a keyboard, at most one for each side. -/
structure Layout where
  left : ShiftKey kcLsft lshift
  right : ShiftKey kcRsft rshift

/-- Auto-shift keys and other basic keys, modifiers other than shift, the keys of Auto Shift itself,
and the shift keys, which are held. -/
def Event.InScope (l : Layout) : Event → Prop
  | .key keycode _ tapCount _ =>
    IsBasic keycode ∨ (IsModifier keycode ∧ keycode ≠ kcLsft ∧ keycode ≠ kcRsft) ∨
      (asDown ≤ keycode ∧ keycode ≤ asTogg) ∨
      ((keycode = l.left.keycode ∨ keycode = l.right.keycode) ∧ tapCount = 0)
  | .scan _ => True

/-- The keys that are down, and the firmware. -/
structure Watched where
  down : Keycode → Bool
  state : State

section Specification

variable (cfg : Config) (l : Layout)

def Watched.step (w : Watched) (e : Event) : Watched where
  down := downAfter w.down e
  state := (AutoShift.step cfg e w.state).toState

def Watched.run (w : Watched) (events : List Event) : Watched := events.foldl (Watched.step cfg) w

def Watched.start : Watched := ⟨fun _ => false, AutoShift.start cfg⟩

/-- No auto-shift key is down, apart from this one. -/
def NoneBut (keycode : Keycode) (down : Keycode → Bool) : Prop :=
  ∀ k, GetAutoShiftedKey k → k ≠ keycode → down k = false

/-- While no auto-shift key is down, the shift bits are those of the keys that are held. -/
def GivesBack (w : Watched) : Prop :=
  (∀ k, GetAutoShiftedKey k → w.down k = false) →
    (w.state.realMods &&& lshift ≠ 0 ↔ w.down l.left.keycode = true) ∧
    (w.state.realMods &&& rshift ≠ 0 ↔ w.down l.right.keycode = true)

/-- While the left shift is cancelled, the last auto-shift key to be released is the last one that
was pressed, and a mod-tap for the left shift is not released. -/
def remembered : Monitor Event Watched where
  next := Watched.step cfg
  ok w e := w.state.cancellingLshift = true →
    match e with
    | .key keycode false _ _ =>
      (GetAutoShiftedKey keycode → NoneBut keycode w.down → keycode = w.state.autoshiftLastkey) ∧
        (keycode = l.left.keycode → keycode = kcLsft)
    | _ => True

end Specification

section Bits

/-- The left shift is in `real_mods` or is to be given back. -/
def State.leftShift (s : State) : Bool := s.realMods.getLsbD 1 || s.cancellingLshift

/-- The right shift is in `real_mods` or is to be given back. -/
def State.rightShift (s : State) : Bool := s.realMods.getLsbD 5 || s.cancellingRshift

@[simp] theorem lshift_one : lshift[1] = true := rfl

@[simp] theorem lshift_five : lshift[5] = false := rfl

@[simp] theorem rshift_one : rshift[1] = false := rfl

@[simp] theorem rshift_five : rshift[5] = true := rfl

@[simp] theorem and_lshift_eq_zero (mods : BitVec 8) : mods &&& lshift = 0#8 ↔ mods[1] = false := by
  rw [← not_iff_not]
  exact (and_bitMask_ne_zero (show 1 < 8 by omega) mods).trans (by simp)

@[simp] theorem and_rshift_eq_zero (mods : BitVec 8) : mods &&& rshift = 0#8 ↔ mods[5] = false := by
  rw [← not_iff_not]
  exact (and_bitMask_ne_zero (show 5 < 8 by omega) mods).trans (by simp)

theorem leftShift_autoshiftFlushShift (s : Processing) :
    (autoshiftFlushShift s).leftShift = s.leftShift := by
  unfold autoshiftFlushShift addMods State.leftShift
  cases s.cancellingLshift <;> cases s.cancellingRshift <;> simp

theorem rightShift_autoshiftFlushShift (s : Processing) :
    (autoshiftFlushShift s).rightShift = s.rightShift := by
  unfold autoshiftFlushShift addMods State.rightShift
  cases s.cancellingLshift <;> cases s.cancellingRshift <;> simp

theorem cancelling_autoshiftFlushShift (s : Processing) :
    (autoshiftFlushShift s).cancellingLshift = false ∧
      (autoshiftFlushShift s).cancellingRshift = false := by
  unfold autoshiftFlushShift addMods
  cases s.cancellingLshift <;> cases s.cancellingRshift <;> simp

theorem leftShift_cancelShift (s : Processing) : (cancelShift s).leftShift = s.leftShift := by
  unfold cancelShift delMods State.leftShift
  cases hleft : s.realMods[1] <;> cases hright : s.realMods[5] <;> simp [hleft, hright]

theorem rightShift_cancelShift (s : Processing) : (cancelShift s).rightShift = s.rightShift := by
  unfold cancelShift delMods State.rightShift
  cases hleft : s.realMods[1] <;> cases hright : s.realMods[5] <;> simp [hleft, hright]

end Bits

section Shifts

variable {cfg : Config} {s t : Processing} {keycode : Keycode} {now : BitVec 16}

structure ShiftKept (s t : State) : Prop where
  left : t.leftShift = s.leftShift
  right : t.rightShift = s.rightShift

theorem shiftKept_autoshiftEnd (cfg : Config) (keycode : Keycode) (now : BitVec 16)
    (trigger : Bool) (s : Processing) :
    ShiftKept s.toState (autoshiftEnd cfg keycode now trigger s).toState := by
  rw [autoshiftEnd]
  by_cases hend : s.inProgress ∧ (keycode = s.autoshiftLastkey ∨ keycode = 0)
  · rw [if_pos hend]
    extract_lets u v w x y z
    have hleft : w.leftShift = s.leftShift := leftShift_cancelShift v
    have hright : w.rightShift = s.rightShift := rightShift_cancelShift v
    by_cases hrepeats : cfg.autoShiftRepeat ∧ ¬ cfg.autoShiftNoAutoRepeat ∧ trigger
    · simp only [if_pos hrepeats]
      exact ⟨hleft, hright⟩
    · simp only [if_neg hrepeats]
      exact ⟨(leftShift_autoshiftFlushShift y).trans hleft,
        (rightShift_autoshiftFlushShift y).trans hright⟩
  · rw [if_neg hend]
    extract_lets u v
    by_cases hlast : keycode = u.autoshiftLastkey
    · have hv : v = autoshiftFlushShift u := if_pos hlast
      rw [hv]
      exact ⟨leftShift_autoshiftFlushShift u, rightShift_autoshiftFlushShift u⟩
    · have hv : v = u := if_neg hlast
      rw [hv]
      exact ⟨rfl, rfl⟩

/-- The release of the key that was pressed last gives the shift back. -/
theorem cancelling_autoshiftEnd {trigger : Bool}
    (hrepeats : ¬ (cfg.autoShiftRepeat ∧ ¬ cfg.autoShiftNoAutoRepeat ∧ trigger))
    (h : s.inProgress ∧ (keycode = s.autoshiftLastkey ∨ keycode = 0) ∨
      keycode = s.autoshiftLastkey) :
    (autoshiftEnd cfg keycode now trigger s).cancellingLshift = false ∧
      (autoshiftEnd cfg keycode now trigger s).cancellingRshift = false := by
  rw [autoshiftEnd]
  by_cases hend : s.inProgress ∧ (keycode = s.autoshiftLastkey ∨ keycode = 0)
  · rw [if_pos hend]
    extract_lets u v w x y z
    simp only [if_neg hrepeats]
    exact cancelling_autoshiftFlushShift y
  · rw [if_neg hend]
    extract_lets u v
    have hv : v = autoshiftFlushShift u := if_pos (h.resolve_left hend)
    rw [hv]
    exact cancelling_autoshiftFlushShift u

theorem cancelling_autoshiftEnd_other (trigger : Bool)
    (h : ¬ (s.inProgress ∧ (keycode = s.autoshiftLastkey ∨ keycode = 0))) :
    ((autoshiftEnd cfg keycode now trigger s).cancellingLshift = true →
      s.cancellingLshift = true) ∧
    ((autoshiftEnd cfg keycode now trigger s).cancellingRshift = true →
      s.cancellingRshift = true) := by
  rw [autoshiftEnd, if_neg h]
  extract_lets u v
  by_cases hlast : keycode = u.autoshiftLastkey
  · have hv : v = autoshiftFlushShift u := if_pos hlast
    obtain ⟨hleft, hright⟩ := cancelling_autoshiftFlushShift u
    rw [hv]
    exact ⟨fun htrue => absurd htrue (ne_true_of_eq_false hleft),
      fun htrue => absurd htrue (ne_true_of_eq_false hright)⟩
  · have hv : v = u := if_neg hlast
    rw [hv]
    exact ⟨id, id⟩

theorem modeKey_shift (keycode : Keycode) (s : Processing) :
    ShiftKept s.toState (modeKey keycode s).toState ∧
    ((modeKey keycode s).cancellingLshift = true →
      s.cancellingLshift = true ∧ (s.enabled = true → (modeKey keycode s).enabled = true)) ∧
    ((modeKey keycode s).cancellingRshift = true → s.cancellingRshift = true) := by
  have hflush (u : Processing) (hleft : u.leftShift = s.leftShift)
      (hright : u.rightShift = s.rightShift) :
      ShiftKept s.toState (autoshiftFlushShift u).toState ∧
      ((autoshiftFlushShift u).cancellingLshift = true → s.cancellingLshift = true ∧
        (s.enabled = true → (autoshiftFlushShift u).enabled = true)) ∧
      ((autoshiftFlushShift u).cancellingRshift = true → s.cancellingRshift = true) := by
    obtain ⟨hcleft, hcright⟩ := cancelling_autoshiftFlushShift u
    refine ⟨⟨(leftShift_autoshiftFlushShift u).trans hleft,
      (rightShift_autoshiftFlushShift u).trans hright⟩, ?_, ?_⟩
    · exact fun htrue => absurd htrue (ne_true_of_eq_false hcleft)
    · exact fun htrue => absurd htrue (ne_true_of_eq_false hcright)
  unfold modeKey autoshiftToggle autoshiftDisable autoshiftEnable
  split_ifs
  · exact hflush _ rfl rfl
  · exact ⟨⟨rfl, rfl⟩, fun htrue => ⟨htrue, fun _ => rfl⟩, id⟩
  · exact hflush _ rfl rfl
  · exact ⟨⟨rfl, rfl⟩, fun htrue => ⟨htrue, id⟩, id⟩
  · exact ⟨⟨rfl, rfl⟩, fun htrue => ⟨htrue, id⟩, id⟩
  · exact ⟨⟨rfl, rfl⟩, fun htrue => ⟨htrue, id⟩, id⟩
  · exact ⟨⟨rfl, rfl⟩, fun htrue => ⟨htrue, id⟩, id⟩

end Shifts

section Process

variable {cfg : Config} {down : Keycode → Bool} {s : Processing} {keycode : Keycode}
  {now : BitVec 16}

/-- Only the left shift is ever cancelled, and only while an auto-shift key is down. -/
structure Steady (down : Keycode → Bool) (s : State) : Prop where
  waits : Waits down s
  rightFree : s.inProgress = true → s.realMods[5] = false
  notRight : s.cancellingRshift = false
  cancelling : s.cancellingLshift = true →
    s.enabled = true ∧ ∃ k, GetAutoShiftedKey k ∧ down k = true

theorem notRight_of_free {s t : State} (h : ShiftKept s t) (hfree : s.realMods[5] = false)
    (hright : s.cancellingRshift = false) : t.cancellingRshift = false := by
  have hnone : t.rightShift = false := by
    rw [h.right]
    simp [State.rightShift, hfree, hright]
  exact (Bool.or_eq_false_iff.mp hnone).2

theorem Steady.mono {down' : Keycode → Bool} {s : State} (h : Steady down s)
    (hdown : ∀ k, GetAutoShiftedKey k → down k = true → down' k = true) : Steady down' s := by
  refine ⟨?_, h.rightFree, h.notRight, ?_⟩
  · intro hin
    obtain ⟨henabled, hkey, hlast⟩ := h.waits hin
    exact ⟨henabled, hkey, hdown _ hkey hlast⟩
  · intro hcancelling
    obtain ⟨henabled, k, hkey, hk⟩ := h.cancelling hcancelling
    exact ⟨henabled, k, hkey, hdown k hkey hk⟩

theorem Steady.settle (h : Steady down s.toState)
    (hend : s.inProgress ∧ (keycode = s.autoshiftLastkey ∨ keycode = 0)) (trigger : Bool) :
    Steady down (autoshiftEnd cfg keycode now trigger s).toState := by
  obtain ⟨henabled, hidle, -⟩ := autoshiftEnd_waiting cfg now trigger hend
  obtain ⟨hon, hkey, hdown⟩ := h.waits hend.1
  refine ⟨waits_of_idle hidle, fun hin => absurd hin (ne_true_of_eq_false hidle), ?_, ?_⟩
  · exact notRight_of_free (shiftKept_autoshiftEnd ..) (h.rightFree hend.1) h.notRight
  · exact fun _ => ⟨henabled.trans hon, s.autoshiftLastkey, hkey, hdown⟩

theorem Steady.modeKey (h : Steady down s.toState) (hidle : s.inProgress = false)
    (keycode : Keycode) : Steady down (modeKey keycode s).toState := by
  obtain ⟨hin, -, -⟩ := modeKey_keys keycode s
  obtain ⟨-, hleft, hright⟩ := modeKey_shift keycode s
  have hidle' := hin.trans hidle
  refine ⟨waits_of_idle hidle', fun hin => absurd hin (ne_true_of_eq_false hidle'), ?_, ?_⟩
  · exact eq_false_of_ne_true (mt hright (ne_true_of_eq_false h.notRight))
  · intro htrue
    obtain ⟨henabled, hdown⟩ := h.cancelling (hleft htrue).1
    exact ⟨(hleft htrue).2 henabled, hdown⟩

theorem bit_of_only {mods : BitVec 8} (h : mods &&& ~~~lshift = 0) : mods[5] = false := by
  have hbit : (mods &&& ~~~lshift)[5] = false := by
    rw [h]
    rfl
  simpa using hbit

theorem Steady.autoshiftPress (cfg : Config) (now : BitVec 16) (h : Steady down s.toState)
    (hidle : s.inProgress = false)
    (henabled : s.enabled = true) (hkey : GetAutoShiftedKey keycode)
    (hdown : down keycode = true) :
    Steady down (autoshiftPress cfg keycode now s).toState ∧
      ShiftKept s.toState (autoshiftPress cfg keycode now s).toState := by
  have hnot : ¬ s.inProgress = true := by simp [hidle]
  unfold AutoShift.autoshiftPress
  by_cases hmods : s.realMods &&& ~~~lshift ≠ 0
  · rw [if_pos hmods]
    exact ⟨⟨waits_of_idle hidle, fun hin => absurd hin hnot, h.notRight, h.cancelling⟩, rfl, rfl⟩
  rw [if_neg hmods]
  have hfree : s.realMods[5] = false := bit_of_only (not_not.mp hmods)
  by_cases hrepeats : cfg.autoShiftRepeat ∧ keycode = s.autoshiftLastkey ∧
      (cfg.autoShiftNoAutoRepeat ∨ ¬ s.lastshifted) ∧
      now - s.autoshiftTime < cfg.getTappingTerm s.autoshiftLastkey
  · rw [if_pos hrepeats]
    extract_lets u
    have hu : SameKeys s u := sameKeys_cancelShift s
    have hkept : ShiftKept s.toState u.toState :=
      ⟨leftShift_cancelShift s, rightShift_cancelShift s⟩
    have huidle : u.inProgress = false := hu.inProgress.trans hidle
    refine ⟨⟨waits_of_idle huidle, fun hin => absurd hin (ne_true_of_eq_false huidle),
      notRight_of_free hkept hfree h.notRight, fun _ => ?_⟩, hkept.left, hkept.right⟩
    exact ⟨hu.enabled.trans henabled, keycode, hkey, hdown⟩
  · rw [if_neg hrepeats]
    exact ⟨⟨fun _ => ⟨henabled, hkey, hdown⟩, fun _ => hfree, h.notRight, h.cancelling⟩, rfl, rfl⟩

theorem Steady.pressed (cfg : Config) (h : Steady down s.toState) (keycode : Keycode)
    (now : BitVec 16) :
    Steady (Function.update down keycode true) (pressed cfg keycode now s).2.toState ∧
      ShiftKept s.toState (pressed cfg keycode now s).2.toState ∧
      ((pressed cfg keycode now s).1 = false → GetAutoShiftedKey keycode) ∧
      ((pressed cfg keycode now s).1 = true →
        (pressed cfg keycode now s).2.inProgress = false) := by
  obtain ⟨hsteady, hkept⟩ : Steady down (s.settled cfg now).toState ∧
      ShiftKept s.toState (s.settled cfg now).toState := by
    unfold Processing.settled
    split_ifs with hin
    · exact ⟨h.settle ⟨hin, Or.inr rfl⟩ false, shiftKept_autoshiftEnd ..⟩
    · exact ⟨h, rfl, rfl⟩
  have hidle := inProgress_settled cfg now s
  have hdown : ∀ k, GetAutoShiftedKey k → down k = true →
      Function.update down keycode true k = true :=
    fun k _ hk => update_true_of_down keycode hk
  by_cases hkey : GetAutoShiftedKey keycode
  · rw [pressed_autoShifted cfg now hkey]
    split_ifs with henabled
    · obtain ⟨hpress, hpkept⟩ := Steady.autoshiftPress cfg now (hsteady.mono hdown) hidle
        ((enabled_settled cfg now s).trans henabled) hkey (Function.update_self ..)
      exact ⟨hpress, ⟨hpkept.left.trans hkept.left, hpkept.right.trans hkept.right⟩, fun _ => hkey,
        False.elim⟩
    · exact ⟨hsteady.mono hdown, hkept, fun _ => hkey, fun _ => hidle⟩
  · obtain ⟨last, hpassed⟩ := pressed_other cfg now hkey s
    obtain ⟨hmkept, -, -⟩ := modeKey_shift keycode (s.settled cfg now)
    have hmode : Steady (Function.update down keycode true)
        (AutoShift.modeKey keycode (s.settled cfg now)).toState :=
      (hsteady.modeKey hidle keycode).mono hdown
    have hmidle := (modeKey_keys keycode (s.settled cfg now)).1.trans hidle
    rw [hpassed]
    exact ⟨⟨waits_of_idle hmidle, hmode.rightFree, hmode.notRight, hmode.cancelling⟩,
      ⟨hmkept.left.trans hkept.left, hmkept.right.trans hkept.right⟩,
      fun hfalse => absurd hfalse.symm Bool.false_ne_true, fun _ => hmidle⟩

theorem Steady.goesUp {s : State} (h : Steady down s) (hkey : ¬ GetAutoShiftedKey keycode) :
    Steady (Function.update down keycode false) s := by
  apply h.mono
  rintro k hk hdown
  have hne : k ≠ keycode := by
    rintro rfl
    exact hkey hk
  rwa [Function.update_of_ne hne]

theorem Steady.autoshiftEnd (h : Steady down s.toState) (henabled : s.enabled = true)
    (hlast : s.cancellingLshift = true → NoneBut keycode down → keycode = s.autoshiftLastkey) :
    Steady (Function.update down keycode false)
      (autoshiftEnd cfg keycode now false s).toState := by
  have hcancelling : (AutoShift.autoshiftEnd cfg keycode now false s).cancellingLshift = true →
      ∃ k, GetAutoShiftedKey k ∧ Function.update down keycode false k = true := by
    intro hstill
    by_contra hnone
    have hnoneBut : NoneBut keycode down := by
      rintro k hk hne
      by_contra hdown
      exact hnone ⟨k, hk, by rw [Function.update_of_ne hne, eq_true_of_ne_false hdown]⟩
    have hflushed (h : s.inProgress ∧ (keycode = s.autoshiftLastkey ∨ keycode = 0) ∨
        keycode = s.autoshiftLastkey) : False :=
      ne_true_of_eq_false (cancelling_autoshiftEnd (by simp) h).1 hstill
    by_cases hend : s.inProgress ∧ (keycode = s.autoshiftLastkey ∨ keycode = 0)
    · exact hflushed (Or.inl hend)
    · exact hflushed (Or.inr (hlast ((cancelling_autoshiftEnd_other false hend).1 hstill) hnoneBut))
  by_cases hend : s.inProgress ∧ (keycode = s.autoshiftLastkey ∨ keycode = 0)
  · obtain ⟨hsame, hidle, -⟩ := autoshiftEnd_waiting cfg now false hend
    have hsettled : Steady down (AutoShift.autoshiftEnd cfg keycode now false s).toState :=
      h.settle hend false
    exact ⟨waits_of_idle hidle, hsettled.rightFree, hsettled.notRight,
      fun hstill => ⟨hsame.trans henabled, hcancelling hstill⟩⟩
  · obtain ⟨hsame, hin, hlastkey, -⟩ := autoshiftEnd_other cfg now false hend
    have hkept : ShiftKept s.toState (AutoShift.autoshiftEnd cfg keycode now false s).toState :=
      shiftKept_autoshiftEnd ..
    have hright : (AutoShift.autoshiftEnd cfg keycode now false s).cancellingRshift = false :=
      eq_false_of_ne_true
        (mt (cancelling_autoshiftEnd_other false hend).2 (ne_true_of_eq_false h.notRight))
    refine ⟨?_, ?_, hright, fun hstill => ⟨hsame.trans henabled, hcancelling hstill⟩⟩
    · intro hwaits
      obtain ⟨hon, hshifted, hdown⟩ := h.waits (hin.symm.trans hwaits)
      have hne : s.autoshiftLastkey ≠ keycode :=
        fun heq => hend ⟨hin.symm.trans hwaits, Or.inl heq.symm⟩
      rw [hsame, hlastkey]
      exact ⟨hon, hshifted, by rwa [Function.update_of_ne hne]⟩
    · intro hwaits
      have hfree := h.rightFree (hin.symm.trans hwaits)
      have hnone : (AutoShift.autoshiftEnd cfg keycode now false s).rightShift = false := by
        rw [hkept.right]
        simp [State.rightShift, hfree, h.notRight]
      exact (Bool.or_eq_false_iff.mp hnone).1

theorem Steady.released (cfg : Config) (h : Steady down s.toState) (keycode : Keycode)
    (now : BitVec 16)
    (hlast : s.cancellingLshift = true → GetAutoShiftedKey keycode → NoneBut keycode down →
      keycode = s.autoshiftLastkey) :
    Steady (Function.update down keycode false) (released cfg keycode now s).2.toState ∧
      (released cfg keycode now s).2.rightShift = s.rightShift ∧
      (keycode ≠ kcLsft → (released cfg keycode now s).2.leftShift = s.leftShift) ∧
      (¬ GetAutoShiftedKey keycode →
        (released cfg keycode now s).2.cancellingLshift = true →
          s.cancellingLshift = true ∧ keycode ≠ kcLsft) ∧
      ((released cfg keycode now s).1 = false → GetAutoShiftedKey keycode) := by
  by_cases hkey : GetAutoShiftedKey keycode
  · rw [released_autoShifted cfg now hkey]
    split_ifs with henabled
    · have hkept : ShiftKept s.toState (AutoShift.autoshiftEnd cfg keycode now false s).toState :=
        shiftKept_autoshiftEnd ..
      exact ⟨h.autoshiftEnd henabled fun hcancelling => hlast hcancelling hkey, hkept.right,
        fun _ => hkept.left, fun hnot => absurd hkey hnot, fun _ => hkey⟩
    · refine ⟨⟨?_, h.rightFree, h.notRight, ?_⟩, rfl, fun _ => rfl, fun hnot => absurd hkey hnot,
        fun _ => hkey⟩
      · exact fun hin => absurd (h.waits hin).1 henabled
      · exact fun hcancelling => absurd (h.cancelling hcancelling).1 henabled
  · have htrue : true = false → GetAutoShiftedKey keycode :=
      fun hfalse => absurd hfalse.symm Bool.false_ne_true
    rcases released_other cfg now hkey s with ⟨hleft, hr⟩ | ⟨hright, hr⟩ | ⟨hleft, hr⟩ <;> rw [hr]
    · have hsteady : Steady down { s.toState with cancellingLshift := false } :=
        ⟨h.waits, h.rightFree, h.notRight, nofun⟩
      exact ⟨hsteady.goesUp hkey, rfl, fun hne => absurd hleft hne, fun _ => nofun, htrue⟩
    · have hsteady : Steady down { s.toState with cancellingRshift := false } :=
        ⟨h.waits, h.rightFree, rfl, h.cancelling⟩
      have hne : keycode ≠ kcLsft := by
        rw [hright]
        decide
      refine ⟨hsteady.goesUp hkey, ?_, fun _ => rfl, fun _ hcancelling => ⟨hcancelling, hne⟩, htrue⟩
      simp [State.rightShift, h.notRight]
    · exact ⟨h.goesUp hkey, rfl, fun _ => rfl, fun _ hcancelling => ⟨hcancelling, hleft⟩, htrue⟩

end Process

section Layouts

variable {cfg : Config} {l : Layout} {s : Processing} {keycode : Keycode} {tapCount : ℕ}

def modsOf (keycode : Keycode) (tapCount : ℕ) : BitVec 8 :=
  match actionFor keycode tapCount with
  | .mods mods => mods
  | _ => 0

theorem modsOf_modTap (h : IsModTap keycode) (hcode : 1 < lowByte keycode) :
    modsOf keycode 0 = modTapMods keycode := by
  have hbasic : ¬ IsBasic keycode := by
    unfold IsModTap at h
    unfold IsBasic
    bv_omega
  have hmodifier : ¬ IsModifier keycode := by
    unfold IsModTap at h
    unfold IsModifier
    bv_omega
  rw [modsOf, actionFor, if_neg hbasic, if_neg hmodifier, if_pos ⟨h, hcode⟩, if_pos rfl]

theorem modTapMods_bits (keycode : Keycode) :
    (modTapMods keycode)[1] = false ∨ (modTapMods keycode)[5] = false := by
  unfold modTapMods
  dsimp only
  split_ifs
  · exact Or.inl (by simp)
  · exact Or.inr (by simp)

theorem ShiftKey.left_bits (k : ShiftKey kcLsft lshift) :
    (modsOf k.keycode 0)[1] = true ∧ (modsOf k.keycode 0)[5] = false := by
  rcases k.shifts with hplain | ⟨htap, hcode, hbit⟩
  · rw [hplain]
    exact ⟨rfl, rfl⟩
  · rw [modsOf_modTap htap hcode]
    have hone : (modTapMods k.keycode)[1] = true :=
      eq_true_of_ne_false fun hfalse => hbit ((and_lshift_eq_zero _).mpr hfalse)
    exact ⟨hone, (modTapMods_bits k.keycode).resolve_left (by simp [hone])⟩

theorem ShiftKey.right_bits (k : ShiftKey kcRsft rshift) :
    (modsOf k.keycode 0)[1] = false ∧ (modsOf k.keycode 0)[5] = true := by
  rcases k.shifts with hplain | ⟨htap, hcode, hbit⟩
  · rw [hplain]
    exact ⟨rfl, rfl⟩
  · rw [modsOf_modTap htap hcode]
    have hfive : (modTapMods k.keycode)[5] = true :=
      eq_true_of_ne_false fun hfalse => hbit ((and_rshift_eq_zero _).mpr hfalse)
    exact ⟨(modTapMods_bits k.keycode).resolve_right (by simp [hfive]), hfive⟩

theorem Layout.left_ne_right (l : Layout) : l.left.keycode ≠ l.right.keycode := by
  intro heq
  have hbit := l.left.left_bits.1
  rw [heq, l.right.right_bits.1] at hbit
  exact Bool.noConfusion hbit

/-- The keys in scope other than the shift keys have no shift bit. -/
theorem modsOf_other (tapCount : ℕ) (hleft : keycode ≠ kcLsft) (hright : keycode ≠ kcRsft)
    (h : IsBasic keycode ∨ IsModifier keycode ∨ (asDown ≤ keycode ∧ keycode ≤ asTogg)) :
    (modsOf keycode tapCount)[1] = false ∧ (modsOf keycode tapCount)[5] = false := by
  by_cases hbasic : IsBasic keycode
  · have haction : modsOf keycode tapCount = 0 := by
      rw [modsOf, actionFor, if_pos hbasic]
    rw [haction]
    exact ⟨rfl, rfl⟩
  by_cases hmodifier : IsModifier keycode
  · have haction : modsOf keycode tapCount = modBit keycode := by
      rw [modsOf, actionFor, if_neg hbasic, if_pos hmodifier]
    have hcases : keycode = 0xE0 ∨ keycode = 0xE2 ∨ keycode = 0xE3 ∨ keycode = 0xE4 ∨
        keycode = 0xE6 ∨ keycode = 0xE7 := by
      unfold IsModifier at hmodifier
      unfold kcLsft at hleft
      unfold kcRsft at hright
      bv_omega
    rw [haction]
    rcases hcases with rfl | rfl | rfl | rfl | rfl | rfl <;> exact ⟨rfl, rfl⟩
  · have hmode : asDown ≤ keycode ∧ keycode ≤ asTogg :=
      (h.resolve_left hbasic).resolve_left hmodifier
    have htap : ¬ (IsModTap keycode ∧ 1 < lowByte keycode) := by
      unfold asDown at hmode
      unfold IsModTap
      bv_omega
    have haction : modsOf keycode tapCount = 0 := by
      rw [modsOf, actionFor, if_neg hbasic, if_neg hmodifier, if_neg htap, if_pos hmode]
    rw [haction]
    exact ⟨rfl, rfl⟩

theorem ne_shift_of_other (l : Layout) (hleft : keycode ≠ kcLsft) (hright : keycode ≠ kcRsft)
    (h : IsBasic keycode ∨ IsModifier keycode ∨ (asDown ≤ keycode ∧ keycode ≤ asTogg)) :
    keycode ≠ l.left.keycode ∧ keycode ≠ l.right.keycode := by
  obtain ⟨hone, hfive⟩ := modsOf_other 0 hleft hright h
  constructor
  · rintro rfl
    exact Bool.noConfusion (hone.symm.trans l.left.left_bits.1)
  · rintro rfl
    exact Bool.noConfusion (hfive.symm.trans l.right.right_bits.2)

theorem Event.InScope.bits {press : Bool} {now : BitVec 16}
    (h : Event.InScope l (.key keycode press tapCount now)) :
    (modsOf keycode tapCount)[1] = decide (keycode = l.left.keycode) ∧
      (modsOf keycode tapCount)[5] = decide (keycode = l.right.keycode) := by
  have hother (hleft : keycode ≠ kcLsft) (hright : keycode ≠ kcRsft)
      (hkind : IsBasic keycode ∨ IsModifier keycode ∨ (asDown ≤ keycode ∧ keycode ≤ asTogg)) :
      (modsOf keycode tapCount)[1] = decide (keycode = l.left.keycode) ∧
        (modsOf keycode tapCount)[5] = decide (keycode = l.right.keycode) := by
    obtain ⟨hl, hr⟩ := ne_shift_of_other l hleft hright hkind
    obtain ⟨hone, hfive⟩ := modsOf_other tapCount hleft hright hkind
    rw [hone, hfive, decide_eq_false hl, decide_eq_false hr]
    exact ⟨rfl, rfl⟩
  rcases h with hbasic | ⟨hmodifier, hleft, hright⟩ | hmode | ⟨rfl | rfl, rfl⟩
  · apply hother
    · rintro rfl
      exact absurd hbasic (by decide)
    · rintro rfl
      exact absurd hbasic (by decide)
    · exact Or.inl hbasic
  · exact hother hleft hright (Or.inr (Or.inl hmodifier))
  · apply hother
    · rintro rfl
      exact absurd hmode (by decide)
    · rintro rfl
      exact absurd hmode (by decide)
    · exact Or.inr (Or.inr hmode)
  · rw [l.left.left_bits.1, l.left.left_bits.2, decide_eq_true rfl,
      decide_eq_false l.left_ne_right]
    exact ⟨rfl, rfl⟩
  · rw [l.right.right_bits.1, l.right.right_bits.2, decide_eq_true rfl,
      decide_eq_false l.left_ne_right.symm]
    exact ⟨rfl, rfl⟩

theorem Event.InScope.actionFor_ne {press : Bool} {now : BitVec 16}
    (h : Event.InScope l (.key keycode press tapCount now)) :
    actionFor keycode tapCount ≠ .other := by
  have hshift {plain : Keycode} {modifier : BitVec 8} (k : ShiftKey plain modifier)
      (hplain : IsModifier plain) : IsModifier k.keycode ∨
        IsModTap k.keycode ∧ 1 < lowByte k.keycode := by
    rcases k.shifts with heq | ⟨htap, hcode, -⟩
    · exact Or.inl (by rwa [heq])
    · exact Or.inr ⟨htap, hcode⟩
  have hkind : IsBasic keycode ∨ IsModifier keycode ∨
      (IsModTap keycode ∧ 1 < lowByte keycode) ∨ (asDown ≤ keycode ∧ keycode ≤ asTogg) := by
    rcases h with hbasic | ⟨hmodifier, -⟩ | hmode | ⟨rfl | rfl, -⟩
    · exact Or.inl hbasic
    · exact Or.inr (Or.inl hmodifier)
    · exact Or.inr (Or.inr (Or.inr hmode))
    · exact Or.inr ((hshift l.left (by decide)).imp_right Or.inl)
    · exact Or.inr ((hshift l.right (by decide)).imp_right Or.inl)
  unfold actionFor
  split_ifs with hbasic hmodifier htap hzero hmode
  · exact Action.noConfusion
  · exact Action.noConfusion
  · exact Action.noConfusion
  · exact Action.noConfusion
  · exact Action.noConfusion
  · exact absurd (((hkind.resolve_left hbasic).resolve_left hmodifier).resolve_left htap) hmode

theorem realMods_processAction (h : actionFor keycode tapCount ≠ .other) (press : Bool)
    (cfg : Config) (s : Processing) :
    (processAction cfg keycode press tapCount s).realMods =
      (if press then s.realMods ||| modsOf keycode tapCount
        else s.realMods &&& ~~~modsOf keycode tapCount) ∧
    (processAction cfg keycode press tapCount s).cancellingLshift = s.cancellingLshift ∧
    (processAction cfg keycode press tapCount s).cancellingRshift = s.cancellingRshift := by
  have hnone : s.realMods = if press then s.realMods ||| 0 else s.realMods &&& ~~~0 := by
    cases press
    · exact BitVec.and_allOnes.symm
    · exact BitVec.or_zero.symm
  unfold processAction modsOf
  cases haction : actionFor keycode tapCount with
  | basic code => exact ⟨hnone, rfl, rfl⟩
  | mods mods => cases press <;> exact ⟨rfl, rfl, rfl⟩
  | none => exact ⟨hnone, rfl, rfl⟩
  | other => exact absurd haction h

theorem shift_pressed {press : Bool} {now : BitVec 16}
    (h : Event.InScope l (.key keycode press tapCount now)) (cfg : Config) (s : Processing) :
    (processAction cfg keycode true tapCount s).leftShift =
      (s.leftShift || decide (keycode = l.left.keycode)) ∧
    (processAction cfg keycode true tapCount s).rightShift =
      (s.rightShift || decide (keycode = l.right.keycode)) := by
  obtain ⟨hmods, hleft, hright⟩ := realMods_processAction h.actionFor_ne true cfg s
  obtain ⟨hone, hfive⟩ := h.bits
  unfold State.leftShift State.rightShift
  rw [hmods, hleft, hright]
  simp [hone, hfive, Bool.or_right_comm]

theorem shift_released {press : Bool} {now : BitVec 16}
    (h : Event.InScope l (.key keycode press tapCount now)) (cfg : Config) (s : Processing)
    (hcancelling : keycode = l.left.keycode → s.cancellingLshift = false)
    (hnotRight : s.cancellingRshift = false) :
    (processAction cfg keycode false tapCount s).leftShift =
      (s.leftShift && !decide (keycode = l.left.keycode)) ∧
    (processAction cfg keycode false tapCount s).rightShift =
      (s.rightShift && !decide (keycode = l.right.keycode)) := by
  obtain ⟨hmods, hleft, hright⟩ := realMods_processAction h.actionFor_ne false cfg s
  obtain ⟨hone, hfive⟩ := h.bits
  have hleftBit : (s.realMods &&& ~~~modsOf keycode tapCount).getLsbD 1 =
      (s.realMods.getLsbD 1 && !decide (keycode = l.left.keycode)) := by simp [hone]
  have hrightBit : (s.realMods &&& ~~~modsOf keycode tapCount).getLsbD 5 =
      (s.realMods.getLsbD 5 && !decide (keycode = l.right.keycode)) := by simp [hfive]
  rw [State.leftShift, State.rightShift, State.leftShift, State.rightShift, hmods, hleft, hright,
    if_neg Bool.false_ne_true, hleftBit, hrightBit, hnotRight]
  by_cases heq : keycode = l.left.keycode
  · rw [hcancelling heq]
    exact ⟨by simp only [Bool.or_false], by simp only [Bool.or_false]⟩
  · rw [decide_eq_false heq]
    exact ⟨by simp only [Bool.not_false, Bool.and_true], by simp only [Bool.or_false]⟩

end Layouts

section Runs

variable {cfg : Config} {l : Layout} {down : Keycode → Bool} {w : Watched}

theorem GetAutoShiftedKey.ne_shift {keycode : Keycode} (h : GetAutoShiftedKey keycode)
    (l : Layout) : keycode ≠ l.left.keycode ∧ keycode ≠ l.right.keycode := by
  have hlt := h.lt
  apply ne_shift_of_other l
  · rintro rfl
    exact absurd hlt (by decide)
  · rintro rfl
    exact absurd hlt (by decide)
  · exact Or.inl h.isBasic

theorem Steady.processAction {s : Processing} {keycode : Keycode} {tapCount : ℕ} {press : Bool}
    (h : Steady down s.toState) (hother : actionFor keycode tapCount ≠ .other)
    (hidle : press = true → s.inProgress = false) :
    Steady down (processAction cfg keycode press tapCount s).toState := by
  obtain ⟨henabled, hin, hlast⟩ := processAction_keys cfg keycode press tapCount s
  obtain ⟨hmods, hleft, hright⟩ := realMods_processAction hother press cfg s
  refine ⟨?_, ?_, hright.trans h.notRight, ?_⟩
  · unfold Waits
    rw [hin, henabled, hlast]
    exact h.waits
  · intro hwaits
    have hswaits := hin.symm.trans hwaits
    cases press with
    | true => exact absurd hswaits (ne_true_of_eq_false (hidle rfl))
    | false =>
      have hfree := h.rightFree hswaits
      simp [hmods, hfree]
  · intro hcancelling
    rw [henabled]
    exact h.cancelling (hleft.symm.trans hcancelling)

/-- Each shift is in one of its places exactly while its key is held. -/
structure Held (l : Layout) (w : Watched) : Prop where
  steady : Steady w.down w.state
  left : w.state.leftShift = w.down l.left.keycode
  right : w.state.rightShift = w.down l.right.keycode

theorem Held.givesBack (h : Held l w) : GivesBack l w := by
  intro hnone
  have hcancelling : w.state.cancellingLshift = false := by
    by_contra hstill
    obtain ⟨-, k, hkey, hdown⟩ := h.steady.cancelling (eq_true_of_ne_false hstill)
    exact absurd hdown (ne_true_of_eq_false (hnone k hkey))
  constructor
  · rw [← h.left, State.leftShift, hcancelling, Bool.or_false]
    simp
  · rw [← h.right, State.rightShift, h.steady.notRight, Bool.or_false]
    simp

theorem held_start (cfg : Config) (l : Layout) : Held l (Watched.start cfg) where
  steady := ⟨waits_of_idle rfl, nofun, rfl, nofun⟩
  left := by simp [Watched.start, start, State.leftShift]
  right := by simp [Watched.start, start, State.rightShift]

theorem Held.scan (h : Held l w) (now : BitVec 16) : Held l (w.step cfg (.scan now)) := by
  have hscan : (w.step cfg (.scan now)).state =
      (autoshiftMatrixScan cfg now { toState := w.state }).toState := rfl
  by_cases hout : w.state.inProgress ∧ TimedOut now { toState := w.state }
  · have hend : w.state.inProgress ∧ (w.state.autoshiftLastkey = w.state.autoshiftLastkey ∨
        w.state.autoshiftLastkey = 0) := ⟨hout.1, Or.inl rfl⟩
    have hkept := shiftKept_autoshiftEnd cfg w.state.autoshiftLastkey now true
      { toState := w.state }
    rw [autoshiftMatrixScan, if_pos hout] at hscan
    refine ⟨?_, ?_, ?_⟩
    · rw [hscan]
      exact Steady.settle (s := { toState := w.state }) h.steady hend true
    · rw [hscan, hkept.left]
      exact h.left
    · rw [hscan, hkept.right]
      exact h.right
  · rw [autoshiftMatrixScan, if_neg hout] at hscan
    exact ⟨hscan ▸ h.steady, hscan ▸ h.left, hscan ▸ h.right⟩

theorem Held.press {keycode : Keycode} {tapCount : ℕ} {now : BitVec 16} (h : Held l w)
    (hscope : Event.InScope l (.key keycode true tapCount now)) :
    Held l (w.step cfg (.key keycode true tapCount now)) := by
  obtain ⟨hsteady, hkept, hkey, hidle⟩ := Steady.pressed cfg
    (s := Processing.call (.arrives keycode true w.state.enabled) { toState := w.state }) h.steady
    keycode now
  set r := AutoShift.pressed cfg keycode now
    (Processing.call (.arrives keycode true w.state.enabled) { toState := w.state }) with hr
  have hstep : (w.step cfg (.key keycode true tapCount now)).state =
      (if r.1 then
        AutoShift.processAction cfg keycode true tapCount (r.2.call (.passOn keycode true))
      else r.2).toState := rfl
  have hleft : r.2.leftShift = w.down l.left.keycode := hkept.left.trans h.left
  have hright : r.2.rightShift = w.down l.right.keycode := hkept.right.trans h.right
  cases hfurther : r.1 with
  | false =>
    obtain ⟨hnotLeft, hnotRight⟩ := (hkey hfurther).ne_shift l
    rw [hfurther, if_neg Bool.false_ne_true] at hstep
    refine ⟨?_, ?_, ?_⟩
    · rw [hstep]
      exact hsteady
    · rw [hstep, hleft]
      exact (Function.update_of_ne hnotLeft.symm ..).symm
    · rw [hstep, hright]
      exact (Function.update_of_ne hnotRight.symm ..).symm
  | true =>
    obtain ⟨hleft', hright'⟩ := shift_pressed hscope cfg (r.2.call (.passOn keycode true))
    rw [hfurther, if_pos rfl] at hstep
    refine ⟨?_, ?_, ?_⟩
    · rw [hstep]
      exact Steady.processAction (s := r.2.call (.passOn keycode true)) hsteady
        hscope.actionFor_ne fun _ => hidle hfurther
    · rw [hstep, hleft']
      change (r.2.leftShift || _) = Function.update w.down keycode true l.left.keycode
      rw [update_true, hleft]
    · rw [hstep, hright']
      change (r.2.rightShift || _) = Function.update w.down keycode true l.right.keycode
      rw [update_true, hright]

theorem Held.release {keycode : Keycode} {tapCount : ℕ} {now : BitVec 16} (h : Held l w)
    (hscope : Event.InScope l (.key keycode false tapCount now))
    (hok : (remembered cfg l).ok w (.key keycode false tapCount now)) :
    Held l (w.step cfg (.key keycode false tapCount now)) := by
  obtain ⟨hsteady, hkeptRight, hkeptLeft, hcancelling, hkey⟩ := Steady.released cfg
    (s := Processing.call (.arrives keycode false w.state.enabled) { toState := w.state }) h.steady
    keycode now fun hstill => (hok hstill).1
  set r := AutoShift.released cfg keycode now
    (Processing.call (.arrives keycode false w.state.enabled) { toState := w.state }) with hr
  have hstep : (w.step cfg (.key keycode false tapCount now)).state =
      (if r.1 then
        AutoShift.processAction cfg keycode false tapCount (r.2.call (.passOn keycode false))
      else r.2).toState := rfl
  have hright : r.2.rightShift = w.down l.right.keycode := hkeptRight.trans h.right
  cases hfurther : r.1 with
  | false =>
    obtain ⟨hnotLeft, hnotRight⟩ := (hkey hfurther).ne_shift l
    have hplain : keycode ≠ kcLsft := by
      rintro rfl
      exact absurd (hkey hfurther) (by decide)
    have hleft : r.2.leftShift = w.down l.left.keycode := (hkeptLeft hplain).trans h.left
    rw [hfurther, if_neg Bool.false_ne_true] at hstep
    refine ⟨?_, ?_, ?_⟩
    · rw [hstep]
      exact hsteady
    · rw [hstep, hleft]
      exact (Function.update_of_ne hnotLeft.symm ..).symm
    · rw [hstep, hright]
      exact (Function.update_of_ne hnotRight.symm ..).symm
  | true =>
    have hgone : keycode = l.left.keycode → r.2.cancellingLshift = false := by
      intro heq
      by_contra hstill
      have hnotShifted : ¬ GetAutoShiftedKey keycode := fun hshifted => (hshifted.ne_shift l).1 heq
      obtain ⟨hbefore, hplain⟩ := hcancelling hnotShifted (eq_true_of_ne_false hstill)
      exact hplain ((hok hbefore).2 heq)
    obtain ⟨hleft', hright'⟩ := shift_released hscope cfg (r.2.call (.passOn keycode false)) hgone
      hsteady.notRight
    rw [hfurther, if_pos rfl] at hstep
    refine ⟨?_, ?_, ?_⟩
    · rw [hstep]
      exact Steady.processAction (s := r.2.call (.passOn keycode false)) hsteady
        hscope.actionFor_ne fun hfalse => absurd hfalse Bool.false_ne_true
    · rw [hstep, hleft']
      change (r.2.leftShift && _) = Function.update w.down keycode false l.left.keycode
      rw [update_false]
      by_cases heq : keycode = l.left.keycode
      · rw [decide_eq_true heq, Bool.not_true, Bool.and_false, Bool.and_false]
      · have hplain : keycode ≠ kcLsft := by
          rintro rfl
          have haction : modsOf kcLsft tapCount = lshift := by
            rw [modsOf, actionFor, if_neg (by decide), if_pos (by decide)]
            rfl
          have hbit := hscope.bits.1
          rw [haction, decide_eq_false heq] at hbit
          exact Bool.noConfusion hbit
        rw [hkeptLeft hplain]
        exact congrArg (· && _) h.left
    · rw [hstep, hright']
      change (r.2.rightShift && _) = Function.update w.down keycode false l.right.keycode
      rw [update_false, hright]

theorem Held.step (h : Held l w) {e : Event} (hscope : e.InScope l)
    (hok : (remembered cfg l).ok w e) : Held l (w.step cfg e) := by
  match e with
  | .scan now => exact h.scan now
  | .key keycode true tapCount now => exact h.press hscope
  | .key keycode false tapCount now => exact h.release hscope hok

theorem Held.run (h : Held l w) {events : List Event} (hscope : ∀ e ∈ events, e.InScope l)
    (haccepts : (remembered cfg l).Accepts w events) : Held l (w.run cfg events) := by
  induction events generalizing w with
  | nil => exact h
  | cons e events ih =>
    exact ih (h.step (hscope e List.mem_cons_self) haccepts.1)
      (fun e' he' => hscope e' (List.mem_cons_of_mem _ he')) haccepts.2

/-- A shift that stays remembered as long as it is cancelled is given back. -/
theorem run_givesBack {events : List Event} (hscope : ∀ e ∈ events, e.InScope l)
    (haccepts : (remembered cfg l).Accepts (Watched.start cfg) events) :
    ∀ pre rest, events = pre ++ rest → GivesBack l ((Watched.start cfg).run cfg pre) := by
  rintro pre rest rfl
  have hpre := ((Monitor.accepts_append _ _ pre rest).mp haccepts).1
  exact ((held_start cfg l).run (fun e he => hscope e (List.mem_append_left _ he)) hpre).givesBack

section NoRepeat

variable {s : Processing} {keycode : Keycode} {now : BitVec 16}

structure NoneCancelled (s : State) : Prop where
  left : s.cancellingLshift = false
  right : s.cancellingRshift = false

theorem NoneCancelled.autoshiftEnd (h : NoneCancelled s.toState)
    (hrepeat : cfg.autoShiftRepeat = false) (keycode : Keycode) (now : BitVec 16)
    (trigger : Bool) : NoneCancelled (autoshiftEnd cfg keycode now trigger s).toState := by
  by_cases hend : s.inProgress ∧ (keycode = s.autoshiftLastkey ∨ keycode = 0)
  · have hnot : ¬ (cfg.autoShiftRepeat ∧ ¬ cfg.autoShiftNoAutoRepeat ∧ trigger) := by
      simp [hrepeat]
    exact ⟨(cancelling_autoshiftEnd hnot (Or.inl hend)).1,
      (cancelling_autoshiftEnd hnot (Or.inl hend)).2⟩
  · exact ⟨eq_false_of_ne_true
        (mt (cancelling_autoshiftEnd_other trigger hend).1 (ne_true_of_eq_false h.left)),
      eq_false_of_ne_true
        (mt (cancelling_autoshiftEnd_other trigger hend).2 (ne_true_of_eq_false h.right))⟩

theorem NoneCancelled.modeKey (h : NoneCancelled s.toState) (keycode : Keycode) :
    NoneCancelled (modeKey keycode s).toState := by
  obtain ⟨-, hleft, hright⟩ := modeKey_shift keycode s
  exact ⟨eq_false_of_ne_true (mt (fun hstill => (hleft hstill).1) (ne_true_of_eq_false h.left)),
    eq_false_of_ne_true (mt hright (ne_true_of_eq_false h.right))⟩

theorem NoneCancelled.pressed (h : NoneCancelled s.toState)
    (hrepeat : cfg.autoShiftRepeat = false) (keycode : Keycode) (now : BitVec 16) :
    NoneCancelled (pressed cfg keycode now s).2.toState := by
  have hsettled : NoneCancelled (s.settled cfg now).toState := by
    unfold Processing.settled
    split_ifs
    · exact h.autoshiftEnd hrepeat 0 now false
    · exact h
  by_cases hkey : GetAutoShiftedKey keycode
  · rw [pressed_autoShifted cfg now hkey]
    split_ifs
    · unfold AutoShift.autoshiftPress
      rw [if_neg (show ¬ (cfg.autoShiftRepeat ∧ _) by simp [hrepeat])]
      split_ifs <;> exact ⟨hsettled.left, hsettled.right⟩
    · exact hsettled
  · obtain ⟨last, hpassed⟩ := pressed_other cfg now hkey s
    rw [hpassed]
    exact ⟨(hsettled.modeKey keycode).left, (hsettled.modeKey keycode).right⟩

theorem NoneCancelled.released (h : NoneCancelled s.toState)
    (hrepeat : cfg.autoShiftRepeat = false) (keycode : Keycode) (now : BitVec 16) :
    NoneCancelled (released cfg keycode now s).2.toState := by
  by_cases hkey : GetAutoShiftedKey keycode
  · rw [released_autoShifted cfg now hkey]
    split_ifs
    · exact h.autoshiftEnd hrepeat keycode now false
    · exact h
  · rcases released_other cfg now hkey s with ⟨-, hr⟩ | ⟨-, hr⟩ | ⟨-, hr⟩ <;> rw [hr]
    · exact ⟨rfl, h.right⟩
    · exact ⟨h.left, rfl⟩
    · exact h

theorem NoneCancelled.processAction (h : NoneCancelled s.toState) (cfg : Config)
    (keycode : Keycode) (press : Bool) (tapCount : ℕ) :
    NoneCancelled (processAction cfg keycode press tapCount s).toState := by
  unfold AutoShift.processAction
  cases actionFor keycode tapCount with
  | mods mods => cases press <;> exact ⟨h.left, h.right⟩
  | _ => exact ⟨h.left, h.right⟩

theorem NoneCancelled.step {s : State} (h : NoneCancelled s)
    (hrepeat : cfg.autoShiftRepeat = false) (e : Event) :
    NoneCancelled (AutoShift.step cfg e s).toState := by
  match e with
  | .scan now =>
    change NoneCancelled (autoshiftMatrixScan cfg now { toState := s }).toState
    unfold autoshiftMatrixScan
    split_ifs
    · exact NoneCancelled.autoshiftEnd h hrepeat _ now true
    · exact h
  | .key keycode press tapCount now =>
    have hdone (r : Bool × Processing) (hr : NoneCancelled r.2.toState) :
        NoneCancelled ((if r.1 then AutoShift.processAction cfg keycode press tapCount
            (r.2.call (.passOn keycode press)) else r.2).call
          (.handled keycode press)).toState := by
      cases r.1 with
      | false => exact hr
      | true =>
        exact NoneCancelled.processAction (s := r.2.call (.passOn keycode press)) hr cfg keycode
          press tapCount
    have harrives : NoneCancelled
        (Processing.call (.arrives keycode press s.enabled) { toState := s }).toState := h
    cases press with
    | true => exact hdone _ (harrives.pressed hrepeat keycode now)
    | false => exact hdone _ (harrives.released hrepeat keycode now)

/-- Without `AUTO_SHIFT_REPEAT` no shift stays cancelled between two events. -/
theorem accepts_of_not_repeat (hrepeat : cfg.autoShiftRepeat = false) (l : Layout)
    (events : List Event) : (remembered cfg l).Accepts (Watched.start cfg) events := by
  have hinvariant : ∀ (w : Watched), NoneCancelled w.state →
      (remembered cfg l).Accepts w events := by
    induction events with
    | nil => exact fun _ _ => trivial
    | cons e events ih =>
      intro w hw
      exact ⟨fun hstill => absurd hstill (ne_true_of_eq_false hw.left),
        ih _ (NoneCancelled.step hw hrepeat e)⟩
  exact hinvariant _ ⟨rfl, rfl⟩

end NoRepeat

def repeating : Config := { autoShiftRepeat := true }

/-- The two plain shift keys. -/
def plainShifts : Layout := ⟨⟨kcLsft, Or.inl rfl⟩, ⟨kcRsft, Or.inl rfl⟩⟩

/-- With shift held, a key is held until it repeats, and released. -/
def heldUntilRepeat : List Event :=
  [.key kcLsft true 0 0, .key 0x04 true 0 0, .scan 175, .key 0x04 false 0 300]

theorem heldUntilRepeat_givesBack :
    ((Watched.start repeating).run repeating (heldUntilRepeat.take 3)).state.cancellingLshift =
      true ∧
    ∀ pre rest, heldUntilRepeat = pre ++ rest →
      GivesBack plainShifts ((Watched.start repeating).run repeating pre) := by
  have hscope : ∀ e ∈ heldUntilRepeat, e.InScope plainShifts := by
    simp [heldUntilRepeat, Event.InScope, plainShifts, IsBasic]
  exact ⟨rfl, run_givesBack hscope
    ⟨nofun, nofun, nofun, fun _ => ⟨fun _ _ => rfl, nofun⟩, trivial⟩⟩

/-- Another key is pressed while the key repeats. -/
def forgotten : List Event :=
  [.key kcLsft true 0 0, .key 0x04 true 0 0, .scan 175, .key 0x28 true 0 200, .key 0x04 false 0 300]

theorem forgotten_not_givesBack : ¬ ∀ events, Alternating (fun _ => false) events →
    (∀ e ∈ events, e.InScope plainShifts) → ∀ pre rest, events = pre ++ rest →
      GivesBack plainShifts ((Watched.start repeating).run repeating pre) := by
  intro h
  have halternating : Alternating (fun _ => false) forgotten :=
    ⟨rfl, rfl, trivial, rfl, rfl, trivial⟩
  have hscope : ∀ e ∈ forgotten, e.InScope plainShifts := by
    simp [forgotten, Event.InScope, plainShifts, IsBasic]
  have hend := h forgotten halternating hscope forgotten [] (List.append_nil _).symm
  have hnone : ∀ k, GetAutoShiftedKey k →
      ((Watched.start repeating).run repeating forgotten).down k = false := by
    rintro k hkey
    have hshift : k ≠ kcLsft := (hkey.ne_shift plainShifts).1
    have henter : k ≠ 0x28 := by
      rintro rfl
      exact absurd hkey (by decide)
    have hdown : k ≠ 0x04 → k ≠ 0x28 ∧ k ≠ 0x04 := fun hne => ⟨henter, hne⟩
    simpa [forgotten, Watched.run, Watched.step, Watched.start, downAfter, Function.update_apply,
      hshift] using hdown
  have hlost := (hend hnone).1.mpr rfl
  exact absurd rfl hlost

end Runs

end Qmk.AutoShift
