import Mathlib.Data.List.Induction
import Qmk.LayerState
import Qmk.Monitor

/-! # Layer lock

`layer_lock.c` with `process_layer_lock.c`, and the default actions of the layer
keys, which `process_action` runs when the lock lets an event through. Modifiers
and the codes of taps are left out: no layer depends on them. While no one-shot
layer is active, its state is clear and locking a layer has nothing to reset.
-/

namespace Qmk.LayerLock

/-- The keycodes that `process_layer_lock` tells apart, with the layer that they carry and, for a
layer-tap key, its tap keycode. -/
inductive LayerKey
  | momentary (layer : ℕ)
  | tapToggle (layer : ℕ)
  | layerMod (layer : ℕ)
  | layerTap (layer code : ℕ)
  | layerLock
  | other
  deriving DecidableEq, Repr

/-- The ranges of `keycodes.h`, with the accessors of `quantum_keycodes.h`. -/
def layerKey (keycode : UInt16) : LayerKey :=
  if keycode = 0x7C7B then .layerLock
  else if 0x5220 ≤ keycode ∧ keycode ≤ 0x523F then .momentary (keycode &&& 0x1F).toNat
  else if 0x52C0 ≤ keycode ∧ keycode ≤ 0x52DF then .tapToggle (keycode &&& 0x1F).toNat
  else if 0x5000 ≤ keycode ∧ keycode ≤ 0x51FF then .layerMod ((keycode >>> 5) &&& 0xF).toNat
  else if 0x4000 ≤ keycode ∧ keycode ≤ 0x4FFF then
    .layerTap ((keycode >>> 8) &&& 0xF).toNat (keycode &&& 0xFF).toNat
  else .other

/-- A press or a release of a key that stands for `keycode`, with its tap count. -/
structure Event where
  keycode : UInt16
  pressed : Bool
  count : ℕ := 0
  deriving DecidableEq, Repr

structure State (w : ℕ) where
  layerState : BitVec w := 0
  lockedLayers : BitVec w := 0
  deriving DecidableEq, Repr

variable {w : ℕ}

def isLayerLocked (layer : ℕ) (s : State w) : Bool := s.lockedLayers &&& bitMask w layer ≠ 0

def layerLockInvert (layer : ℕ) (s : State w) : State w where
  layerState :=
    if s.lockedLayers &&& bitMask w layer = 0 then layerOn layer s.layerState
    else layerOff layer s.layerState
  lockedLayers := s.lockedLayers ^^^ bitMask w layer

/-- `handle_mo_or_tt`; the result tells whether the default action follows. -/
def handleMoOrTt (layer : ℕ) (e : Event) (s : State w) : Bool × State w :=
  if isLayerLocked layer s then (false, if e.pressed then layerLockInvert layer s else s)
  else (true, s)

def unlockTurnedOff (s : State w) : State w :=
  if s.lockedLayers &&& ~~~s.layerState ≠ 0 then
    { s with lockedLayers := s.lockedLayers &&& s.layerState }
  else s

def processLayerLock (e : Event) (s : State w) : Bool × State w :=
  let s := unlockTurnedOff s
  match layerKey e.keycode with
  | .layerLock =>
    (false, if e.pressed then layerLockInvert (getHighestLayer s.layerState) s else s)
  | .momentary layer => handleMoOrTt layer e s
  | .tapToggle layer => handleMoOrTt layer e s
  | .layerMod layer =>
    if isLayerLocked layer s then (false, if e.pressed then layerLockInvert layer s else s)
    else (true, s)
  | .layerTap layer _ =>
    if e.count = 0 ∧ ¬ e.pressed ∧ isLayerLocked layer s then (false, s) else (true, s)
  | .other => (true, s)

section Action

/-- The kinds `ACT_LAYER_MODS` and `ACT_LAYER_TAP` of `action_t`; `code` is `layer_tap.code`. -/
inductive Action
  | layerMods (layer : ℕ)
  | layerTap (val code : ℕ)
  | other
  deriving DecidableEq, Repr

def opTapToggle : ℕ := 0xF0

def opOnOff : ℕ := 0xF1

def opOffOn : ℕ := 0xF2

def opSetClear : ℕ := 0xF3

def actionForKeycode (keycode : UInt16) : Action :=
  match layerKey keycode with
  | .layerTap layer code => .layerTap layer code
  | .momentary layer => .layerTap layer opOnOff
  | .tapToggle layer => .layerTap layer opTapToggle
  | .layerMod layer => .layerMods layer
  | .layerLock | .other => .other

variable (tappingToggle : ℕ)

def processAction (e : Event) (action : Action) (state : BitVec w) : BitVec w :=
  match action with
  | .layerMods layer => if e.pressed then layerOn layer state else layerOff layer state
  | .layerTap val code =>
    if code = opTapToggle then
      if e.pressed then if e.count < tappingToggle then layerInvert val state else state
      else if e.count ≤ tappingToggle then layerInvert val state else state
    else if code = opOnOff then if e.pressed then layerOn val state else layerOff val state
    else if code = opOffOn then if e.pressed then layerOff val state else layerOn val state
    else if code = opSetClear then if e.pressed then layerMove val state else 0
    else if 0 < e.count then state
    else if e.pressed then layerOn val state else layerOff val state
  | .other => state

def step (s : State w) (e : Event) : State w :=
  let r := processLayerLock e s
  if r.1 then
    { r.2 with layerState :=
        processAction tappingToggle e (actionForKeycode e.keycode) r.2.layerState }
  else r.2

def run (s : State w) (es : List Event) : State w := es.foldl (step tappingToggle) s

end Action

section Keys

/-- A key that holds or toggles a layer: `MO`, `TT`, `LM`, or `LT` with a basic keycode. -/
def LayerKey.layer? : LayerKey → Option ℕ
  | .momentary layer | .tapToggle layer | .layerMod layer => some layer
  | .layerTap layer code => if code < opTapToggle then some layer else none
  | .layerLock | .other => none

/-- The event is one of a layer key or of the lock key. -/
def Event.IsLayerEvent (e : Event) : Prop :=
  layerKey e.keycode = .layerLock ∨ ((layerKey e.keycode).layer?).isSome

instance (e : Event) : Decidable e.IsLayerEvent := inferInstanceAs (Decidable (_ ∨ _))

/-- A press of a key that unlocks layer `n` if it is locked. -/
def LayerKey.unlocks (n : ℕ) : LayerKey → Bool
  | .momentary layer | .tapToggle layer | .layerMod layer => layer = n
  | .layerTap .. | .layerLock | .other => false

/-- The event may unlock layer `n`: it presses an `MO`, `TT` or `LM` key of it, or the lock key
while it is the highest layer. -/
def Unlocks (n : ℕ) (s : State w) (e : Event) : Prop :=
  e.pressed = true ∧ ((layerKey e.keycode).unlocks n = true ∨
    layerKey e.keycode = .layerLock ∧ getHighestLayer s.layerState = n)

instance (n : ℕ) (s : State w) (e : Event) : Decidable (Unlocks n s e) :=
  inferInstanceAs (Decidable (_ ∧ _))

/-- The runs in which no event may unlock layer `n`. -/
def notUnlocked (tappingToggle n : ℕ) : Monitor Event (State w) where
  next := step tappingToggle
  ok s e := ¬ Unlocks n s e

end Keys

/-- Locked layers are on whenever `process_layer_lock` returns, and a layer that has been locked
stays locked and on until it is unlocked. -/
structure LocksStayOn (w tappingToggle : ℕ) (es : List Event) : Prop where
  returns : ∀ pre e post, es = pre ++ e :: post →
    let s := (processLayerLock e (run tappingToggle ({} : State w) pre)).2
    s.lockedLayers &&& ~~~s.layerState = 0
  stays : ∀ pre post n, es = pre ++ post →
    isLayerLocked n (run tappingToggle ({} : State w) pre) = true →
    (notUnlocked tappingToggle n).Accepts (run tappingToggle ({} : State w) pre) post →
    (run tappingToggle ({} : State w) es).layerState.getLsbD n = true ∧
      isLayerLocked n (run tappingToggle ({} : State w) es) = true

section Layers

variable {s : State w} {e : Event} {layer n tappingToggle : ℕ}

theorem and_layerMask_eq_zero (x : BitVec w) (layer : ℕ) :
    x &&& bitMask w layer = 0 ↔ x.getLsbD layer = false := by
  rcases Nat.lt_or_ge layer w with hw | hw
  · rw [← not_iff_not]
    simpa using and_bitMask_ne_zero hw x
  · have hzero : bitMask w layer = 0 := BitVec.shiftLeft_eq_zero hw
    rw [hzero, BitVec.getLsbD_of_ge x layer hw]
    simp

theorem isLayerLocked_eq : isLayerLocked layer s = s.lockedLayers.getLsbD layer := by
  rw [Bool.eq_iff_iff, isLayerLocked, decide_eq_true_iff, ne_eq, and_layerMask_eq_zero]
  simp

theorem layerLockInvert_on : (layerLockInvert layer s).layerState.getLsbD n =
    if n = layer then decide (n < w) && !s.lockedLayers.getLsbD n else s.layerState.getLsbD n := by
  simp only [layerLockInvert, and_layerMask_eq_zero]
  split_ifs with hlocked hn hn
  · subst hn
    rw [getLsbD_layerOn, hlocked]
    by_cases hw : n < w
    · simp [hw]
    · simp [hw, BitVec.getLsbD_of_ge _ n (Nat.le_of_not_lt hw)]
  · rw [getLsbD_layerOn]
    simp [hn]
  · subst hn
    rw [getLsbD_layerOff]
    simpa using fun _ => hlocked
  · rw [getLsbD_layerOff]
    simp [hn]

theorem layerLockInvert_locked : (layerLockInvert layer s).lockedLayers.getLsbD n =
    if n = layer then decide (n < w) && !s.lockedLayers.getLsbD n
    else s.lockedLayers.getLsbD n := by
  simp only [layerLockInvert, BitVec.getLsbD_xor, getLsbD_layerMask]
  split_ifs with hn
  · subst hn
    by_cases hw : n < w
    · simp [hw]
    · simp [hw, BitVec.getLsbD_of_ge _ n (Nat.le_of_not_lt hw)]
  · simp [hn]

def Covered (s : State w) : Prop :=
  ∀ n, s.lockedLayers.getLsbD n = true → s.layerState.getLsbD n = true

theorem covered_iff : Covered s ↔ s.lockedLayers &&& ~~~s.layerState = 0 := by
  constructor
  · intro h
    refine BitVec.eq_of_getLsbD_eq fun n hn => ?_
    have := h n
    grind
  · intro h n hn
    have := congrArg (BitVec.getLsbD · n) h
    have hw := BitVec.lt_of_getLsbD hn
    grind

theorem unlockTurnedOff_of_covered (h : Covered s) : unlockTurnedOff s = s :=
  if_neg (not_not.mpr (covered_iff.mp h))

theorem covered_unlockTurnedOff (s : State w) : Covered (unlockTurnedOff s) := by
  simp only [unlockTurnedOff]
  split_ifs with h
  · intro n hn
    simp only [BitVec.getLsbD_and, Bool.and_eq_true] at hn
    exact hn.2
  · exact covered_iff.mpr (not_not.mp h)

theorem Covered.layerLockInvert (h : Covered s) (layer : ℕ) :
    Covered (layerLockInvert layer s) := by
  intro n hn
  rw [layerLockInvert_on]
  rw [layerLockInvert_locked] at hn
  split_ifs at hn ⊢
  · exact hn
  · exact h n hn

end Layers

section Steps

variable (tappingToggle : ℕ) {s : State w} {e : Event} {n : ℕ}

theorem covered_processLayerLock (e : Event) (s : State w) : Covered (processLayerLock e s).2 := by
  have h := covered_unlockTurnedOff s
  simp only [processLayerLock, handleMoOrTt]
  cases layerKey e.keycode with
  | layerLock =>
    split_ifs
    · exact h.layerLockInvert _
    · exact h
  | momentary layer | tapToggle layer | layerMod layer =>
    dsimp only
    split_ifs
    · exact h.layerLockInvert _
    · exact h
    · exact h
  | layerTap layer code =>
    dsimp only
    split_ifs <;> exact h
  | other => exact h

theorem processLayerLock_locked (h : Covered s) (hn : s.lockedLayers.getLsbD n = true)
    (hnot : ¬ Unlocks n s e) : (processLayerLock e s).2.lockedLayers.getLsbD n = true := by
  have hinvert (layer : ℕ) (hne : n ≠ layer) :
      (layerLockInvert layer s).lockedLayers.getLsbD n = true := by
    rw [layerLockInvert_locked, if_neg hne]
    exact hn
  simp only [processLayerLock, handleMoOrTt, unlockTurnedOff_of_covered h, Unlocks,
    LayerKey.unlocks] at hnot ⊢
  cases hkey : layerKey e.keycode with
  | layerLock =>
    simp only [hkey, Bool.false_eq_true, false_or, true_and] at hnot ⊢
    split_ifs with hp
    · exact hinvert _ fun hne => hnot ⟨hp, hne.symm⟩
    · exact hn
  | momentary layer | tapToggle layer | layerMod layer =>
    simp only [hkey, decide_eq_true_eq, reduceCtorEq, false_and, or_false] at hnot ⊢
    split_ifs with hlocked hp
    · exact hinvert _ fun hne => hnot ⟨hp, hne.symm⟩
    · exact hn
    · exact hn
  | layerTap layer code =>
    dsimp only
    split_ifs <;> exact hn
  | other => exact hn

theorem processLayerLock_through (hkey : e.IsLayerEvent)
    (hthrough : (processLayerLock e s).1 = true) : ∃ layer,
      (layerKey e.keycode).layer? = some layer ∧ (processLayerLock e s).2 = unlockTurnedOff s ∧
      (isLayerLocked layer (unlockTurnedOff s) = true →
        (∃ code, layerKey e.keycode = .layerTap layer code) ∧
          (e.pressed = true ∨ 0 < e.count)) := by
  simp only [Event.IsLayerEvent] at hkey
  simp only [processLayerLock, handleMoOrTt] at hthrough ⊢
  cases hk : layerKey e.keycode with
  | layerLock => simp [hk] at hthrough
  | other => simp [hk, LayerKey.layer?] at hkey
  | momentary layer | tapToggle layer | layerMod layer =>
    simp only [hk] at hthrough ⊢
    split_ifs at hthrough ⊢ with hlocked
    exact ⟨layer, rfl, rfl, fun h => absurd h hlocked⟩
  | layerTap layer code =>
    simp only [hk, LayerKey.layer?, reduceCtorEq, false_or] at hkey hthrough ⊢
    split_ifs at hkey hthrough ⊢ with hcode hlocked
    · refine ⟨layer, rfl, rfl, fun h => ⟨⟨code, rfl⟩, ?_⟩⟩
      by_contra hnot
      rw [not_or] at hnot
      exact hlocked ⟨by omega, hnot.1, h⟩
    · cases hkey

theorem processAction_tapKey {layer code : ℕ} (hcode : code < opTapToggle) (state : BitVec w) :
    processAction tappingToggle e (.layerTap layer code) state = if 0 < e.count then state
      else if e.pressed then layerOn layer state else layerOff layer state := by
  have hops : code ≠ opTapToggle ∧ code ≠ opOnOff ∧ code ≠ opOffOn ∧ code ≠ opSetClear := by
    simp only [opTapToggle, opOnOff, opOffOn, opSetClear] at hcode ⊢
    omega
  simp only [processAction, hops, if_false]

theorem processAction_other {layer : ℕ} (hlayer : (layerKey e.keycode).layer? = some layer)
    (hn : n ≠ layer) (state : BitVec w) :
    (processAction tappingToggle e (actionForKeycode e.keycode) state).getLsbD n =
      state.getLsbD n := by
  have hon : (layerOn layer state).getLsbD n = state.getLsbD n := by
    simp [getLsbD_layerOn, hn]
  have hoff : (layerOff layer state).getLsbD n = state.getLsbD n := by
    simp [getLsbD_layerOff, hn]
  have hinvert : (layerInvert layer state).getLsbD n = state.getLsbD n := by
    simp [getLsbD_layerInvert, hn]
  simp only [actionForKeycode]
  cases hk : layerKey e.keycode with
  | layerLock | other => simp [hk, LayerKey.layer?] at hlayer
  | momentary layer' | layerMod layer' =>
    cases Option.some.inj (hk ▸ hlayer)
    simp only [processAction, opOnOff, opTapToggle]
    split_ifs <;> first | exact hon | exact hoff | contradiction
  | tapToggle layer' =>
    cases Option.some.inj (hk ▸ hlayer)
    simp only [processAction, if_true]
    split_ifs <;> first | exact hinvert | rfl
  | layerTap layer' code =>
    simp only [hk, LayerKey.layer?, Option.ite_none_right_eq_some, Option.some.injEq] at hlayer
    obtain ⟨hcode, rfl⟩ := hlayer
    simp only [processAction_tapKey _ hcode]
    split_ifs <;> first | exact hon | exact hoff | rfl

/-- A layer-tap key turns its layer off only when it is released without having been tapped. -/
theorem processAction_layerTap {layer code : ℕ} (hk : layerKey e.keycode = .layerTap layer code)
    (hcode : code < opTapToggle) (he : e.pressed = true ∨ 0 < e.count) {state : BitVec w}
    (hon : state.getLsbD n = true) :
    (processAction tappingToggle e (actionForKeycode e.keycode) state).getLsbD n = true := by
  simp only [actionForKeycode, hk, processAction_tapKey _ hcode]
  split_ifs with hcount hp
  · exact hon
  · rw [getLsbD_layerOn, hon, Bool.true_or]
  · exact absurd he (by simp [hp, hcount])

/-- No default action that the lock lets through turns a locked layer off. -/
theorem covered_step (hkey : e.IsLayerEvent) : Covered (step tappingToggle s e) := by
  have hcovered := covered_processLayerLock e s
  simp only [step]
  split_ifs with hthrough
  · obtain ⟨layer, hlayer, hsame, htap⟩ := processLayerLock_through hkey hthrough
    intro n hn
    have hon := hcovered n hn
    rcases eq_or_ne n layer with rfl | hne
    · have hlocked : isLayerLocked n (unlockTurnedOff s) = true := by
        rw [isLayerLocked_eq, ← hsame]
        exact hn
      obtain ⟨⟨code, hk⟩, he⟩ := htap hlocked
      have hcode : code < opTapToggle := by
        by_contra hcode
        simp [hk, LayerKey.layer?, hcode] at hlayer
      exact processAction_layerTap _ hk hcode he hon
    · exact (processAction_other _ hlayer hne _).trans hon
  · exact hcovered

theorem step_lockedLayers :
    (step tappingToggle s e).lockedLayers = (processLayerLock e s).2.lockedLayers := by
  simp only [step]
  split_ifs <;> rfl

theorem covered_run {es : List Event} (hkeys : ∀ e ∈ es, e.IsLayerEvent) :
    Covered (run tappingToggle ({} : State w) es) := by
  induction es using List.reverseRecOn with
  | nil => exact fun n hn => absurd hn (by simp [run])
  | append_singleton es e =>
    rw [run, List.foldl_append]
    exact covered_step _ (hkeys e (by simp))

theorem locked_run (hs : Covered s) (hn : s.lockedLayers.getLsbD n = true) {es : List Event}
    (hkeys : ∀ e ∈ es, e.IsLayerEvent) (hnot : (notUnlocked tappingToggle n).Accepts s es) :
    (run tappingToggle s es).lockedLayers.getLsbD n = true := by
  induction es generalizing s with
  | nil => exact hn
  | cons e es ih =>
    refine ih (covered_step _ (hkeys e List.mem_cons_self)) ?_
      (fun x hx => hkeys x (List.mem_cons_of_mem _ hx)) hnot.2
    rw [step_lockedLayers]
    exact processLayerLock_locked hs hn hnot.1

end Steps

/-- In every run of layer keys and the lock key, locked layers are on, and stay on and locked until
they are unlocked. -/
theorem locks_stay_on (w tappingToggle : ℕ) (es : List Event)
    (hkeys : ∀ e ∈ es, e.IsLayerEvent) : LocksStayOn w tappingToggle es := by
  constructor
  · rintro pre e post -
    exact covered_iff.mp (covered_processLayerLock e _)
  · rintro pre post n rfl hlocked hnot
    rw [isLayerLocked_eq] at hlocked
    have hpre : Covered (run tappingToggle ({} : State w) pre) :=
      covered_run _ fun e he => hkeys e (List.mem_append_left _ he)
    have hn := locked_run _ hpre hlocked (fun e he => hkeys e (List.mem_append_right _ he)) hnot
    have hrun : run tappingToggle ({} : State w) (pre ++ post) =
        run tappingToggle (run tappingToggle {} pre) post := List.foldl_append
    rw [← hrun] at hn
    exact ⟨covered_run _ hkeys n hn, isLayerLocked_eq.trans hn⟩

/-- Layer 1 is locked while `MO(1)` is held. -/
def lockHeldLayer : List Event :=
  [⟨0x5221, true, 0⟩, ⟨0x7C7B, true, 0⟩, ⟨0x7C7B, false, 0⟩, ⟨0x5221, false, 0⟩]

theorem locks_stay_on_held : isLayerLocked 1 (run 5 ({} : State 16) lockHeldLayer) = true ∧
    LocksStayOn 16 5 lockHeldLayer :=
  ⟨by decide, locks_stay_on 16 5 lockHeldLayer (by decide)⟩

/-- Layer `n` is neither locked nor on. -/
def IsOff (n : ℕ) (s : State w) : Prop :=
  isLayerLocked n s = false ∧ s.layerState.getLsbD n = false

instance (n : ℕ) (s : State w) : Decidable (IsOff n s) := inferInstanceAs (Decidable (_ ∧ _))

section Unlocking

variable (tappingToggle : ℕ) {s : State w} {e : Event} {n m : ℕ}

theorem unlockTurnedOff_layerState : (unlockTurnedOff s).layerState = s.layerState := by
  simp only [unlockTurnedOff]
  split_ifs <;> rfl

theorem step_other (hlayer : (layerKey e.keycode).layer? = some m) (hn : n ≠ m) :
    (step tappingToggle s e).layerState.getLsbD n = s.layerState.getLsbD n := by
  have hlock : (processLayerLock e s).2.layerState.getLsbD n = s.layerState.getLsbD n := by
    simp only [processLayerLock, handleMoOrTt]
    cases hk : layerKey e.keycode with
    | layerLock | other => simp [hk, LayerKey.layer?] at hlayer
    | momentary layer | tapToggle layer | layerMod layer =>
      cases Option.some.inj (hk ▸ hlayer)
      dsimp only
      cases isLayerLocked m (unlockTurnedOff s) <;> cases e.pressed <;>
        simp [layerLockInvert_on, unlockTurnedOff_layerState, hn]
    | layerTap layer code =>
      dsimp only
      split_ifs <;> rw [unlockTurnedOff_layerState]
  simp only [step]
  split_ifs
  · exact (processAction_other _ hlayer hn _).trans hlock
  · exact hlock

theorem run_other {es : List Event}
    (hother : ∀ e ∈ es, ∃ m, (layerKey e.keycode).layer? = some m ∧ n ≠ m) :
    (run tappingToggle s es).layerState.getLsbD n = s.layerState.getLsbD n := by
  induction es generalizing s with
  | nil => rfl
  | cons e es ih =>
    obtain ⟨m, hm, hn⟩ := hother e List.mem_cons_self
    exact (ih fun x hx => hother x (List.mem_cons_of_mem _ hx)).trans (step_other _ hm hn)

theorem step_press (hs : Covered s) (hn : s.lockedLayers.getLsbD n = true)
    (hkey : (layerKey e.keycode).unlocks n = true) (hp : e.pressed = true) :
    (step tappingToggle s e).layerState.getLsbD n = false := by
  have hlocked : isLayerLocked n s = true := isLayerLocked_eq.trans hn
  have hstep : step tappingToggle s e = layerLockInvert n s := by
    simp only [step, processLayerLock, handleMoOrTt, unlockTurnedOff_of_covered hs]
    cases hk : layerKey e.keycode with
    | layerLock | other | layerTap => simp [hk, LayerKey.unlocks] at hkey
    | momentary layer | tapToggle layer | layerMod layer =>
      have hlayer : layer = n := by simpa [hk, LayerKey.unlocks] using hkey
      simp [hlayer, hlocked, hp]
  rw [hstep, layerLockInvert_on, if_pos rfl, hn]
  simp

/-- The release of a layer key whose layer is off turns it on again if the key toggles its layer
for that tap count. -/
theorem step_release (hs : Covered s) (hw : n < w) (hn : s.layerState.getLsbD n = false)
    (hkey : (layerKey e.keycode).unlocks n = true) (hp : e.pressed = false) :
    (step tappingToggle s e).layerState.getLsbD n =
      decide (layerKey e.keycode = .tapToggle n ∧ e.count ≤ tappingToggle) := by
  have hlocked : isLayerLocked n s = false := by
    rw [isLayerLocked_eq, ← Bool.not_eq_true]
    exact fun h => absurd (hs n h) (by simp [hn])
  simp only [step, processLayerLock, handleMoOrTt, unlockTurnedOff_of_covered hs,
    actionForKeycode, processAction]
  cases hk : layerKey e.keycode with
  | layerLock | other | layerTap => simp [hk, LayerKey.unlocks] at hkey
  | momentary layer | layerMod layer =>
    have hlayer : layer = n := by simpa [hk, LayerKey.unlocks] using hkey
    subst hlayer
    simp [hlocked, hp, opOnOff, opTapToggle, getLsbD_layerOff]
  | tapToggle layer =>
    have hlayer : layer = n := by simpa [hk, LayerKey.unlocks] using hkey
    subst hlayer
    have hinvert : (layerInvert layer s.layerState).getLsbD layer = true := by
      rw [getLsbD_layerInvert, hn]
      simpa using hw
    by_cases hcount : e.count ≤ tappingToggle
    · simpa [hlocked, hp, hcount] using hinvert
    · simpa [hlocked, hp, hcount] using hn

theorem step_release_isOff (hs : Covered s) (hw : n < w) (hn : s.layerState.getLsbD n = false)
    (hkey : (layerKey e.keycode).unlocks n = true) (he : e.IsLayerEvent) (hp : e.pressed = false) :
    IsOff n (step tappingToggle s e) ↔
      (layerKey e.keycode = .tapToggle n → tappingToggle < e.count) := by
  have hbit := step_release tappingToggle hs hw hn hkey hp
  have hcovered := covered_step tappingToggle (s := s) he
  constructor
  · rintro ⟨-, hoff⟩ htoggle
    simpa [hbit, htoggle] using hoff
  · intro hcount
    have hoff : (step tappingToggle s e).layerState.getLsbD n = false := by
      rw [hbit]
      exact decide_eq_false fun htoggle => absurd (hcount htoggle.1) (Nat.not_lt.mpr htoggle.2)
    refine ⟨?_, hoff⟩
    rw [isLayerLocked_eq, ← Bool.not_eq_true]
    intro hlocked
    rw [hcovered n hlocked] at hoff
    cases hoff

end Unlocking

/-- Pressing and releasing an `MO`, `TT` or `LM` key of a locked layer turns it off, unless the key
is a `TT` key that toggles its layer when it is released. -/
theorem layer_key_turns_off_iff (tappingToggle n : ℕ) (before between : List Event)
    (keycode : UInt16) (down up : ℕ) (hbefore : ∀ e ∈ before, e.IsLayerEvent)
    (hlocked : isLayerLocked n (run tappingToggle ({} : State w) before) = true)
    (hkey : (layerKey keycode).unlocks n = true)
    (hother : ∀ e ∈ between, ∃ m, (layerKey e.keycode).layer? = some m ∧ n ≠ m) :
    IsOff n (run tappingToggle ({} : State w)
      (before ++ ⟨keycode, true, down⟩ :: between ++ [⟨keycode, false, up⟩])) ↔
      (layerKey keycode = .tapToggle n → tappingToggle < up) := by
  have hevent (e : Event) (he : e.keycode = keycode) : e.IsLayerEvent := by
    right
    rw [he]
    cases hk : layerKey keycode <;> simp_all [LayerKey.unlocks, LayerKey.layer?]
  have hkeys : ∀ e ∈ before ++ ⟨keycode, true, down⟩ :: between, e.IsLayerEvent := by
    intro e he
    rcases List.mem_append.mp he with he | he
    · exact hbefore e he
    · rcases List.mem_cons.mp he with rfl | he
      · exact hevent _ rfl
      · obtain ⟨m, hm, -⟩ := hother e he
        exact Or.inr (by simp [hm])
  rw [isLayerLocked_eq] at hlocked
  have hoff : (run tappingToggle ({} : State w)
      (before ++ ⟨keycode, true, down⟩ :: between)).layerState.getLsbD n = false := by
    rw [run, List.foldl_append, List.foldl_cons]
    exact (run_other _ hother).trans
      (step_press _ (covered_run _ hbefore) hlocked hkey rfl)
  rw [run, List.foldl_append]
  exact step_release_isOff _ (covered_run _ hkeys) (BitVec.lt_of_getLsbD hlocked) hoff hkey
    (hevent _ rfl) rfl

theorem layer_key_turns_off_momentary :
    isLayerLocked 1 (run 5 ({} : State 16) lockHeldLayer) = true ∧
      IsOff 1 (run 5 ({} : State 16) (lockHeldLayer ++
        ⟨0x5221, true, 0⟩ :: [⟨0x5222, true, 0⟩] ++ [⟨0x5221, false, 0⟩])) :=
  ⟨by decide, (layer_key_turns_off_iff 5 1 lockHeldLayer [⟨0x5222, true, 0⟩] 0x5221 0 0 (by decide)
    (by decide) (by decide) (by decide)).mpr (by decide)⟩

/-- A tap of `TT(1)` leaves the layer on: its press unlocks the layer and turns it off, and its
release toggles it. -/
theorem tap_toggle_leaves_layer_on :
    (∀ e ∈ lockHeldLayer, e.IsLayerEvent) ∧
      isLayerLocked 1 (run 5 ({} : State 16) lockHeldLayer) = true ∧
      (layerKey 0x52C1).unlocks 1 = true ∧
      ¬ IsOff 1 (run 5 ({} : State 16)
        (lockHeldLayer ++ ⟨0x52C1, true, 1⟩ :: [] ++ [⟨0x52C1, false, 1⟩])) :=
  ⟨by decide, by decide, by decide, by decide⟩

end Qmk.LayerLock
