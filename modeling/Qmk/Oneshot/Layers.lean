import Qmk.LayerState
import Qmk.Monitor

/-! # One-shot layers

The one-shot layer of `action_util.c` and what `process_action` does with it for one-shot layer
keys and for basic keys, with one-shot enabled and without a timeout. One byte holds the layer and
the state of the one key that counts.
-/

namespace Qmk.Oneshot

/-- The build: `ONESHOT_TAP_TOGGLE`, which has no effect up to 1. -/
structure Config where
  tapToggle : ℕ := 0

def Config.Toggles (cfg : Config) : Prop := 1 < cfg.tapToggle

instance (cfg : Config) : Decidable cfg.Toggles := inferInstanceAs (Decidable (_ < _))

structure Layers (w : ℕ) where
  oneshotLayerData : BitVec 8 := 0
  layerState : BitVec w := 0
  deriving DecidableEq, Repr

def oneshotPressed : BitVec 8 := 0b01

def oneshotOtherKeyPressed : BitVec 8 := 0b10

def oneshotStart : BitVec 8 := 0b11

def oneshotToggled : BitVec 8 := 0b100

/-- The action of a key: `OSL` of a layer with the tap count of the record, or a basic keycode. -/
inductive Action
  | osl (layer : BitVec 5) (tapCount : ℕ)
  | basic
  deriving DecidableEq, Repr

variable {w : ℕ}

section ActionUtil

def getOneshotLayer (s : Layers w) : ℕ := (s.oneshotLayerData >>> 3).toNat

def getOneshotLayerState (s : Layers w) : BitVec 8 := s.oneshotLayerData &&& 0b111

def IsOneshotLayerActive (s : Layers w) : Prop := getOneshotLayerState s ≠ 0

instance (s : Layers w) : Decidable (IsOneshotLayerActive s) := inferInstanceAs (Decidable (_ ≠ _))

def Layers.on (layer : ℕ) (s : Layers w) : Layers w :=
  { s with layerState := layerOn layer s.layerState }

def Layers.off (layer : ℕ) (s : Layers w) : Layers w :=
  { s with layerState := layerOff layer s.layerState }

def setOneshotLayer (layer : BitVec 5) (state : BitVec 8) (s : Layers w) : Layers w :=
  Layers.on layer.toNat { s with oneshotLayerData := layer.setWidth 8 <<< 3 ||| state }

def resetOneshotLayer (s : Layers w) : Layers w := { s with oneshotLayerData := 0 }

def clearOneshotLayerState (state : BitVec 8) (s : Layers w) : Layers w :=
  let startState := s.oneshotLayerData
  let s := { s with oneshotLayerData := s.oneshotLayerData &&& ~~~state }
  if ¬ IsOneshotLayerActive s ∧ startState ≠ s.oneshotLayerData then
    resetOneshotLayer (s.off (getOneshotLayer s))
  else s

end ActionUtil

section ProcessAction

variable (cfg : Config)

/-- The branch for `OP_ONESHOT` of a press. -/
def oslPressed (layer : BitVec 5) (tapCount : ℕ) (s : Layers w) : Layers w :=
  if cfg.Toggles then
    if getOneshotLayerState s = oneshotToggled then (resetOneshotLayer s).off layer.toNat
    else if tapCount < cfg.tapToggle then setOneshotLayer layer oneshotStart s
    else s
  else setOneshotLayer layer oneshotStart s

/-- The branch for `OP_ONESHOT` of a release. -/
def oslReleased (layer : BitVec 5) (tapCount : ℕ) (s : Layers w) : Layers w :=
  if cfg.Toggles then
    if cfg.tapToggle ≤ tapCount then setOneshotLayer layer oneshotToggled (resetOneshotLayer s)
    else clearOneshotLayerState oneshotPressed s
  else
    let s := clearOneshotLayerState oneshotPressed s
    if 1 < tapCount then clearOneshotLayerState oneshotOtherKeyPressed s else s

def released (a : Action) (s : Layers w) : Layers w :=
  match a with
  | .osl layer tapCount => oslReleased cfg layer tapCount s
  | .basic => s

/-- The release that ends a one-shot layer in `process_action`. -/
def releaseOneshot (a : Action) (s : Layers w) : Layers w :=
  if getOneshotLayerState s &&& oneshotPressed = 0 then
    let s := released cfg a (s.on (getOneshotLayer s))
    s.off (getOneshotLayer s)
  else s

/-- The start of a press: an active one-shot layer has been used. -/
def used (s : Layers w) : Layers w :=
  if IsOneshotLayerActive s then clearOneshotLayerState oneshotOtherKeyPressed s else s

/-- `process_action` of a press. -/
def pressed (a : Action) (s : Layers w) : Layers w :=
  let t := used s
  let doReleaseOneshot := IsOneshotLayerActive s ∧ ¬ IsOneshotLayerActive t
  match a with
  | .osl layer tapCount =>
    let u := oslPressed cfg layer tapCount t
    if doReleaseOneshot ∧ ¬ cfg.Toggles then releaseOneshot cfg a u else u
  | .basic => if doReleaseOneshot then releaseOneshot cfg a t else t

structure Event where
  key : ℕ
  action : Action
  pressed : Bool
  deriving DecidableEq, Repr

def processAction (e : Event) (s : Layers w) : Layers w :=
  if e.pressed then pressed cfg e.action s else released cfg e.action s

structure Watched (w : ℕ) where
  down : ℕ → Option Action := fun _ => none
  layers : Layers w

def Watched.step (s : Watched w) (e : Event) : Watched w where
  down := Function.update s.down e.key (if e.pressed then some e.action else none)
  layers := processAction cfg e s.layers

def run (s : Watched w) (events : List Event) : Watched w := events.foldl (Watched.step cfg) s

/-- No one-shot layer is active and no key is down. -/
def start (layers : BitVec w) : Watched w := { layers := { layerState := layers } }

end ProcessAction

section Specification

variable (cfg : Config)

/-- Each key alternates, and a release has the action and the tap count of its press. -/
def alternating : Monitor Event (Watched w) where
  next := Watched.step cfg
  ok s e := s.down e.key = if e.pressed then none else some e.action

/-- With no one-shot layer key down and none active the layers are those of the start. -/
def Restored (layers : BitVec w) (s : Watched w) : Prop :=
  (∀ key layer tapCount, s.down key ≠ some (.osl layer tapCount)) →
    ¬ IsOneshotLayerActive s.layers →
    ∀ k, k ≠ 0 → s.layers.layerState.getLsbD k = layers.getLsbD k

/-- `layer` is free for a one-shot key: it is off, or it is the one-shot layer. -/
def Free (layer : BitVec 5) (s : Layers w) : Prop :=
  s.layerState.getLsbD layer.toNat = true →
    IsOneshotLayerActive s ∧ getOneshotLayer s = layer.toNat

/-- The runs in which a one-shot key that takes over the byte finds no other layer in it that is
still held or toggled, and finds its own layer off unless it is the one-shot layer. -/
def separate : Monitor Event (Watched w) where
  next := Watched.step cfg
  ok s e :=
    match e.action with
    | .basic => True
    | .osl layer tapCount =>
      if e.pressed then
        if cfg.Toggles ∧ getOneshotLayerState s.layers = oneshotToggled then
          getOneshotLayer s.layers = layer.toNat
        else ¬ cfg.Toggles ∨ tapCount < cfg.tapToggle →
          (getOneshotLayerState s.layers &&& oneshotPressed ≠ 0 →
            getOneshotLayer s.layers = layer.toNat) ∧ Free layer s.layers
      else cfg.Toggles ∧ cfg.tapToggle ≤ tapCount →
        (IsOneshotLayerActive s.layers → getOneshotLayer s.layers = layer.toNat) ∧
          Free layer s.layers

instance (layer : BitVec 5) (s : Layers w) : Decidable (Free layer s) :=
  inferInstanceAs (Decidable (_ → _))

instance (s : Watched w) (e : Event) : Decidable ((alternating cfg).ok s e) :=
  inferInstanceAs (Decidable (_ = _))

instance (s : Watched w) : ∀ e, Decidable ((separate cfg).ok s e)
  | ⟨_, .basic, _⟩ => isTrue trivial
  | ⟨_, .osl layer tapCount, true⟩ => inferInstanceAs (Decidable (if
      cfg.Toggles ∧ getOneshotLayerState s.layers = oneshotToggled then
        getOneshotLayer s.layers = layer.toNat
      else ¬ cfg.Toggles ∨ tapCount < cfg.tapToggle →
        (getOneshotLayerState s.layers &&& oneshotPressed ≠ 0 →
          getOneshotLayer s.layers = layer.toNat) ∧ Free layer s.layers))
  | ⟨_, .osl _ _, false⟩ => inferInstanceAs (Decidable (_ → _ ∧ _))

end Specification

section Bytes

/-- The two states that a key or another key takes away. -/
def IsMask (state : BitVec 8) : Prop := state = oneshotPressed ∨ state = oneshotOtherKeyPressed

theorem clear_shiftRight {state : BitVec 8} (h : IsMask state) (data : BitVec 8) :
    (data &&& ~~~state) >>> 3 = data >>> 3 := by
  rcases h with rfl | rfl
  · exact (by decide : ∀ data : BitVec 8, (data &&& ~~~oneshotPressed) >>> 3 = data >>> 3) data
  · exact (by decide : ∀ data : BitVec 8,
      (data &&& ~~~oneshotOtherKeyPressed) >>> 3 = data >>> 3) data

theorem state_of_clear_ne {state : BitVec 8} (h : IsMask state) {data : BitVec 8}
    (hne : data ≠ data &&& ~~~state) : data &&& 0b111 ≠ 0 := by
  rcases h with rfl | rfl
  · exact (by decide : ∀ data : BitVec 8, data ≠ data &&& ~~~oneshotPressed →
      data &&& 0b111 ≠ 0) data hne
  · exact (by decide : ∀ data : BitVec 8, data ≠ data &&& ~~~oneshotOtherKeyPressed →
      data &&& 0b111 ≠ 0) data hne

theorem and_clear (state data : BitVec 8) :
    data &&& ~~~state &&& 0b111 = data &&& 0b111 &&& ~~~state := by
  rw [BitVec.and_assoc, BitVec.and_comm (~~~state), ← BitVec.and_assoc]

theorem pack_shiftRight (layer : BitVec 5) {state : BitVec 8}
    (h : state = oneshotStart ∨ state = oneshotToggled) :
    ((layer.setWidth 8 <<< 3 ||| state) >>> 3).toNat = layer.toNat := by
  rcases h with rfl | rfl
  · exact (by decide : ∀ layer : BitVec 5,
      ((layer.setWidth 8 <<< 3 ||| oneshotStart) >>> 3).toNat = layer.toNat) layer
  · exact (by decide : ∀ layer : BitVec 5,
      ((layer.setWidth 8 <<< 3 ||| oneshotToggled) >>> 3).toNat = layer.toNat) layer

theorem pack_and (layer : BitVec 5) {state : BitVec 8}
    (h : state = oneshotStart ∨ state = oneshotToggled) :
    (layer.setWidth 8 <<< 3 ||| state) &&& 0b111 = state := by
  rcases h with rfl | rfl
  · exact (by decide : ∀ layer : BitVec 5,
      (layer.setWidth 8 <<< 3 ||| oneshotStart) &&& 0b111 = oneshotStart) layer
  · exact (by decide : ∀ layer : BitVec 5,
      (layer.setWidth 8 <<< 3 ||| oneshotToggled) &&& 0b111 = oneshotToggled) layer

end Bytes

section Functions

variable {s : Layers w} {state : BitVec 8}

/-- What `clear_oneshot_layer_state` does: it takes the state away and, if nothing is left of it,
ends the one-shot layer. -/
inductive Cleared (state : BitVec 8) (s t : Layers w) : Prop
  | kept (hlayer : getOneshotLayer t = getOneshotLayer s) (hbits : t.layerState = s.layerState)
      (hstate : getOneshotLayerState t = getOneshotLayerState s &&& ~~~state)
      (hactive : IsOneshotLayerActive t ↔ IsOneshotLayerActive s)
  | ended (heq : t = resetOneshotLayer (s.off (getOneshotLayer s)))
      (hactive : IsOneshotLayerActive s) (hstate : getOneshotLayerState s &&& ~~~state = 0)

theorem cleared (h : IsMask state) (s : Layers w) :
    Cleared state s (clearOneshotLayerState state s) := by
  have hlayer : getOneshotLayer { s with oneshotLayerData := s.oneshotLayerData &&& ~~~state } =
      getOneshotLayer s := congrArg BitVec.toNat (clear_shiftRight h _)
  unfold clearOneshotLayerState
  dsimp only
  split_ifs with hends
  · refine .ended ?_ (state_of_clear_ne h hends.2) ?_
    · rw [hlayer]
      rfl
    · exact (and_clear state _).symm.trans (not_not.mp hends.1)
  · refine .kept hlayer rfl (and_clear state _) ?_
    constructor
    · intro hactive hzero
      apply hactive
      change s.oneshotLayerData &&& ~~~state &&& 0b111 = 0
      rw [and_clear]
      change getOneshotLayerState s &&& ~~~state = 0
      rw [hzero]
      exact BitVec.zero_and
    · intro hactive hzero
      refine hends ⟨not_not.mpr hzero, fun hsame => hactive ?_⟩
      rw [getOneshotLayerState, hsame]
      exact hzero

theorem inactive_reset (s : Layers w) : ¬ IsOneshotLayerActive (resetOneshotLayer s) :=
  not_not.mpr (by simp [getOneshotLayerState, resetOneshotLayer])

theorem getOneshotLayer_set (layer : BitVec 5) (h : state = oneshotStart ∨ state = oneshotToggled)
    (s : Layers w) : getOneshotLayer (setOneshotLayer layer state s) = layer.toNat :=
  pack_shiftRight layer h

theorem getOneshotLayerState_set (layer : BitVec 5)
    (h : state = oneshotStart ∨ state = oneshotToggled) (s : Layers w) :
    getOneshotLayerState (setOneshotLayer layer state s) = state :=
  pack_and layer h

end Functions

section Invariant

variable {cfg : Config} {layers : BitVec w} {s t : Layers w}

def Occurs (cfg : Config) (state : BitVec 8) : Prop :=
  state ∈ [0, oneshotPressed, oneshotOtherKeyPressed, oneshotStart] ∨
    cfg.Toggles ∧ state = oneshotToggled

theorem Occurs.clear {state mask : BitVec 8} (h : Occurs cfg state) (hmask : IsMask mask) :
    Occurs cfg (state &&& ~~~mask) := by
  rcases h with h | ⟨htoggles, rfl⟩
  · refine Or.inl ?_
    rcases hmask with rfl | rfl
    · exact (by decide : ∀ state ∈ [0, oneshotPressed, oneshotOtherKeyPressed, oneshotStart],
        state &&& ~~~oneshotPressed ∈
          [0, oneshotPressed, oneshotOtherKeyPressed, oneshotStart]) state h
    · exact (by decide : ∀ state ∈ [0, oneshotPressed, oneshotOtherKeyPressed, oneshotStart],
        state &&& ~~~oneshotOtherKeyPressed ∈
          [0, oneshotPressed, oneshotOtherKeyPressed, oneshotStart]) state h
  · refine Or.inr ⟨htoggles, ?_⟩
    rcases hmask with rfl | rfl
    · decide
    · decide

/-- The layers are those of the start and the one-shot layer, which is none of them. -/
structure Covers (cfg : Config) (layers : BitVec w) (s : Layers w) : Prop where
  occurs : Occurs cfg (getOneshotLayerState s)
  apart : IsOneshotLayerActive s → getOneshotLayer s ≠ 0 →
    layers.getLsbD (getOneshotLayer s) = false
  bits : ∀ k, k ≠ 0 → (s.layerState.getLsbD k = true ↔ layers.getLsbD k = true ∨
    IsOneshotLayerActive s ∧ k = getOneshotLayer s ∧ k < w)

theorem Covers.ended (h : Covers cfg layers s) (hactive : IsOneshotLayerActive s) :
    Covers cfg layers (resetOneshotLayer (s.off (getOneshotLayer s))) := by
  have hinactive := inactive_reset (s.off (getOneshotLayer s))
  refine ⟨Or.inl (by simp [getOneshotLayerState, resetOneshotLayer]),
    fun h' => absurd h' hinactive, ?_⟩
  intro k hk
  change (layerOff (getOneshotLayer s) s.layerState).getLsbD k = true ↔ _
  rw [getLsbD_layerOff, Bool.and_eq_true, decide_eq_true_iff, h.bits k hk]
  constructor
  · rintro ⟨hbase | ⟨-, heq, -⟩, hne⟩
    · exact Or.inl hbase
    · exact absurd heq hne
  · rintro (hbase | ⟨h', -⟩)
    · refine ⟨Or.inl hbase, ?_⟩
      rintro rfl
      exact absurd (hbase.symm.trans (h.apart hactive hk)) (by decide)
    · exact absurd h' hinactive

theorem Covers.clear (h : Covers cfg layers s) {mask : BitVec 8} (hmask : IsMask mask) :
    Covers cfg layers (clearOneshotLayerState mask s) := by
  cases cleared hmask s with
  | kept hlayer hbits hstate hactive =>
    refine ⟨?_, ?_, ?_⟩
    · rw [hstate]
      exact h.occurs.clear hmask
    · rw [hactive, hlayer]
      exact h.apart
    · rw [hactive, hlayer, hbits]
      exact h.bits
  | ended heq hactive _ =>
    rw [heq]
    exact h.ended hactive

/-- A layer that is off or the one-shot layer becomes the one-shot layer. -/
theorem Covers.set (h : Covers cfg layers s) {layer : BitVec 5} {state : BitVec 8}
    (hstate : state = oneshotStart ∨ state = oneshotToggled) (hoccurs : Occurs cfg state)
    (hsame : IsOneshotLayerActive s → getOneshotLayer s = layer.toNat) (hfree : Free layer s) :
    Covers cfg layers (setOneshotLayer layer state s) := by
  have hactive : IsOneshotLayerActive (setOneshotLayer layer state s) := by
    rw [IsOneshotLayerActive, getOneshotLayerState_set layer hstate]
    rcases hstate with rfl | rfl <;> decide
  refine ⟨?_, ?_, ?_⟩
  · rwa [getOneshotLayerState_set layer hstate]
  · rw [getOneshotLayer_set layer hstate]
    intro _ hzero
    by_contra hbase
    obtain ⟨hwas, heq⟩ := hfree ((h.bits _ hzero).mpr (Or.inl (eq_true_of_ne_false hbase)))
    rw [← heq] at hbase hzero
    exact hbase (h.apart hwas hzero)
  · intro k hk
    rw [getOneshotLayer_set layer hstate]
    change (layerOn layer.toNat s.layerState).getLsbD k = true ↔ _
    rw [getLsbD_layerOn, Bool.or_eq_true, decide_eq_true_iff, h.bits k hk]
    constructor
    · rintro ((hbase | ⟨hwas, heq, hw⟩) | ⟨heq, hw⟩)
      · exact Or.inl hbase
      · exact Or.inr ⟨hactive, heq.trans (hsame hwas), hw⟩
      · exact Or.inr ⟨hactive, heq, hw⟩
    · rintro (hbase | ⟨-, heq, hw⟩)
      · exact Or.inl (Or.inl hbase)
      · exact Or.inr ⟨heq, hw⟩

theorem Free.clear {layer : BitVec 5} (hfree : Free layer s) {mask : BitVec 8}
    (hmask : IsMask mask) : Free layer (clearOneshotLayerState mask s) := by
  intro hon
  cases cleared hmask s with
  | kept hlayer hbits hstate hactive =>
    rw [hactive, hlayer]
    exact hfree (hbits ▸ hon)
  | ended heq _ _ =>
    rw [heq] at hon
    change (layerOff (getOneshotLayer s) s.layerState).getLsbD layer.toNat = true at hon
    rw [getLsbD_layerOff, Bool.and_eq_true, decide_eq_true_iff] at hon
    exact absurd (hfree hon.1).2.symm hon.2

theorem Covers.releaseOneshot (h : Covers cfg layers s) (hdata : s.oneshotLayerData = 0) :
    Covers cfg layers (releaseOneshot cfg .basic s) := by
  have hlayer : getOneshotLayer s = 0 := by rw [getOneshotLayer, hdata]; rfl
  unfold Oneshot.releaseOneshot released
  dsimp only
  split_ifs
  · refine ⟨h.occurs, h.apart, fun k hk => ?_⟩
    have hbits : (layerOff (getOneshotLayer s)
        (layerOn (getOneshotLayer s) s.layerState)).getLsbD k = s.layerState.getLsbD k := by
      rw [getLsbD_layerOff, getLsbD_layerOn, hlayer]
      simp [hk]
    exact (Bool.eq_iff_iff.mp hbits).trans (h.bits k hk)
  · exact h

theorem Covers.oslReleased (h : Covers cfg layers s) {layer : BitVec 5} {tapCount : ℕ}
    (hok : cfg.Toggles ∧ cfg.tapToggle ≤ tapCount →
      (IsOneshotLayerActive s → getOneshotLayer s = layer.toNat) ∧ Free layer s) :
    Covers cfg layers (oslReleased cfg layer tapCount s) := by
  have hpressed := h.clear (Or.inl rfl)
  unfold Oneshot.oslReleased
  dsimp only
  split_ifs with htoggles hcount
  · obtain ⟨hsame, hfree⟩ := hok ⟨htoggles, hcount⟩
    exact h.set (Or.inr rfl) (Or.inr ⟨htoggles, rfl⟩) hsame hfree
  · exact hpressed
  · exact hpressed.clear (Or.inr rfl)
  · exact hpressed

theorem Covers.used (h : Covers cfg layers s) : Covers cfg layers (used s) := by
  unfold Oneshot.used
  split_ifs
  · exact h.clear (Or.inr rfl)
  · exact h

theorem used_cases (s : Layers w) : used s = s ∨
    IsOneshotLayerActive s ∧ used s = clearOneshotLayerState oneshotOtherKeyPressed s := by
  unfold used
  split_ifs with hactive
  · exact Or.inr ⟨hactive, rfl⟩
  · exact Or.inl rfl

/-- A one-shot layer that has been used up leaves an empty byte. -/
theorem data_used (hactive : IsOneshotLayerActive s) (hused : ¬ IsOneshotLayerActive (used s)) :
    (used s).oneshotLayerData = 0 := by
  have heq : used s = clearOneshotLayerState oneshotOtherKeyPressed s := if_pos hactive
  rw [heq] at hused ⊢
  cases cleared (Or.inr rfl) s with
  | kept _ _ _ hiff => exact absurd (hiff.mpr hactive) hused
  | ended h _ _ => rw [h, resetOneshotLayer]

/-- What is left of a one-shot layer that has been used belongs to a key that is held, unless it is
toggled. -/
theorem held_of_used {state : BitVec 8} (h : Occurs cfg state)
    (htoggled : ¬ (cfg.Toggles ∧ state = oneshotToggled))
    (hleft : state &&& ~~~oneshotOtherKeyPressed ≠ 0) : state &&& oneshotPressed ≠ 0 := by
  have hmem := h.resolve_right htoggled
  exact (by decide : ∀ state ∈ [0, oneshotPressed, oneshotOtherKeyPressed, oneshotStart],
    state &&& ~~~oneshotOtherKeyPressed ≠ 0 → state &&& oneshotPressed ≠ 0) state hmem hleft

theorem toggled_of_used {state : BitVec 8} (h : Occurs cfg state)
    (hleft : state &&& ~~~oneshotOtherKeyPressed = oneshotToggled) : state = oneshotToggled := by
  rcases h with h | ⟨-, h⟩
  · exact (by decide : ∀ state ∈ [0, oneshotPressed, oneshotOtherKeyPressed, oneshotStart],
      state &&& ~~~oneshotOtherKeyPressed = oneshotToggled → state = oneshotToggled) state h hleft
  · exact h

theorem toggled_used (h : Occurs cfg (getOneshotLayerState s)) :
    getOneshotLayerState (used s) = oneshotToggled ↔ getOneshotLayerState s = oneshotToggled := by
  obtain heq | ⟨hactive, heq⟩ := used_cases s
  · rw [heq]
  · rw [heq]
    cases cleared (Or.inr rfl) s with
    | kept _ _ hstate _ =>
      rw [hstate]
      refine ⟨toggled_of_used h, fun htoggled => ?_⟩
      rw [htoggled]
      decide
    | ended hend _ hstate =>
      refine iff_of_false ?_ ?_
      · rw [hend]
        simp [getOneshotLayerState, resetOneshotLayer, oneshotToggled]
      · rintro htoggled
        rw [htoggled] at hstate
        exact absurd hstate (by decide)

theorem active_used (hactive : IsOneshotLayerActive (used s)) :
    getOneshotLayer (used s) = getOneshotLayer s ∧
      getOneshotLayerState s &&& ~~~oneshotOtherKeyPressed ≠ 0 := by
  by_cases hwas : IsOneshotLayerActive s
  · have heq : used s = clearOneshotLayerState oneshotOtherKeyPressed s := if_pos hwas
    rw [heq] at hactive ⊢
    cases cleared (Or.inr rfl) s with
    | kept hlayer _ hstate _ => exact ⟨hlayer, hstate ▸ hactive⟩
    | ended hend _ _ =>
      rw [hend] at hactive
      exact absurd hactive (inactive_reset _)
  · have heq : used s = s := if_neg hwas
    exact absurd (heq ▸ hactive) hwas

theorem Covers.oslPressed (h : Covers cfg layers s) {layer : BitVec 5} {tapCount : ℕ}
    (hok : if cfg.Toggles ∧ getOneshotLayerState s = oneshotToggled then
        getOneshotLayer s = layer.toNat
      else ¬ cfg.Toggles ∨ tapCount < cfg.tapToggle →
        (getOneshotLayerState s &&& oneshotPressed ≠ 0 → getOneshotLayer s = layer.toNat) ∧
          Free layer s) :
    Covers cfg layers (oslPressed cfg layer tapCount (Oneshot.used s)) := by
  have hused := h.used
  have hstart (htoggled : ¬ (cfg.Toggles ∧ getOneshotLayerState s = oneshotToggled))
      (hcount : ¬ cfg.Toggles ∨ tapCount < cfg.tapToggle) :
      Covers cfg layers (setOneshotLayer layer oneshotStart (Oneshot.used s)) := by
    rw [if_neg htoggled] at hok
    obtain ⟨hsame, hfree⟩ := hok hcount
    refine hused.set (Or.inl rfl) (Or.inl (by decide)) ?_ ?_
    · intro hactive
      obtain ⟨hlayer, hleft⟩ := active_used hactive
      exact hlayer.trans (hsame (held_of_used h.occurs htoggled hleft))
    · obtain heq | ⟨-, heq⟩ := used_cases s
      · rwa [heq]
      · rw [heq]
        exact hfree.clear (Or.inr rfl)
  unfold Oneshot.oslPressed
  split_ifs with htoggles htoggled hcount
  · rw [toggled_used h.occurs] at htoggled
    rw [if_pos ⟨htoggles, htoggled⟩] at hok
    have hactive : IsOneshotLayerActive (Oneshot.used s) := by
      rw [IsOneshotLayerActive, (toggled_used h.occurs).mpr htoggled]
      decide
    obtain ⟨hlayer, -⟩ := active_used hactive
    have hended := hused.ended hactive
    rw [hlayer, hok] at hended
    exact hended
  · rw [toggled_used h.occurs] at htoggled
    exact hstart (fun hboth => htoggled hboth.2) (Or.inr hcount)
  · exact hused
  · exact hstart (fun hboth => htoggles hboth.1) (Or.inl htoggles)

theorem releaseOneshot_osl {layer : BitVec 5} {tapCount : ℕ} (h : ¬ cfg.Toggles) (s : Layers w) :
    releaseOneshot cfg (.osl layer tapCount) (oslPressed cfg layer tapCount s) =
      oslPressed cfg layer tapCount s := by
  rw [oslPressed, if_neg h]
  apply if_neg
  rw [getOneshotLayerState_set layer (Or.inl rfl)]
  decide

theorem Covers.pressed (h : Covers cfg layers s) {a : Action}
    (hok : ∀ layer tapCount, a = .osl layer tapCount →
      if cfg.Toggles ∧ getOneshotLayerState s = oneshotToggled then
        getOneshotLayer s = layer.toNat
      else ¬ cfg.Toggles ∨ tapCount < cfg.tapToggle →
        (getOneshotLayerState s &&& oneshotPressed ≠ 0 → getOneshotLayer s = layer.toNat) ∧
          Free layer s) :
    Covers cfg layers (pressed cfg a s) := by
  cases a with
  | osl layer tapCount =>
    have hosl := h.oslPressed (hok layer tapCount rfl)
    unfold Oneshot.pressed
    dsimp only
    split_ifs with hrelease
    · rwa [releaseOneshot_osl hrelease.2]
    · exact hosl
  | basic =>
    unfold Oneshot.pressed
    dsimp only
    split_ifs with hrelease
    · exact h.used.releaseOneshot (data_used hrelease.1 hrelease.2)
    · exact h.used

theorem Covers.step {e : Event} {q : Watched w} (h : Covers cfg layers q.layers)
    (hok : (separate cfg).ok q e) : Covers cfg layers (q.step cfg e).layers := by
  obtain ⟨key, a, down⟩ := e
  cases down with
  | true =>
    apply h.pressed
    rintro layer tapCount rfl
    exact hok
  | false =>
    cases a with
    | osl layer tapCount => exact h.oslReleased hok
    | basic => exact h

theorem covers_start (cfg : Config) (layers : BitVec w) :
    Covers cfg layers (start layers).layers := by
  have hinactive : ¬ IsOneshotLayerActive (start layers).layers :=
    not_not.mpr BitVec.zero_and
  refine ⟨Or.inl (by simp [getOneshotLayerState, start]), fun h => absurd h hinactive, ?_⟩
  rintro k -
  exact ⟨Or.inl, fun h => h.resolve_right fun h => hinactive h.1⟩

theorem Covers.restored {q : Watched w} (h : Covers cfg layers q.layers) : Restored layers q := by
  rintro - hinactive k hk
  rw [Bool.eq_iff_iff, h.bits k hk]
  exact or_iff_left fun h => hinactive h.1

/-- In the runs in which no one-shot key takes over the byte of another layer, the one-shot layers
leave no layer on and switch none off. -/
theorem run_restored {events : List Event} (h : (separate cfg).Accepts (start layers) events) :
    ∀ pre post, events = pre ++ post → Restored layers (run cfg (start layers) pre) :=
  h.prefixes (I := fun q => Covers cfg layers q.layers) (fun _ hq => hq.restored)
    (fun _ _ hq hok => hq.step hok) (covers_start cfg layers)

/-- `OSL(1)` is tapped, and then a key. -/
def tapped : List Event :=
  [⟨0, .osl 1 1, true⟩, ⟨0, .osl 1 1, false⟩, ⟨2, .basic, true⟩, ⟨2, .basic, false⟩]

theorem tapped_restored : (separate {}).Accepts (start (0 : BitVec 32)) tapped ∧
    ∀ pre post, tapped = pre ++ post → Restored (0 : BitVec 32) (run {} (start 0) pre) :=
  ⟨by decide, run_restored (by decide)⟩

/-- `OSL(2)` is pressed while `OSL(1)` is held. -/
def rolled : List Event :=
  [⟨0, .osl 1 0, true⟩, ⟨1, .osl 2 0, true⟩, ⟨0, .osl 1 0, false⟩, ⟨1, .osl 2 0, false⟩,
    ⟨2, .basic, true⟩, ⟨2, .basic, false⟩]

theorem rolled_not_restored : (alternating {}).Accepts (start (0 : BitVec 32)) rolled ∧
    ¬ ∀ pre post, rolled = pre ++ post → Restored (0 : BitVec 32) (run {} (start 0) pre) := by
  refine ⟨by decide, fun h => ?_⟩
  have hup (key : ℕ) (layer : BitVec 5) (tapCount : ℕ) :
      (run {} (start (0 : BitVec 32)) rolled).down key ≠ some (.osl layer tapCount) := by
    change Function.update (Function.update (Function.update (Function.update
      (Function.update (Function.update (fun _ => none) 0 _) 1 _) 0 none) 1 none) 2 _) 2 none
        key ≠ _
    grind [Function.update]
  have hlayer := h rolled [] (List.append_nil _).symm hup (by decide) 1 (by decide)
  exact absurd hlayer (by decide)

end Invariant

end Qmk.Oneshot
