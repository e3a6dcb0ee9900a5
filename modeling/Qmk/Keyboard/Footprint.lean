import Qmk.HeldKeys
import Qmk.Keyboard.Actions

/-! # What actions leave active

The keys, the modifiers, the usages and the layers that are active make up a set. The press of an
action adds what the action holds and its release takes that away; only some layer actions and the
toggle of a modifier leave more behind.
-/

namespace Qmk.Keyboard

section Items

/-- Something that an action turns on: a key of the report, a bit of the real or of the weak
modifiers, a usage or a layer. -/
inductive Item
  | key (code : Code)
  | mod (bit : ℕ)
  | weakMod (bit : ℕ)
  | system (usage : BitVec 16)
  | consumer (usage : BitVec 16)
  | layer (layer : ℕ)

variable {f : Form} {w : ℕ}

def State.IsActive (s : State f w) : Item → Prop
  | .key code => f.shows code (f.sent s.keys) = true
  | .mod bit => s.realMods.getLsbD bit = true
  | .weakMod bit => s.weakMods.getLsbD bit = true
  | .system usage => usage ≠ 0 ∧ s.lastSystemUsage = usage
  | .consumer usage => usage ≠ 0 ∧ s.lastConsumerUsage = usage
  | .layer layer => s.layerState.getLsbD layer = true

def State.active (s : State f w) : Set Item := {i | s.IsActive i}

def modItems (mods : BitVec 8) : Set Item := {i | ∃ bit, i = .mod bit ∧ mods.getLsbD bit = true}

def weakItems (mods : BitVec 8) : Set Item :=
  {i | ∃ bit, i = .weakMod bit ∧ mods.getLsbD bit = true}

def codeItems (code : BitVec 8) : Set Item :=
  if h : IsBasic code then {.key (basicCode code h)}
  else if IsModifier code then modItems (modBit code)
  else if IsSystem code then {.system (keycode2system code)}
  else if IsConsumer code then {.consumer (keycode2consumer code)}
  else ∅

end Items

section Calls

variable {f : Form} {w : ℕ} {s : State f w} {i : Item} {mods code : BitVec 8}

@[simp]
theorem active_sendKeyboardReport : (sendKeyboardReport s).active = s.active := by
  unfold sendKeyboardReport
  split_ifs <;> rfl

theorem active_addMods : (addMods mods s).active = s.active ∪ modItems mods := by
  ext i
  cases i <;> simp [State.active, State.IsActive, addMods, modItems]

theorem active_addWeakMods : (addWeakMods mods s).active = s.active ∪ weakItems mods := by
  ext i
  cases i <;> simp [State.active, State.IsActive, addWeakMods, weakItems]

theorem active_delMods : (delMods mods s).active = s.active \ modItems mods := by
  ext i
  cases i with
  | mod bit =>
    have hlt : s.realMods.getLsbD bit = true → bit < 8 := BitVec.lt_of_getLsbD
    simpa [State.active, State.IsActive, delMods, modItems] using fun h _ => hlt h
  | _ => simp [State.active, State.IsActive, delMods, modItems]

theorem active_delWeakMods : (delWeakMods mods s).active = s.active \ weakItems mods := by
  ext i
  cases i with
  | weakMod bit =>
    have hlt : s.weakMods.getLsbD bit = true → bit < 8 := BitVec.lt_of_getLsbD
    simpa [State.active, State.IsActive, delWeakMods, weakItems] using fun h _ => hlt h
  | _ => simp [State.active, State.IsActive, delWeakMods, weakItems]

theorem active_clearWeakMods : (clearWeakMods s).active ⊆ s.active := by
  rintro (_ | _ | _ | _ | _ | _) h
  case weakMod => simp [State.active, State.IsActive, clearWeakMods] at h
  all_goals exact h

theorem active_addKey (code : Code) : (addKey code s).active ⊆ s.active ∪ {.key code} := by
  rintro (other | _ | _ | _ | _ | _) h
  case key =>
    refine (f.shows_add code other s.keys h).imp_right ?_
    rintro rfl
    rfl
  all_goals exact .inl h

theorem active_delKey (code : Code) : (delKey code s).active ⊆ s.active \ {.key code} := by
  rintro (other | _ | _ | _ | _ | _) h
  case key =>
    obtain ⟨hshown, hne⟩ := f.shows_del code other s.keys h
    exact ⟨hshown, fun heq => hne (Item.key.inj heq)⟩
  all_goals exact ⟨h, nofun⟩

theorem active_hostSystemSend (usage : BitVec 16) :
    (hostSystemSend usage s).active ⊆ s.active ∪ {.system usage} := by
  rintro (_ | _ | _ | other | _ | _) h
  case system => exact .inr (congrArg Item.system h.2.symm)
  all_goals exact .inl h

theorem active_hostSystemSend_zero (usage : BitVec 16) :
    (hostSystemSend 0 s).active ⊆ s.active \ {.system usage} := by
  rintro (_ | _ | _ | other | _ | _) h
  case system => exact absurd h.2.symm h.1
  all_goals exact ⟨h, nofun⟩

theorem active_hostConsumerSend (usage : BitVec 16) :
    (hostConsumerSend usage s).active ⊆ s.active ∪ {.consumer usage} := by
  rintro (_ | _ | _ | _ | other | _) h
  case consumer => exact .inr (congrArg Item.consumer h.2.symm)
  all_goals exact .inl h

theorem active_hostConsumerSend_zero (usage : BitVec 16) :
    (hostConsumerSend 0 s).active ⊆ s.active \ {.consumer usage} := by
  rintro (_ | _ | _ | _ | other | _) h
  case consumer => exact absurd h.2.symm h.1
  all_goals exact ⟨h, nofun⟩

theorem active_registerCode : (registerCode code s).active ⊆ s.active ∪ codeItems code := by
  unfold registerCode codeItems
  by_cases hbasic : IsBasic code
  · rw [dif_pos hbasic, dif_pos hbasic, active_sendKeyboardReport]
    refine (active_addKey _).trans (Set.union_subset_union_left _ ?_)
    split_ifs
    · rw [active_sendKeyboardReport]
      exact (active_delKey _).trans Set.sdiff_subset
    · exact Set.Subset.refl _
  · rw [dif_neg hbasic, dif_neg hbasic]
    split_ifs
    · rw [active_sendKeyboardReport, active_addMods]
    · exact active_hostSystemSend _
    · exact active_hostConsumerSend _
    · exact Set.subset_union_left

theorem active_unregisterCode : (unregisterCode code s).active ⊆ s.active \ codeItems code := by
  unfold unregisterCode codeItems
  split_ifs
  · rw [active_sendKeyboardReport]
    exact active_delKey _
  · rw [active_sendKeyboardReport, active_delMods]
  · exact active_hostSystemSend_zero _
  · exact active_hostConsumerSend_zero _
  · rw [Set.sdiff_empty]

theorem active_registerMods : (registerMods mods s).active = s.active ∪ modItems mods := by
  unfold registerMods
  split_ifs with h
  · rw [active_sendKeyboardReport, active_addMods]
  · obtain rfl := not_not.mp h
    simp [modItems]

theorem active_unregisterMods : (unregisterMods mods s).active = s.active \ modItems mods := by
  unfold unregisterMods
  split_ifs with h
  · rw [active_sendKeyboardReport, active_delMods]
  · obtain rfl := not_not.mp h
    simp [modItems]

theorem active_layerStateSet {state : BitVec w} {kept : Set Item}
    (hon : ∀ layer, state.getLsbD layer = true →
      s.layerState.getLsbD layer = true ∨ .layer layer ∈ kept) :
    (layerStateSet state s).active ⊆ s.active ∪ kept := by
  rintro (_ | _ | _ | _ | _ | layer) h
  case layer => exact hon layer h
  all_goals exact .inl h

theorem active_layerStateSet_del {state : BitVec w} (layer : ℕ)
    (hon : ∀ other, state.getLsbD other = true →
      s.layerState.getLsbD other = true ∧ other ≠ layer) :
    (layerStateSet state s).active ⊆ s.active \ {.layer layer} := by
  rintro (_ | _ | _ | _ | _ | other) h
  case layer => exact ⟨(hon other h).1, fun heq => (hon other h).2 (Item.layer.inj heq)⟩
  all_goals exact ⟨h, nofun⟩

variable {layer : ℕ}

theorem active_layerOn : (layerStateSet (layerOn layer s.layerState) s).active ⊆
    s.active ∪ {.layer layer} := by
  refine active_layerStateSet fun other h => ?_
  rw [getLsbD_layerOn, Bool.or_eq_true, decide_eq_true_eq] at h
  exact h.imp_right fun h => congrArg Item.layer h.1

theorem active_layerInvert : (layerStateSet (layerInvert layer s.layerState) s).active ⊆
    s.active ∪ {.layer layer} := by
  refine active_layerStateSet fun other h => ?_
  rw [getLsbD_layerInvert] at h
  by_cases hlayer : other = layer
  · exact .inr (congrArg Item.layer hlayer)
  · exact .inl (by simpa [hlayer] using h)

theorem active_layerMove : (layerStateSet (layerMove layer s.layerState) s).active ⊆
    s.active ∪ {.layer layer} := by
  refine active_layerStateSet fun other h => ?_
  rw [layerMove, getLsbD_layerMask, decide_eq_true_eq] at h
  exact .inr (congrArg Item.layer h.1)

theorem active_layerOff : (layerStateSet (layerOff layer s.layerState) s).active ⊆
    s.active \ {.layer layer} := by
  refine active_layerStateSet_del layer fun other h => ?_
  rwa [getLsbD_layerOff, Bool.and_eq_true, decide_eq_true_eq] at h

theorem active_layerClear : (layerStateSet 0 s).active ⊆ s.active \ {.layer layer} :=
  active_layerStateSet_del layer fun _ h => absurd (BitVec.getLsbD_zero.symm.trans h) nofun

def layerItems (state : BitVec w) : Set Item :=
  {i | ∃ layer, i = .layer layer ∧ state.getLsbD layer = true}

theorem active_bitOp (op : ℕ) (bits : BitVec w) :
    (layerStateSet (bitOp op bits s.layerState) s).active ⊆ s.active ∪ layerItems bits := by
  refine active_layerStateSet fun other h => ?_
  have hcases : s.layerState.getLsbD other = true ∨ bits.getLsbD other = true := by
    unfold bitOp at h
    split at h
    · exact .inl (Bool.and_eq_true _ _ ▸ BitVec.getLsbD_and ▸ h).1
    · exact Bool.or_eq_true _ _ ▸ BitVec.getLsbD_or ▸ h
    · rw [BitVec.getLsbD_xor] at h
      by_contra hnot
      simp_all
    · exact .inr h
  exact hcases.imp_right fun h => ⟨other, rfl, h⟩

end Calls

section Actions

variable (c : Config) (w : ℕ)

/-- What the press of an action turns on and its release turns off. -/
def heldItems (a : Action × ℕ) : Set Item :=
  match a.1.kind with
  | .lmods => modsItems false
  | .rmods => modsItems true
  | .lmodsTap => modsTapItems false
  | .rmodsTap => modsTapItems true
  | .usage =>
    if a.1.page = PAGE_SYSTEM then {.system a.1.usageCode}
    else if a.1.page = PAGE_CONSUMER then {.consumer a.1.usageCode}
    else ∅
  | .layerMods => modItems a.1.layerModsMods ∪ {.layer a.1.layerModsLayer}
  | .layerTap | .layerTapExt => layerTapItems
  | .layer | .mousekey | .swapHands | .other => ∅
where
  modsItems (right : Bool) : Set Item :=
    codeItems a.1.code ∪
      if a.1.IsStrong then modItems (a.1.mods right) else weakItems (a.1.mods right)
  modsTapItems (right : Bool) : Set Item :=
    if c.noActionTapping then ∅
    else if a.1.code = MODS_TAP_TOGGLE then
      if a.2 < c.tappingToggle then modItems (a.1.mods right) else ∅
    else if 0 < a.2 then codeItems a.1.code
    else modItems (a.1.mods right)
  layerTapItems : Set Item :=
    if a.1.code = OP_TAP_TOGGLE ∧ ¬ c.noActionTapping ∨ a.1.code = OP_OFF_ON then ∅
    else if a.1.code = OP_ON_OFF ∨ a.1.code = OP_SET_CLEAR then {.layer a.1.val}
    else if 0 < a.2 ∨ c.noActionTapping then codeItems a.1.code
    else {.layer a.1.val}

/-- What the press or the release of an action turns on and leaves to other keys: the modifiers
that a toggle locks, and the layers of toggles and moves. -/
def keptItems (pressed : Bool) (a : Action × ℕ) : Set Item :=
  match a.1.kind with
  | .lmodsTap => toggleItems false
  | .rmodsTap => toggleItems true
  | .layer =>
    if a.1.on &&& (if pressed then ON_PRESS else ON_RELEASE) ≠ 0 then layerItems (a.1.bitop w)
    else ∅
  | .layerTap | .layerTapExt => toggledLayers
  | .lmods | .rmods | .usage | .layerMods | .mousekey | .swapHands | .other => ∅
where
  toggleItems (right : Bool) : Set Item :=
    if pressed ∧ a.1.code = MODS_TAP_TOGGLE ∧ a.2 = c.tappingToggle ∧ ¬ c.noActionTapping then
      modItems (a.1.mods right)
    else ∅
  toggledLayers : Set Item :=
    if a.1.code = OP_TAP_TOGGLE ∧ ¬ c.noActionTapping then
      if if pressed then a.2 < c.tappingToggle else a.2 ≤ c.tappingToggle then {.layer a.1.val}
      else ∅
    else if a.1.code = OP_OFF_ON then if pressed then ∅ else {.layer a.1.val}
    else ∅

variable {c w} {f : Form} {s : State f w} {a : Action} {tapCount : ℕ} {right : Bool}

theorem active_processMods_press : (processMods true a right s).active ⊆
    s.active ∪ heldItems.modsItems (a, tapCount) right := by
  have hmods : (if a.mods right ≠ 0 then sendKeyboardReport (if a.IsStrong then
      addMods (a.mods right) s else addWeakMods (a.mods right) s) else s).active ⊆
      s.active ∪ if a.IsStrong then modItems (a.mods right) else weakItems (a.mods right) := by
    split_ifs
    · rw [active_sendKeyboardReport, active_addMods]
    · rw [active_sendKeyboardReport, active_addWeakMods]
    · exact Set.subset_union_left
    · exact Set.subset_union_left
  refine active_registerCode.trans ((Set.union_subset_union_left _ hmods).trans_eq ?_)
  rw [heldItems.modsItems, Set.union_assoc, Set.union_comm (codeItems a.code)]

theorem active_processMods_release : (processMods false a right s).active ⊆
    s.active \ heldItems.modsItems (a, tapCount) right := by
  have hmods : ∀ s : State f w, (if a.mods right ≠ 0 then sendKeyboardReport (if a.IsStrong then
      delMods (a.mods right) s else delWeakMods (a.mods right) s) else s).active =
      s.active \ if a.IsStrong then modItems (a.mods right) else weakItems (a.mods right) := by
    intro s
    split_ifs with hne
    · rw [active_sendKeyboardReport, active_delMods]
    · rw [active_sendKeyboardReport, active_delWeakMods]
    · rw [not_not.mp hne]
      simp [modItems]
    · rw [not_not.mp hne]
      simp [weakItems]
  refine (hmods _).trans_subset ((Set.sdiff_subset_sdiff_left active_unregisterCode).trans_eq ?_)
  rw [heldItems.modsItems, Set.sdiff_sdiff]

theorem active_processModsTap_press : (processModsTap c true tapCount a right s).active ⊆
    s.active ∪ heldItems.modsTapItems c (a, tapCount) right ∪
      keptItems.toggleItems c true (a, tapCount) right := by
  unfold processModsTap heldItems.modsTapItems keptItems.toggleItems
  by_cases htapping : c.noActionTapping = true
  · simp [htapping]
  by_cases htoggle : a.code = MODS_TAP_TOGGLE
  · rcases Nat.lt_trichotomy tapCount c.tappingToggle with hlt | heq | hgt
    · simp [htapping, htoggle, hlt, hlt.le, active_registerMods]
    · simp [htapping, htoggle, heq, active_registerMods]
    · simp [htapping, htoggle, hgt.not_ge, hgt.not_gt]
  · by_cases htap : 0 < tapCount
    · simpa [htapping, htoggle, htap] using active_registerCode
    · simp [htapping, htoggle, htap, active_registerMods]

theorem active_processModsTap_release : (processModsTap c false tapCount a right s).active ⊆
    s.active \ heldItems.modsTapItems c (a, tapCount) right := by
  unfold processModsTap heldItems.modsTapItems
  by_cases htapping : c.noActionTapping = true
  · simp [htapping]
  by_cases htoggle : a.code = MODS_TAP_TOGGLE
  · by_cases hlt : tapCount < c.tappingToggle
    · simp [htapping, htoggle, hlt, active_unregisterMods]
    · simp [htapping, htoggle, hlt]
  · by_cases htap : 0 < tapCount
    · simpa [htapping, htoggle, htap] using active_unregisterCode
    · simp [htapping, htoggle, htap, active_unregisterMods]

theorem active_processUsage_press (hkind : a.kind = .usage) : (processUsage true a s).active ⊆
    s.active ∪ heldItems c (a, tapCount) := by
  simp only [processUsage, heldItems, hkind, if_true]
  split_ifs
  · exact active_hostSystemSend _
  · exact active_hostConsumerSend _
  · exact Set.subset_union_left

theorem active_processUsage_release (hkind : a.kind = .usage) :
    (processUsage false a s).active ⊆ s.active \ heldItems c (a, tapCount) := by
  simp only [processUsage, heldItems, hkind, Bool.false_eq_true, if_false]
  split_ifs
  · exact active_hostSystemSend_zero _
  · exact active_hostConsumerSend_zero _
  · rw [Set.sdiff_empty]

theorem active_processLayer {pressed : Bool} (hkind : a.kind = .layer) :
    (processLayer pressed a s).active ⊆ s.active ∪ keptItems c w pressed (a, tapCount) := by
  simp only [processLayer, keptItems, hkind]
  by_cases hon : a.on = 0
  · have hsame : (if pressed then s else
        defaultLayerStateSet (bitOp a.op (a.bitop w) s.defaultLayerState) s).active =
        s.active := by
      split_ifs <;> rfl
    rw [if_pos hon, hsame]
    exact Set.subset_union_left
  · rw [if_neg hon]
    by_cases hnow : a.on &&& (if pressed then ON_PRESS else ON_RELEASE) ≠ 0
    · rw [if_pos hnow, if_pos hnow]
      exact active_bitOp _ _
    · rw [if_neg hnow]
      exact Set.subset_union_left

theorem active_processLayerMods_press : (processLayerMods true a s).active ⊆
    s.active ∪ (modItems a.layerModsMods ∪ {.layer a.layerModsLayer}) := by
  simp only [processLayerMods, if_true]
  rw [active_registerMods, Set.union_comm (modItems _), ← Set.union_assoc]
  exact Set.union_subset_union_left _ active_layerOn

theorem active_processLayerMods_release : (processLayerMods false a s).active ⊆
    s.active \ (modItems a.layerModsMods ∪ {.layer a.layerModsLayer}) := by
  simp only [processLayerMods, Bool.false_eq_true, if_false]
  refine active_layerOff.trans ?_
  rw [active_unregisterMods, Set.sdiff_sdiff]

theorem active_processLayerTap_press : (processLayerTap c true tapCount a s).active ⊆
    s.active ∪ heldItems.layerTapItems c (a, tapCount) ∪
      keptItems.toggledLayers c true (a, tapCount) := by
  simp only [processLayerTap, heldItems.layerTapItems, keptItems.toggledLayers, if_true]
  by_cases htoggle : a.code = OP_TAP_TOGGLE ∧ ¬ c.noActionTapping
  · rw [if_pos htoggle, if_pos (Or.inl htoggle), if_pos htoggle, Set.union_empty]
    split_ifs
    · exact active_layerInvert
    · exact Set.subset_union_left
  rw [if_neg htoggle, if_neg htoggle, ite_self, Set.union_empty]
  by_cases hoffOn : a.code = OP_OFF_ON
  · have hne : a.code ≠ OP_ON_OFF := hoffOn ▸ by decide
    rw [if_neg hne, if_pos hoffOn, if_pos (Or.inr hoffOn), Set.union_empty]
    exact active_layerOff.trans Set.sdiff_subset
  rw [if_neg hoffOn, if_neg (not_or.mpr ⟨htoggle, hoffOn⟩)]
  by_cases hon : a.code = OP_ON_OFF
  · rw [if_pos hon, if_pos (Or.inl hon)]
    exact active_layerOn
  by_cases hset : a.code = OP_SET_CLEAR
  · rw [if_neg hon, if_pos hset, if_pos (Or.inr hset)]
    exact active_layerMove
  rw [if_neg hon, if_neg hset, if_neg (not_or.mpr ⟨hon, hset⟩)]
  split_ifs
  · exact active_registerCode
  · exact active_layerOn

theorem active_processLayerTap_release : (processLayerTap c false tapCount a s).active ⊆
    s.active \ heldItems.layerTapItems c (a, tapCount) ∪
      keptItems.toggledLayers c false (a, tapCount) := by
  simp only [processLayerTap, heldItems.layerTapItems, keptItems.toggledLayers, Bool.false_eq_true,
    if_false]
  by_cases htoggle : a.code = OP_TAP_TOGGLE ∧ ¬ c.noActionTapping
  · rw [if_pos htoggle, if_pos (Or.inl htoggle), if_pos htoggle, Set.sdiff_empty]
    split_ifs
    · exact active_layerInvert
    · exact Set.subset_union_left
  rw [if_neg htoggle, if_neg htoggle]
  by_cases hoffOn : a.code = OP_OFF_ON
  · have hne : a.code ≠ OP_ON_OFF := hoffOn ▸ by decide
    rw [if_neg hne, if_pos hoffOn, if_pos (Or.inr hoffOn), if_pos hoffOn, Set.sdiff_empty]
    exact active_layerOn
  rw [if_neg hoffOn, if_neg (not_or.mpr ⟨htoggle, hoffOn⟩), if_neg hoffOn, Set.union_empty]
  by_cases hon : a.code = OP_ON_OFF
  · rw [if_pos hon, if_pos (Or.inl hon)]
    exact active_layerOff
  by_cases hset : a.code = OP_SET_CLEAR
  · rw [if_neg hon, if_pos hset, if_pos (Or.inr hset)]
    exact active_layerClear
  rw [if_neg hon, if_neg hset, if_neg (not_or.mpr ⟨hon, hset⟩)]
  split_ifs
  · exact active_unregisterCode
  · exact active_layerOff

theorem active_processAction_press : (processAction c true tapCount a s).active ⊆
    s.active ∪ heldItems c (a, tapCount) ∪ keptItems c w true (a, tapCount) := by
  have hheld : ∀ {t : Set Item}, t ⊆ s.active ∪ heldItems c (a, tapCount) →
      t ⊆ s.active ∪ heldItems c (a, tapCount) ∪ keptItems c w true (a, tapCount) :=
    fun h => h.trans Set.subset_union_left
  unfold processAction
  cases hkind : a.kind with
  | lmods => exact hheld (by simpa only [heldItems, hkind] using active_processMods_press)
  | rmods => exact hheld (by simpa only [heldItems, hkind] using active_processMods_press)
  | lmodsTap =>
    simpa only [heldItems, keptItems, hkind] using active_processModsTap_press
  | rmodsTap =>
    simpa only [heldItems, keptItems, hkind] using active_processModsTap_press
  | usage => exact hheld (active_processUsage_press hkind)
  | layer =>
    refine (active_processLayer hkind).trans (Set.union_subset_union_left _ Set.subset_union_left)
  | layerMods =>
    exact hheld (by simpa only [heldItems, hkind] using active_processLayerMods_press)
  | layerTap => simpa only [heldItems, keptItems, hkind] using active_processLayerTap_press
  | layerTapExt => simpa only [heldItems, keptItems, hkind] using active_processLayerTap_press
  | mousekey => exact hheld Set.subset_union_left
  | swapHands => exact hheld Set.subset_union_left
  | other => exact hheld Set.subset_union_left

theorem active_processAction_release : (processAction c false tapCount a s).active ⊆
    s.active \ heldItems c (a, tapCount) ∪ keptItems c w false (a, tapCount) := by
  have hheld : ∀ {t : Set Item}, t ⊆ s.active \ heldItems c (a, tapCount) →
      t ⊆ s.active \ heldItems c (a, tapCount) ∪ keptItems c w false (a, tapCount) :=
    fun h => h.trans Set.subset_union_left
  have hnone : heldItems c (a, tapCount) = ∅ →
      s.active ⊆ s.active \ heldItems c (a, tapCount) := by
    intro h
    rw [h, Set.sdiff_empty]
  unfold processAction
  cases hkind : a.kind with
  | lmods => exact hheld (by simpa only [heldItems, hkind] using active_processMods_release)
  | rmods => exact hheld (by simpa only [heldItems, hkind] using active_processMods_release)
  | lmodsTap => exact hheld (by simpa only [heldItems, hkind] using active_processModsTap_release)
  | rmodsTap => exact hheld (by simpa only [heldItems, hkind] using active_processModsTap_release)
  | usage => exact hheld (active_processUsage_release hkind)
  | layer =>
    refine (active_processLayer hkind).trans (Set.union_subset_union_left _ (hnone ?_))
    simp only [heldItems, hkind]
  | layerMods =>
    exact hheld (by simpa only [heldItems, hkind] using active_processLayerMods_release)
  | layerTap => simpa only [heldItems, keptItems, hkind] using active_processLayerTap_release
  | layerTapExt => simpa only [heldItems, keptItems, hkind] using active_processLayerTap_release
  | mousekey => exact hheld (hnone (by simp only [heldItems, hkind]))
  | swapHands => exact hheld (hnone (by simp only [heldItems, hkind]))
  | other => exact hheld (hnone (by simp only [heldItems, hkind]))

end Actions

section Sent

variable {f : Form} {w : ℕ} {s t : State f w} {c : Config} {pressed : Bool} {tapCount : ℕ}
  {a : Action} {mods code : BitVec 8} {right : Bool}

/-- The host has the report as it is. -/
def State.Synced (s : State f w) : Prop := s.lastReport = s.report

/-- The report is sent after its last change, if it changes at all. -/
def SentSince (s t : State f w) : Prop :=
  t.Synced ∨ t.report = s.report ∧ t.lastReport = s.lastReport

theorem SentSince.trans {u : State f w} (h : SentSince s t) (h' : SentSince t u) :
    SentSince s u := by
  rcases h' with hsync | ⟨hreport, hlast⟩
  · exact .inl hsync
  · rcases h with hsync | ⟨hreport', hlast'⟩
    · exact .inl (hlast.trans (hsync.trans hreport.symm))
    · exact .inr ⟨hreport.trans hreport', hlast.trans hlast'⟩

theorem SentSince.refl (s : State f w) : SentSince s s := .inr ⟨rfl, rfl⟩

theorem SentSince.synced (h : SentSince s t) (hs : s.Synced) : t.Synced := by
  rcases h with hsync | ⟨hreport, hlast⟩
  · exact hsync
  · exact hlast.trans (hs.trans hreport.symm)

theorem synced_sendKeyboardReport : (sendKeyboardReport s).Synced := by
  unfold sendKeyboardReport
  by_cases h : s.report ≠ s.lastReport
  · rw [if_pos h]
    rfl
  · rw [if_neg h]
    exact (not_not.mp h).symm

theorem sentSince_registerCode : SentSince s (registerCode code s) := by
  unfold registerCode
  split_ifs
  · exact .inl synced_sendKeyboardReport
  · exact .inl synced_sendKeyboardReport
  · exact .inr ⟨rfl, rfl⟩
  · exact .inr ⟨rfl, rfl⟩
  · exact .refl s

theorem sentSince_unregisterCode : SentSince s (unregisterCode code s) := by
  unfold unregisterCode
  split_ifs
  · exact .inl synced_sendKeyboardReport
  · exact .inl synced_sendKeyboardReport
  · exact .inr ⟨rfl, rfl⟩
  · exact .inr ⟨rfl, rfl⟩
  · exact .refl s

theorem sentSince_registerMods : SentSince s (registerMods mods s) := by
  unfold registerMods
  split_ifs
  · exact .inl synced_sendKeyboardReport
  · exact .refl s

theorem sentSince_unregisterMods : SentSince s (unregisterMods mods s) := by
  unfold unregisterMods
  split_ifs
  · exact .inl synced_sendKeyboardReport
  · exact .refl s

theorem sentSince_layerStateSet (state : BitVec w) : SentSince s (layerStateSet state s) :=
  .inr ⟨rfl, rfl⟩

theorem sentSince_processMods : SentSince s (processMods pressed a right s) := by
  unfold processMods
  cases pressed with
  | true =>
    simp only [if_true]
    refine SentSince.trans ?_ sentSince_registerCode
    split_ifs
    · exact .inl synced_sendKeyboardReport
    · exact .inl synced_sendKeyboardReport
    · exact .refl s
  | false =>
    simp only [Bool.false_eq_true, if_false]
    split_ifs
    · exact .inl synced_sendKeyboardReport
    · exact .inl synced_sendKeyboardReport
    · exact sentSince_unregisterCode

theorem sentSince_processModsTap : SentSince s (processModsTap c pressed tapCount a right s) := by
  unfold processModsTap
  split_ifs
  all_goals first
    | exact .refl s
    | exact sentSince_registerMods
    | exact sentSince_unregisterMods
    | exact sentSince_registerCode
    | exact sentSince_unregisterCode

theorem sentSince_processLayerMods : SentSince s (processLayerMods pressed a s) := by
  unfold processLayerMods
  split_ifs
  · exact (sentSince_layerStateSet _).trans sentSince_registerMods
  · exact sentSince_unregisterMods.trans (sentSince_layerStateSet _)

theorem sentSince_processLayerTap : SentSince s (processLayerTap c pressed tapCount a s) := by
  unfold processLayerTap
  split_ifs
  all_goals first
    | exact .refl s
    | exact sentSince_layerStateSet _
    | exact sentSince_registerCode
    | exact sentSince_unregisterCode

theorem sentSince_processAction : SentSince s (processAction c pressed tapCount a s) := by
  unfold processAction
  cases a.kind with
  | lmods => exact sentSince_processMods
  | rmods => exact sentSince_processMods
  | lmodsTap => exact sentSince_processModsTap
  | rmodsTap => exact sentSince_processModsTap
  | usage =>
    unfold processUsage
    dsimp only
    split_ifs <;> exact .inr ⟨rfl, rfl⟩
  | layer =>
    unfold processLayer
    dsimp only
    split_ifs <;> exact .inr ⟨rfl, rfl⟩
  | layerMods => exact sentSince_processLayerMods
  | layerTap => exact sentSince_processLayerTap
  | layerTapExt => exact sentSince_processLayerTap
  | mousekey => exact .refl s
  | swapHands => exact .refl s
  | other => exact .refl s

theorem of_mem_keptItems {i : Item} (h : i ∈ keptItems c w pressed (a, tapCount)) :
    (∃ bit, i = .mod bit) ∨ ∃ layer, i = .layer layer := by
  have htoggle : ∀ right, i ∈ keptItems.toggleItems c pressed (a, tapCount) right →
      ∃ bit, i = .mod bit := by
    intro right h
    unfold keptItems.toggleItems at h
    split_ifs at h
    · obtain ⟨bit, hi, -⟩ := h
      exact ⟨bit, hi⟩
    · exact absurd h (Set.notMem_empty i)
  have hlayers : i ∈ keptItems.toggledLayers c pressed (a, tapCount) →
      ∃ layer, i = .layer layer := by
    intro h
    unfold keptItems.toggledLayers at h
    split_ifs at h
    all_goals first
      | exact ⟨a.val, h⟩
      | exact absurd h (Set.notMem_empty i)
  unfold keptItems at h
  dsimp only at h
  cases hkind : a.kind <;> rw [hkind] at h
  case lmodsTap => exact .inl (htoggle false h)
  case rmodsTap => exact .inl (htoggle true h)
  case layer =>
    obtain ⟨-, layer, hi, -⟩ := (Set.mem_ite_empty_right _ _ _).mp h
    exact .inr ⟨layer, hi⟩
  case layerTap => exact .inr (hlayers h)
  case layerTapExt => exact .inr (hlayers h)
  all_goals exact absurd h (Set.notMem_empty i)

theorem weakMod_notMem_codeItems {bit : ℕ} : .weakMod bit ∉ codeItems code := by
  unfold codeItems
  split_ifs <;> simp [modItems]

theorem weakMod_notMem_modItems {bit : ℕ} : .weakMod bit ∉ modItems mods := by
  simp [modItems]

theorem synced_of_weakMod {bit : ℕ} (h : .weakMod bit ∈ heldItems c (a, tapCount)) :
    (processAction c false tapCount a s).Synced := by
  have hmods : ∀ right, .weakMod bit ∈ heldItems.modsItems (a, tapCount) right →
      (processMods false a right s).Synced := by
    intro right h
    unfold heldItems.modsItems at h
    rcases h with h | h
    · exact absurd h weakMod_notMem_codeItems
    · split_ifs at h with hstrong
      · exact absurd h weakMod_notMem_modItems
      · obtain ⟨_, hbit, hmod⟩ := h
        have hne : a.mods right ≠ 0 := by
          intro hzero
          rw [hzero] at hmod
          exact absurd (BitVec.getLsbD_zero.symm.trans hmod) Bool.false_ne_true
        simp only [processMods, hne, if_true, Bool.false_eq_true, if_false, ne_eq,
          not_false_eq_true]
        exact synced_sendKeyboardReport
  have htap : ∀ right, .weakMod bit ∉ heldItems.modsTapItems c (a, tapCount) right := by
    intro right
    unfold heldItems.modsTapItems
    split_ifs <;> simp [modItems, weakMod_notMem_codeItems]
  have hlayer : .weakMod bit ∉ heldItems.layerTapItems c (a, tapCount) := by
    unfold heldItems.layerTapItems
    split_ifs <;> simp [weakMod_notMem_codeItems]
  unfold heldItems at h
  unfold processAction
  dsimp only at h
  cases hkind : a.kind <;> rw [hkind] at h
  case lmods => exact hmods false h
  case rmods => exact hmods true h
  case lmodsTap => exact absurd h (htap false)
  case rmodsTap => exact absurd h (htap true)
  case usage =>
    dsimp only at h
    split_ifs at h <;> simp at h
  case layerMods =>
    rcases h with h | h
    · exact absurd h weakMod_notMem_modItems
    · exact absurd h (by simp)
  case layerTap => exact absurd h hlayer
  case layerTapExt => exact absurd h hlayer
  all_goals exact absurd h (Set.notMem_empty _)

end Sent

end Qmk.Keyboard
