import Qmk.Keyboard.Footprint
import Qmk.SourceLayers

/-! # No key is left active

The records of the keys of the matrix, each of which is pressed and released in turn, on a keymap
with layers. The layer of a press is kept for the release, so that a release undoes what its press
has done, whatever becomes of the layers and the other keys in between.
-/

namespace Qmk.Keyboard

open HeldKeys SourceLayers

section Model

/-- The keymap, with `MAX_LAYER_BITS`, and what is configured. -/
structure Keymap (l : Layout) extends Config where
  bits : ℕ
  bits_le : bits ≤ 5
  keycodeAt : ℕ → ℕ → ℕ → BitVec 16

abbrev Key (l : Layout) := Fin l.rows × Fin l.cols

variable {l : Layout}

/-- `MAX_LAYER`, the number of bits of a layer state. -/
def Keymap.layers (km : Keymap l) : ℕ := 2 ^ km.bits

/-- The statics of the actions and the source layers cache. -/
structure Board (km : Keymap l) (f : Form) extends State f km.layers where
  caches : Caches l km.bits := ⟨fun _ _ => 0, fun _ _ => 0⟩

variable (km : Keymap l) {f : Form}

def actionForKey (layer : ℕ) (key : Key l) : Action :=
  actionForKeycode km.toConfig (km.keycodeAt layer key.1 key.2)

def layerSwitchGetLayer (key : Key l) (s : State f km.layers) : ℕ :=
  let layers := s.layerState ||| s.defaultLayerState
  ((List.range km.layers).reverse.find? fun i =>
    decide (layers &&& bitMask km.layers i ≠ 0) &&
      decide (actionForKey km i key ≠ ACTION_TRANSPARENT)).getD 0

def cachedAction (s : Board km f) (key : Key l) : Action :=
  actionForKey km (readSourceLayersCache l key.1 key.2 s.caches).toNat key

def storeOrGetAction (pressed : Bool) (key : Key l) (s : Board km f) : Action × Board km f :=
  if pressed then
    let layer := layerSwitchGetLayer km key s.toState
    (actionForKey km layer key,
      { s with caches := updateSourceLayersCache l key.1 key.2 (.ofNat 8 layer) s.caches })
  else (cachedAction km s key, s)

abbrev Record (l : Layout) := Event (Key l) ℕ

def processRecord (r : Record l) (s : Board km f) : Board km f :=
  let (action, s) := storeOrGetAction km r.pressed r.key s
  { s with toState := processAction km.toConfig r.pressed r.what action s.toState }

/-- A record is processed; `action_exec` clears the weak modifiers for an event that is pressed,
whose record may wait for a while; or another feature sets the layers. -/
inductive Input
  | record (r : Record l)
  | pressEvent
  | setLayers (layers default : BitVec km.layers)
  deriving DecidableEq

variable {km}

def Input.record? : Input km → Option (Record l)
  | .record r => some r
  | .pressEvent | .setLayers .. => none

def step (s : Board km f) : Input km → Board km f
  | .record r => processRecord km r s
  | .pressEvent => { s with toState := clearWeakMods s.toState }
  | .setLayers layers default =>
    { s with toState := defaultLayerStateSet default (layerStateSet layers s.toState) }

def run (f : Form) (inputs : List (Input km)) : Board km f := inputs.foldl step {}

/-- The records among the inputs. -/
def records (inputs : List (Input km)) : List (Record l) := inputs.filterMap Input.record?

end Model

section Layers

variable {l : Layout} {km : Keymap l} {f : Form} {s : Board km f} {key other : Key l}

theorem layerSwitchGetLayer_lt : layerSwitchGetLayer km key s.toState < km.layers := by
  unfold layerSwitchGetLayer
  dsimp only
  cases hfind : List.find? _ (List.range km.layers).reverse with
  | none => exact Nat.two_pow_pos _
  | some layer =>
    have hmem := List.mem_of_find?_eq_some hfind
    rwa [List.mem_reverse, List.mem_range] at hmem

theorem slot_eq_iff :
    slot l other.1 other.2 = slot l key.1 key.2 ∧ (slot l key.1 key.2).isSome ↔ other = key := by
  have hkey : key.1.val < l.rows ∧ key.2.val < l.cols := ⟨key.1.isLt, key.2.isLt⟩
  constructor
  · rintro ⟨h, -⟩
    obtain ⟨hrow, hcol⟩ := slot_inj ⟨other.1.isLt, other.2.isLt⟩ hkey h
    exact Prod.ext (Fin.ext hrow) (Fin.ext hcol)
  · rintro rfl
    refine ⟨rfl, ?_⟩
    rw [slot, dif_pos hkey]
    rfl

theorem cachedAction_store :
    cachedAction km (storeOrGetAction km true key s).2 other =
      if other = key then (storeOrGetAction km true key s).1 else cachedAction km s other := by
  have hlt : layerSwitchGetLayer km key s.toState < 2 ^ km.bits := layerSwitchGetLayer_lt
  have hbits : 2 ^ km.bits ≤ 2 ^ 5 := Nat.pow_le_pow_right (by decide) km.bits_le
  simp only [cachedAction, storeOrGetAction, if_true, read_update_position, slot_eq_iff]
  by_cases hother : other = key
  · subst hother
    have hlayer : layerSwitchGetLayer km other s.toState % 2 ^ 8 % 2 ^ km.bits =
        layerSwitchGetLayer km other s.toState := by
      rw [Nat.mod_eq_of_lt (b := 2 ^ 8) (by omega), Nat.mod_eq_of_lt hlt]
    rw [if_pos rfl, if_pos rfl, BitVec.toNat_ofNat, hlayer]
  · rw [if_neg hother, if_neg hother]

/-- The keys that are down, each with its action and its tap count. -/
def heldActions (s : Board km f) (down : List (Key l × ℕ)) : List (Key l × (Action × ℕ)) :=
  down.map fun p => (p.1, (cachedAction km s p.1, p.2))

def resolve (s : Board km f) (r : Record l) : Event (Key l) (Action × ℕ) where
  key := r.key
  what := ((storeOrGetAction km r.pressed r.key s).1, r.what)
  pressed := r.pressed

@[simp]
theorem caches_processRecord (r : Record l) :
    (processRecord km r s).caches = (storeOrGetAction km r.pressed r.key s).2.caches := rfl

theorem cachedAction_congr {t : Board km f} (h : t.caches = s.caches) :
    cachedAction km t = cachedAction km s := by
  unfold cachedAction
  rw [h]

theorem heldActions_congr {t : Board km f} (h : t.caches = s.caches) (down : List (Key l × ℕ)) :
    heldActions t down = heldActions s down := by
  unfold heldActions
  rw [cachedAction_congr h]

theorem heldActions_processRecord {r : Record l} {down : List (Key l × ℕ)}
    (hfollows : Follows down r) :
    heldActions (processRecord km r s) (heldAfter down r) =
      heldAfter (heldActions s down) (resolve s r) := by
  rw [heldActions_congr (caches_processRecord r)]
  by_cases hp : r.pressed = true
  · rw [Follows, if_pos hp] at hfollows
    have hpress : (resolve s r).pressed = true := hp
    rw [heldAfter_press hp, heldAfter_press hpress, heldActions, List.map_cons, hp,
      cachedAction_store, if_pos rfl]
    refine congrArg₂ _ (by rw [resolve, hp]) (List.map_congr_left fun p hdown => ?_)
    rw [cachedAction_store, if_neg (hfollows p hdown)]
  · have hrelease : ¬ (resolve s r).pressed = true := hp
    have hinj : Function.Injective fun p : Key l × ℕ => (p.1, (cachedAction km s p.1, p.2)) := by
      rintro ⟨key, tap⟩ ⟨key', tap'⟩ h
      simp_all
    have hsame : storeOrGetAction km r.pressed r.key s = (cachedAction km s r.key, s) := by
      rw [storeOrGetAction, if_neg hp]
    rw [hsame]
    refine (heldAfter_map hinj ?_ hp hrelease).symm
    rw [resolve, hsame]

end Layers

section Runs

variable {l : Layout} {km : Keymap l} {f : Form}

/-- What an input turns on and leaves active without a key that holds it. -/
def Input.kept (s : Board km f) : Input km → Set Item
  | .record r => keptItems km.toConfig km.layers r.pressed (resolve s r).what
  | .pressEvent => ∅
  | .setLayers layers _ => layerItems layers

/-- What an input of the run has kept, and what has been active ever since. -/
def keptSince (f : Form) (inputs : List (Input km)) : Set Item :=
  {i | ∃ before input, before ++ [input] <+: inputs ∧ i ∈ input.kept (run f before) ∧
    ∀ later, before ++ [input] <+: later → later <+: inputs → i ∈ (run f later).active}

variable (km) in
/-- What is active belongs to the keys that are down or to `others`; and the host knows the report,
or a key is down whose release will send it. -/
structure Tracks (others : Set Item) (down : List (Key l × ℕ)) (s : Board km f) : Prop where
  active : s.active ⊆ owned (heldItems km.toConfig) (heldActions s down) ∪ others
  sent : s.Synced ∨ ∃ p ∈ heldActions s down, ∃ bit, .weakMod bit ∈ heldItems km.toConfig p.2

variable {s : Board km f} {down : List (Key l × ℕ)} {r : Record l} {others : Set Item}

theorem toState_storeOrGetAction (pressed : Bool) (key : Key l) :
    (storeOrGetAction km pressed key s).2.toState = s.toState := by
  unfold storeOrGetAction
  split_ifs <;> rfl

theorem toState_processRecord (r : Record l) : (processRecord km r s).toState =
    processAction km.toConfig r.pressed r.what (resolve s r).what.1 s.toState := by
  change processAction _ _ _ _ (storeOrGetAction km r.pressed r.key s).2.toState = _
  rw [toState_storeOrGetAction]
  rfl

theorem of_mem_kept {input : Input km} {i : Item} (h : i ∈ input.kept s) :
    (∃ bit, i = .mod bit) ∨ ∃ layer, i = .layer layer := by
  cases input with
  | record r => exact of_mem_keptItems h
  | pressEvent => exact absurd h (Set.notMem_empty i)
  | setLayers layers default =>
    obtain ⟨layer, hi, -⟩ := h
    exact .inr ⟨layer, hi⟩

theorem of_mem_keptSince {inputs : List (Input km)} {i : Item} (h : i ∈ keptSince f inputs) :
    (∃ bit, i = .mod bit) ∨ ∃ layer, i = .layer layer := by
  obtain ⟨before, input, -, hkept, -⟩ := h
  exact of_mem_kept hkept

theorem run_append (inputs : List (Input km)) (input : Input km) :
    run f (inputs ++ [input]) = step (run f inputs) input := by
  simp [run]

theorem keptSince_append (inputs : List (Input km)) (input : Input km) :
    (keptSince f inputs ∪ input.kept (run f inputs)) ∩ (run f (inputs ++ [input])).active ⊆
      keptSince f (inputs ++ [input]) := by
  rintro i ⟨⟨before, earlier, hprefix, hkept, hsince⟩ | hkept, hactive⟩
  · refine ⟨before, earlier, hprefix.trans (List.prefix_append ..), hkept, ?_⟩
    intro later hfrom hto
    rcases List.prefix_concat_iff.mp hto with rfl | hto
    · exact hactive
    · exact hsince later hfrom hto
  · refine ⟨inputs, input, List.prefix_refl _, hkept, fun later hfrom hto => ?_⟩
    have heq : later = inputs ++ [input] := hto.eq_of_length_le hfrom.length_le
    rwa [heq]

theorem tracks_start : Tracks km others [] ({} : Board km f) := by
  refine ⟨?_, .inl (by simp [State.Synced, State.report])⟩
  rintro (code | bit | bit | usage | usage | layer) h
  case key => exact absurd h (Bool.eq_false_iff.mp (f.shows_start code))
  case system => exact absurd h.2.symm h.1
  case consumer => exact absurd h.2.symm h.1
  all_goals exact absurd (BitVec.getLsbD_zero.symm.trans h) Bool.false_ne_true

theorem Tracks.restrict {others' : Set Item} (h : Tracks km others down s)
    (hsub : others ∩ s.active ⊆ others') : Tracks km others' down s :=
  ⟨fun _ hi => (h.active hi).imp_right fun hother => hsub ⟨hother, hi⟩, h.sent⟩

theorem Tracks.record (h : Tracks km others down s) (hfollows : Follows down r) :
    Tracks km (others ∪ Input.kept s (.record r)) (heldAfter down r) (processRecord km r s) := by
  have hkept : keptItems km.toConfig km.layers r.pressed (resolve s r).what ⊆
      others ∪ Input.kept s (.record r) :=
    Set.subset_union_right
  constructor
  · rw [heldActions_processRecord hfollows, toState_processRecord]
    have hactive := h.active.trans
      (Set.union_subset_union_right _ (Set.subset_union_left (t := Input.kept s (.record r))))
    refine active_subset_owned hactive (fun hp => ?_) fun hp => ?_
    · rw [show r.pressed = true from hp] at hkept ⊢
      exact active_processAction_press.trans (Set.union_subset_union_right _ hkept)
    · rw [show r.pressed = false from Bool.eq_false_iff.mpr hp] at hkept ⊢
      exact active_processAction_release.trans (Set.union_subset_union_right _ hkept)
  · rw [heldActions_processRecord hfollows, toState_processRecord]
    rcases h.sent with hsync | ⟨p, hp, bit, hbit⟩
    · exact .inl (sentSince_processAction.synced hsync)
    · by_cases hpress : r.pressed = true
      · refine .inr ⟨p, ?_, bit, hbit⟩
        rw [show heldAfter _ (resolve s r) = _ from heldAfter_press hpress]
        exact List.mem_cons_of_mem _ hp
      · by_cases hsame : p = ((resolve s r).key, (resolve s r).what)
        · left
          rw [Bool.eq_false_iff.mpr hpress]
          exact synced_of_weakMod (hsame ▸ hbit)
        · exact .inr ⟨p, mem_heldAfter hp hsame, bit, hbit⟩

theorem Tracks.pressEvent (h : Tracks km others down s) (hweak : ∀ bit, .weakMod bit ∉ others) :
    Tracks km others down (step s .pressEvent) := by
  constructor
  · exact active_clearWeakMods.trans h.active
  · rcases h.sent with hsync | hdown
    · by_cases hzero : s.weakMods = 0
      · have hsame : clearWeakMods s.toState = s.toState := by
          unfold clearWeakMods
          rw [← hzero]
        exact .inl (show (clearWeakMods s.toState).Synced from hsame ▸ hsync)
      · obtain ⟨bit, hbit⟩ : ∃ bit, s.weakMods.getLsbD bit = true := by
          by_contra hnone
          refine hzero (BitVec.eq_of_getLsbD_eq fun bit _ => ?_)
          rw [Bool.eq_false_iff.mpr fun hbit => hnone ⟨bit, hbit⟩]
          exact BitVec.getLsbD_zero.symm
        rcases h.active (a := .weakMod bit) hbit with ⟨p, hp, hitem⟩ | hother
        · exact .inr ⟨p, hp, bit, hitem⟩
        · exact absurd hother (hweak bit)
    · exact .inr hdown

theorem Tracks.setLayers {layers default : BitVec km.layers} (h : Tracks km others down s) :
    Tracks km (others ∪ layerItems layers) down (step s (.setLayers layers default)) := by
  refine ⟨?_, h.sent⟩
  rintro (_ | _ | _ | _ | _ | layer) hi
  case layer => exact .inr (.inr ⟨layer, rfl, hi⟩)
  all_goals exact (h.active hi).imp_right .inl

theorem records_append (inputs : List (Input km)) (input : Input km) :
    records (inputs ++ [input]) = records inputs ++ input.record?.toList := by
  cases input <;> simp [records, Input.record?]

theorem tracks_run {inputs : List (Input km)} (halt : Alternates (records inputs)) :
    Tracks km (keptSince f inputs) (held (records inputs)) (run f inputs) := by
  induction inputs using List.reverseRecOn with
  | nil => exact tracks_start
  | append_singleton inputs input ih =>
    have hkept := keptSince_append (f := f) inputs input
    rw [run_append] at hkept ⊢
    rw [records_append] at halt ⊢
    cases input with
    | record r =>
      obtain ⟨hbefore, hfollows⟩ := alternates_append.mp halt
      rw [Input.record?, Option.toList_some, held_append]
      exact ((ih hbefore).record hfollows).restrict hkept
    | pressEvent =>
      rw [Input.record?, Option.toList_none, List.append_nil] at halt ⊢
      have hweak : ∀ bit, .weakMod bit ∉ keptSince f inputs := by
        intro bit h
        rcases of_mem_keptSince h with ⟨_, h⟩ | ⟨_, h⟩ <;> cases h
      refine ((ih halt).pressEvent hweak).restrict fun i hi => hkept ⟨.inl hi.1, hi.2⟩
    | setLayers layers default =>
      rw [Input.record?, Option.toList_none, List.append_nil] at halt ⊢
      exact (ih halt).setLayers.restrict hkept

/-- With all keys up the host has nothing but modifiers that are locked. -/
theorem Tracks.silent {inputs : List (Input km)} (h : Tracks km (keptSince f inputs) [] s)
    (hmods : ∀ bit, .mod bit ∉ keptSince f inputs) :
    s.lastReport.1 = 0 ∧ (∀ code, f.shows code s.lastReport.2 = false) ∧
      s.lastSystemUsage = 0 ∧ s.lastConsumerUsage = 0 := by
  have hother : ∀ i, i ∈ s.active → i ∈ keptSince f inputs := by
    intro i hi
    rcases h.active hi with ⟨p, hp, -⟩ | hi
    · exact absurd hp List.not_mem_nil
    · exact hi
  have hnone : ∀ i, (∀ bit, i ≠ .mod bit) → (∀ layer, i ≠ .layer layer) → i ∉ s.active := by
    intro i hmod hlayer hi
    rcases of_mem_keptSince (hother i hi) with ⟨bit, h⟩ | ⟨layer, h⟩
    · exact hmod bit h
    · exact hlayer layer h
  have hsync : s.Synced := by
    rcases h.sent with hsync | ⟨p, hp, -⟩
    · exact hsync
    · exact absurd hp List.not_mem_nil
  have hbits : ∀ x : BitVec 8, (∀ bit, x.getLsbD bit ≠ true) → x = 0 := by
    intro x hx
    refine BitVec.eq_of_getLsbD_eq fun bit _ => ?_
    exact (Bool.eq_false_iff.mpr (hx bit)).trans BitVec.getLsbD_zero.symm
  have hreal : s.realMods = 0 := hbits _ fun bit hbit => hmods bit (hother _ hbit)
  have hweak : s.weakMods = 0 := hbits _ fun bit hbit => hnone (.weakMod bit) nofun nofun hbit
  rw [hsync]
  refine ⟨by simp [State.report, hreal, hweak], fun code => ?_, ?_, ?_⟩
  · exact Bool.eq_false_iff.mpr fun hkey => hnone (.key code) nofun nofun hkey
  · by_contra husage
    exact hnone (.system s.lastSystemUsage) nofun nofun ⟨husage, rfl⟩
  · by_contra husage
    exact hnone (.consumer s.lastConsumerUsage) nofun nofun ⟨husage, rfl⟩

def oneByTwo : SourceLayers.Layout := ⟨1, 2, 0, false, by decide⟩

/-- `MO(1)` and a key that is `A` on layer 0 and `!` on layer 1. -/
def twoKeys : Keymap oneByTwo where
  bits := 3
  bits_le := by decide
  keycodeAt layer _ col := if col = 0 then 0x5221 else if layer = 0 then 0x04 else 0x021E

/-- The layer key is released first. -/
def rollOff : List (Input twoKeys) :=
  let key (col : Fin 2) : Key oneByTwo := (⟨0, Nat.one_pos⟩, col)
  [.pressEvent, .record ⟨key ⟨0, Nat.two_pos⟩, 0, true⟩, .pressEvent,
    .record ⟨key ⟨1, Nat.one_lt_two⟩, 0, true⟩, .record ⟨key ⟨0, Nat.two_pos⟩, 0, false⟩]

example : (run .sixKeys rollOff).lastReport.1 = 0x02 ∧
    Form.sixKeys.shows ⟨0x1E, by decide⟩ (run .sixKeys rollOff).lastReport.2 = true := by
  decide +kernel

end Runs

end Qmk.Keyboard
