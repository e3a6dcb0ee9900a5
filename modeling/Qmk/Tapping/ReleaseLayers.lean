import Qmk.SourceLayers
import Qmk.Tapping.SettledTaps

/-! # The layer of a release

A key is looked up in the layers when its press arrives and again when the press is
processed, and each time the layer goes to the source layer cache, from which the
release takes it. The cache has one entry for a key, so a press that arrives while
the release of the press before still waits in the buffer changes the layer of that
release.
-/

namespace Qmk.Tapping

open SourceLayers

section Model

/-- A layer of `layer_switch_get_layer`, which is below `MAX_LAYER`. -/
abbrev Layer (bits : ℕ) := {layer : BitVec 8 // layer.toNat < 2 ^ bits}

/-- What `layer_switch_get_layer` answers for a key while an event is processed: when the event
arrives, when `process_record_quantum` looks up a keycode and, unless one of the handlers there has
ended the processing, after them. Any feature may have changed the layers in between. -/
structure LayerAnswers (bits : ℕ) where
  preProcess : List Effect → Keypos → Layer bits
  quantum : List Effect → Keypos → Layer bits
  handled : List Effect → Keypos → Option (Layer bits)

structure LayerInput (bits : ℕ) extends Input where
  layers : LayerAnswers bits

/-- What a record has been resolved from: the layer of its keycode and, if it was not ended by a
handler, the layer of its action. -/
structure Resolved where
  record : Keyrecord
  madeUp : Bool
  keycodeLayer : ℕ
  actionLayer : Option ℕ
  deriving DecidableEq, Repr

variable (l : Layout) {bits : ℕ}

def cachedLayer (key : Keypos) (c : Caches l bits) : ℕ :=
  (readSourceLayersCache l key.row.toNat key.col.toNat c).toNat

/-- The layer that a press resolves to goes to the cache; a release takes it from there. -/
def resolveLayer (pressed : Bool) (key : Keypos) (layer : Layer bits) (c : Caches l bits) :
    ℕ × Caches l bits :=
  if pressed then
    (layer.val.toNat, updateSourceLayersCache l key.row.toNat key.col.toNat layer.val c)
  else (cachedLayer l key c, c)

/-- The layer that `get_event_keycode` calls `keymap_key_to_keycode` with, when it may update the
cache. -/
def getEventKeycode (event : Keyevent) (layer : Layer bits) (c : Caches l bits) :
    ℕ × Caches l bits :=
  resolveLayer l event.pressed event.key layer c

/-- The layer that `store_or_get_action` calls `action_for_key` with. -/
def storeOrGetAction (pressed : Bool) (key : Keypos) (layer : Layer bits) (c : Caches l bits) :
    ℕ × Caches l bits :=
  resolveLayer l pressed key layer c

/-- The caches, and what the records given to `process_record` have been resolved from. -/
structure Resolutions (bits : ℕ) where
  caches : Caches l bits := ⟨fun _ _ => 0, fun _ _ => 0⟩
  resolved : List Resolved := []

variable {l}

/-- The look-ups of a call of `process_record`, after the effects `before`. -/
def Resolutions.processRecord (a : LayerAnswers bits) (before : List Effect) (r : Keyrecord)
    (madeUp : Bool) (s : Resolutions l bits) : Resolutions l bits :=
  let keycode := getEventKeycode l r.event (a.quantum before r.event.key) s.caches
  match a.handled before r.event.key with
  | none => ⟨keycode.2, s.resolved ++ [⟨r, madeUp, keycode.1, none⟩]⟩
  | some layer =>
    let action := storeOrGetAction l r.event.pressed r.event.key layer keycode.2
    ⟨action.2, s.resolved ++ [⟨r, madeUp, keycode.1, some action.1⟩]⟩

def Resolutions.follow (a : LayerAnswers bits) (before : List Effect) (effect : Effect)
    (s : Resolutions l bits) : Resolutions l bits :=
  match effect with
  | .processRecord r => s.processRecord a before r false
  | .unregister r => s.processRecord a before r true
  | .registerTap _ | .clearKeyboard => s

/-- The look-ups of all calls that have left the engine after the effects `before`. -/
def Resolutions.followAll (a : LayerAnswers bits) :
    List Effect → List Effect → Resolutions l bits → Resolutions l bits
  | _, [], s => s
  | before, effect :: effects, s =>
    followAll a (before ++ [effect]) effects (s.follow a before effect)

structure Pipeline (l : Layout) (bits : ℕ) extends Resolutions l bits where
  engine : Engine := {}

/-- The look-up of `pre_process_record_quantum`. -/
def preProcessRecord (i : LayerInput bits) (p : Pipeline l bits) : Caches l bits :=
  if i.event.isNoevent then p.caches
  else (getEventKeycode l i.event (i.layers.preProcess p.engine.effects i.event.key) p.caches).2

/-- `action_exec`, with no combos and with `pre_process_record_kb` as it is by default. -/
def actionExec (f : Features) (p : Pipeline l bits) (i : LayerInput bits) : Pipeline l bits :=
  let engine := step f p.engine i.toInput
  -- The engine sees the layers through its decisions only, so the look-ups may follow it.
  let effects := engine.effects.drop p.engine.effects.length
  let s : Resolutions l bits := ⟨preProcessRecord i p, p.resolved⟩
  { toResolutions := s.followAll i.layers p.engine.effects effects, engine := engine }

def execAll (l : Layout) (f : Features) (inputs : List (LayerInput bits)) : Pipeline l bits :=
  inputs.foldl (actionExec f) {}

end Model

section Condition

variable {l : Layout} {bits : ℕ}

def InMatrix (l : Layout) (k : Keypos) : Prop := k.row.toNat < l.rows ∧ k.col.toNat < l.cols

instance (l : Layout) (k : Keypos) : Decidable (InMatrix l k) :=
  inferInstanceAs (Decidable (_ ∧ _))

/-- Keycode and action of a record are resolved from one layer, and those of a release from the
layer of its press; the state is the layer of the press that is open. A release that the engine
makes up leaves the press open. -/
def sameLayer (k : Keypos) : Monitor Resolved (Option ℕ) where
  next opened r :=
    if r.record.event.key ≠ k ∨ r.madeUp then opened
    else if r.record.event.pressed then some r.keycodeLayer else none
  ok opened r :=
    r.record.event.key = k → (∀ layer ∈ r.actionLayer, layer = r.keycodeLayer) ∧
      opened = if r.record.event.pressed then none else some r.keycodeLayer

instance (k : Keypos) (opened : Option ℕ) (r : Resolved) : Decidable ((sameLayer k).ok opened r) :=
  inferInstanceAs (Decidable (_ → _))

/-- Every release of a key of the matrix is resolved from the layer of its press. -/
structure LayersAgree (l : Layout) (f : Features) (inputs : List (LayerInput bits)) : Prop where
  ofKey : ∀ k, InMatrix l k → (sameLayer k).Accepts none (execAll l f inputs).resolved

/-- The press of the key has been processed, and its release waits in the buffer. -/
def releaseWaits (k : Keypos) (s : Engine) : Bool :=
  (keyed k s.pending).head?.any fun r => !r.event.pressed

/-- A press that arrives while a release of its key waits resolves to the layer in the cache. -/
def arrivalKeepsLayer (i : LayerInput bits) (p : Pipeline l bits) : Bool :=
  i.event.isNoevent || !i.event.pressed || !releaseWaits i.event.key p.engine ||
    (i.layers.preProcess p.engine.effects i.event.key).val.toNat ==
      cachedLayer l i.event.key p.caches

/-- The handlers that pass a press on leave the layer that its key resolves to. -/
def handlersKeepLayer (a : LayerAnswers bits) : List Effect → List Effect → Bool
  | _, [] => true
  | before, effect :: effects =>
    (match effect with
      | .processRecord r => !r.event.pressed ||
          (a.handled before r.event.key).all (· = a.quantum before r.event.key)
      | .unregister _ | .registerTap _ | .clearKeyboard => true) &&
    handlersKeepLayer a (before ++ [effect]) effects

/-- The runs in which the events of each key stay in order, and neither an arriving press nor a
handler changes the layer of a key that is down. -/
def layersKept (l : Layout) (bits : ℕ) (f : Features) :
    Monitor (LayerInput bits) (Pipeline l bits) where
  next := actionExec f
  ok p i :=
    ((keysInTurn f).runs f).ok p.engine i.toInput ∧ arrivalKeepsLayer i p = true ∧
      handlersKeepLayer i.layers p.engine.effects
        ((actionExec f p i).engine.effects.drop p.engine.effects.length) = true

instance (f : Features) (p : Pipeline l bits) (i : LayerInput bits) :
    Decidable ((layersKept l bits f).ok p i) :=
  inferInstanceAs (Decidable (_ ∧ _))

end Condition

section Caches

variable {l : Layout} {bits : ℕ} {k key : Keypos} {pressed : Bool} {layer : Layer bits}
  {c : Caches l bits}

theorem slot_eq_position (hk : InMatrix l k) :
    slot l k.row.toNat k.col.toNat = slot l key.row.toNat key.col.toNat ∧
      (slot l key.row.toNat key.col.toNat).isSome ↔ key = k := by
  constructor
  · rintro ⟨heq, -⟩
    have hkey : InMatrix l key := by
      by_contra hnot
      rw [InMatrix] at hk hnot
      simp only [slot, dif_pos hk, dif_neg hnot] at heq
      split_ifs at heq
      cases heq
    obtain ⟨hrow, hcol⟩ := slot_inj hkey hk heq.symm
    obtain ⟨col, row⟩ := key
    obtain ⟨col', row'⟩ := k
    simp_all [UInt8.toNat_inj]
  · rintro rfl
    refine ⟨rfl, ?_⟩
    rw [InMatrix] at hk
    simp [slot, hk]

/-- Only a press changes the cache, and only the layer of its key. -/
theorem cachedLayer_resolveLayer (hk : InMatrix l k) :
    cachedLayer l k (resolveLayer l pressed key layer c).2 =
      if pressed = true ∧ key = k then layer.val.toNat else cachedLayer l k c := by
  cases pressed with
  | false => simp [resolveLayer]
  | true =>
    simp only [resolveLayer, if_true, cachedLayer, read_update_position, slot_eq_position hk,
      true_and, Nat.mod_eq_of_lt layer.property]

theorem resolveLayer_fst : (resolveLayer l pressed key layer c).1 =
    if pressed then layer.val.toNat else cachedLayer l key c := by
  cases pressed <;> rfl

end Caches

section LookUps

variable {l : Layout} {bits : ℕ} {a : LayerAnswers bits} {E es : List Effect} {r : Keyrecord}
  {s : Resolutions l bits} {k : Keypos}

/-- The releases of a key have been resolved from the layers of their presses, and the layer of a
press that is open is in the cache. -/
structure LayerHeld (k : Keypos) (E : List Effect) (s : Resolutions l bits) : Prop where
  accepts : (sameLayer k).Accepts none s.resolved
  held : (sameLayer k).after none s.resolved =
    if isOpen k E then some (cachedLayer l k s.caches) else none

/-- When the handlers keep the layer of a press, all look-ups of a record have the same answer. -/
theorem processRecord_resolved (madeUp : Bool)
    (hkeeps : r.event.pressed = true →
      ∀ layer ∈ a.handled E r.event.key, layer = a.quantum E r.event.key) :
    ∃ x : Resolved, (s.processRecord a E r madeUp).resolved = s.resolved ++ [x] ∧
      x.record = r ∧ x.madeUp = madeUp ∧ (∀ layer ∈ x.actionLayer, layer = x.keycodeLayer) ∧
      (r.event.pressed = false → x.keycodeLayer = cachedLayer l r.event.key s.caches) ∧
      ∀ k, InMatrix l k → cachedLayer l k (s.processRecord a E r madeUp).caches =
        if r.event.pressed = true ∧ r.event.key = k then x.keycodeLayer
        else cachedLayer l k s.caches := by
  simp only [Resolutions.processRecord, getEventKeycode, storeOrGetAction]
  cases hp : r.event.pressed with
  | false =>
    cases a.handled E r.event.key <;>
      exact ⟨_, rfl, rfl, rfl, by simp [resolveLayer], fun _ => rfl,
        fun _ _ => by simp [resolveLayer]⟩
  | true =>
    cases hhandled : a.handled E r.event.key with
    | none =>
      exact ⟨_, rfl, rfl, rfl, nofun, nofun, fun k hk => cachedLayer_resolveLayer hk⟩
    | some layer =>
      obtain rfl := hkeeps hp layer hhandled
      refine ⟨_, rfl, rfl, rfl, by simp [resolveLayer], nofun, fun k hk => ?_⟩
      dsimp only
      rw [cachedLayer_resolveLayer hk, cachedLayer_resolveLayer hk]
      split_ifs <;> rfl

theorem LayerHeld.press_or_release (hk : InMatrix l k) (h : LayerHeld k E s)
    (hturn : r.event.key = k → r.event.pressed = !isOpen k E)
    (hkeeps : r.event.pressed = true →
      ∀ layer ∈ a.handled E r.event.key, layer = a.quantum E r.event.key) :
    LayerHeld k (E ++ [.processRecord r]) (s.processRecord a E r false) := by
  obtain ⟨x, hresolved, rfl, hmadeUp, haction, hrelease, hcache⟩ :=
    processRecord_resolved (s := s) false hkeeps
  constructor
  · rw [hresolved, Monitor.accepts_append]
    refine ⟨h.accepts, fun hkey => ⟨haction, ?_⟩, trivial⟩
    have hopen : isOpen k E = !x.record.event.pressed := by rw [hturn hkey, Bool.not_not]
    rw [h.held, hopen]
    cases hp : x.record.event.pressed with
    | true => rfl
    | false =>
      rw [hrelease hp, hkey]
      rfl
  · rw [hresolved, Monitor.after_append, h.held, hcache k hk, isOpen_processRecord]
    by_cases hkey : x.record.event.key = k
    · cases hp : x.record.event.pressed <;> simp [sameLayer, hkey, hp, hmadeUp]
    · simp [sameLayer, hkey]

theorem LayerHeld.madeUp (hk : InMatrix l k) (h : LayerHeld k E s) (hp : r.event.pressed = false)
    (hopen : r.event.key = k → isOpen k E = true) :
    LayerHeld k (E ++ [.unregister r]) (s.processRecord a E r true) := by
  obtain ⟨x, hresolved, rfl, hmadeUp, haction, hrelease, hcache⟩ :=
    processRecord_resolved (s := s) (a := a) (E := E) true
      fun hpress => absurd (hp ▸ hpress) (by simp)
  constructor
  · rw [hresolved, Monitor.accepts_append]
    refine ⟨h.accepts, fun hkey => ⟨haction, ?_⟩, trivial⟩
    rw [h.held, hopen hkey, hp, hrelease hp, hkey]
    rfl
  · rw [hresolved, Monitor.after_append, h.held, hcache k hk, isOpen_unregister]
    simp [sameLayer, hmadeUp, hp]

theorem isOpen_append_singleton {effect : Effect} :
    isOpen k (E ++ [effect]) = (openKey k).next (isOpen k E) effect :=
  (openKey k).after_append _ _ _

/-- Whether the press of a key is open can be seen from the records of the key. -/
theorem isOpen_eq_alternation :
    isOpen k E = alternation.after false ((keyed k (processed E)).map (·.event)) := by
  induction E using List.reverseRecOn with
  | nil => rfl
  | append_singleton E effect ih =>
    cases effect with
    | processRecord r =>
      rw [isOpen_processRecord, processed_append, processed_processRecord, keyed_append,
        List.map_append, Monitor.after_append, ← ih]
      rcases eq_or_ne r.event.key k with hk | hk
      · rw [if_pos hk, keyed_self hk]
        rfl
      · rw [if_neg hk, keyed_other hk]
        rfl
    | unregister r =>
      rw [isOpen_unregister, processed_append, processed_unregister, List.append_nil, ih]
    | registerTap key =>
      have hnone : processed [.registerTap key] = [] := rfl
      rw [isOpen_registerTap, processed_append, hnone, List.append_nil, ih]
    | clearKeyboard =>
      have hnone : processed [.clearKeyboard] = [] := rfl
      rw [isOpen_clearKeyboard, processed_append, hnone, List.append_nil, ih]

theorem LayerHeld.followAll (hk : InMatrix l k) (h : LayerHeld k E s)
    (hturn : alternation.Accepts (isOpen k E) ((keyed k (processed es)).map (·.event)))
    (hmadeUp : (openKey k).Accepts (isOpen k E) es)
    (hkeeps : handlersKeepLayer a E es = true) :
    LayerHeld k (E ++ es) (s.followAll a E es) := by
  induction es generalizing E s with
  | nil =>
    rw [List.append_nil]
    exact h
  | cons effect es ih =>
    simp only [handlersKeepLayer, Bool.and_eq_true] at hkeeps
    obtain ⟨hmade, hmade'⟩ := hmadeUp
    rw [← isOpen_append_singleton] at hmade'
    rw [← List.singleton_append, ← List.append_assoc]
    cases effect with
    | processRecord r =>
      have hhandlers : r.event.pressed = true →
          ∀ layer ∈ a.handled E r.event.key, layer = a.quantum E r.event.key := by
        intro hp layer hlayer
        have hall := hkeeps.1
        simp only [hp, Bool.not_true, Bool.false_or, Option.mem_def.mp hlayer] at hall
        simpa using hall
      refine ih (h.press_or_release hk (fun hkey => ?_) hhandlers) ?_ hmade' hkeeps.2
      · exact ((keyed_self hkey _ ▸ hturn : alternation.Accepts _ ((r :: _).map _))).1
      · have hsplit : processed (.processRecord r :: es) = r :: processed es := rfl
        rw [hsplit] at hturn
        rw [isOpen_processRecord]
        rcases eq_or_ne r.event.key k with hkey | hkey
        · rw [keyed_self hkey] at hturn
          rw [if_pos hkey]
          exact hturn.2
        · rw [keyed_other hkey] at hturn
          rwa [if_neg hkey]
    | unregister r =>
      exact ih (h.madeUp hk hmade.1 hmade.2) (by rwa [isOpen_unregister]) hmade' hkeeps.2
    | registerTap key =>
      refine ih ⟨h.accepts, ?_⟩ (by rwa [isOpen_registerTap]) hmade' hkeeps.2
      rw [isOpen_registerTap]
      exact h.held
    | clearKeyboard =>
      refine ih ⟨h.accepts, ?_⟩ (by rwa [isOpen_clearKeyboard]) hmade' hkeeps.2
      rw [isOpen_clearKeyboard]
      exact h.held

end LookUps

section Runs

variable {l : Layout} {bits : ℕ} {f : Features} {p : Pipeline l bits} {i : LayerInput bits}
  {k : Keypos} {inputs : List (LayerInput bits)}

def arrived (inputs : List (LayerInput bits)) : List Input := inputs.map LayerInput.toInput

theorem execAll_engine : (execAll l f inputs).engine = run f {} (arrived inputs) := by
  induction inputs using List.reverseRecOn with
  | nil => rfl
  | append_singleton inputs i ih =>
    simp only [execAll, run, arrived, List.foldl_append, List.map_append, List.map_cons,
      List.map_nil, List.foldl_cons, List.foldl_nil] at ih ⊢
    rw [actionExec, ih]

/-- When a press arrives and the last one of its key is open, the release waits. -/
theorem releaseWaits_of_open {A P : List Keyevent} {e : Keyevent} {s : Engine}
    (hA : A = (keyed k (processed s.effects)).map (·.event))
    (hP : P = (keyed k s.pending).map (·.event))
    (halternates : alternation.Accepts false (A ++ P ++ [e])) (hp : e.pressed = true)
    (hopen : isOpen k s.effects = true) : releaseWaits k s = true := by
  rw [Monitor.accepts_append, Monitor.accepts_append, Monitor.after_append, hA,
    ← isOpen_eq_alternation, hopen] at halternates
  obtain ⟨⟨-, hpending⟩, hlast, -⟩ := halternates
  have hdown : alternation.after true P = false := by
    have hlast' : e.pressed = !alternation.after true P := hlast
    simpa [hp] using hlast'
  cases hkeyed : keyed k s.pending with
  | nil =>
    rw [hP, hkeyed] at hdown
    cases hdown
  | cons r rest =>
    rw [hP, hkeyed] at hpending
    have hrelease : r.event.pressed = !true := hpending.1
    simp [releaseWaits, hkeyed, hrelease]

/-- An event that arrives leaves the layer of a key that is down. -/
theorem LayerHeld.preProcess (hk : InMatrix l k)
    (h : LayerHeld k p.engine.effects p.toResolutions) (hkeeps : arrivalKeepsLayer i p = true)
    (hwaits : i.event.isNoevent = false → i.event.pressed = true → i.event.key = k →
      isOpen k p.engine.effects = true → releaseWaits k p.engine = true) :
    LayerHeld k p.engine.effects ⟨preProcessRecord i p, p.resolved⟩ := by
  refine ⟨h.accepts, h.held.trans ?_⟩
  by_cases hopen : isOpen k p.engine.effects = true
  · rw [if_pos hopen, if_pos hopen, preProcessRecord]
    split_ifs with htick
    · rfl
    · rw [getEventKeycode, cachedLayer_resolveLayer hk]
      split_ifs with hpress
      · obtain ⟨hp, rfl⟩ := hpress
        have hwait := hwaits (by simpa using htick) hp rfl hopen
        simp only [arrivalKeepsLayer, htick, hp, hwait, Bool.not_true, Bool.false_or,
          beq_iff_eq] at hkeeps
        rw [hkeeps]
      · rfl
  · rw [if_neg hopen, if_neg hopen]

theorem LayerHeld.step {a : Account} (hlooked : ¬ a.looked) (hk : InMatrix l k)
    (h : LayerHeld k p.engine.effects p.toResolutions) (hbalanced : Balanced a p.engine)
    (hok : (layersKept l bits f).ok p i)
    (hclean : .clearKeyboard ∉ (actionExec f p i).engine.effects)
    (halternates : alternation.Accepts false (a.arrived k ++ arrivals k [i.event])) :
    LayerHeld k (actionExec f p i).engine.effects (actionExec f p i).toResolutions := by
  obtain ⟨hturn, harrival, hhandlers⟩ := hok
  have hstep := hbalanced.step (fun hlook => absurd hlook hlooked) i.toInput hturn
    fun hlook => absurd hlook hlooked
  obtain ⟨es, hes⟩ := hbalanced.effects_prefix hlooked hturn
  have hengine : (actionExec f p i).engine = Tapping.step f p.engine i.toInput := rfl
  rw [hengine, ← hes] at hclean hhandlers
  rw [List.drop_left] at hhandlers
  have hbefore := (hbalanced.ledger.keys (fun hc => hclean (List.mem_append_left _ hc)) k).order
  have hafter := hstep.ledger.keys (hes ▸ hclean) k
  have horder : (keyed k (processed (p.engine.effects ++ es)) ++
      keyed k (Tapping.step f p.engine i.toInput).pending).map (·.event) =
        a.arrived k ++ arrivals k [i.event] := hes ▸ hafter.order
  have hwaits (htick : i.event.isNoevent = false) (hp : i.event.pressed = true)
      (hkey : i.event.key = k) (hopen : isOpen k p.engine.effects = true) :
      releaseWaits k p.engine = true := by
    have hnew : arrivals k [i.event] = [i.event] := by simp [arrivals, htick, hkey]
    rw [List.map_append] at hbefore
    rw [← hbefore, hnew] at halternates
    exact releaseWaits_of_open rfl rfl halternates hp hopen
  have hpre := h.preProcess hk harrival hwaits
  rw [← horder, List.map_append, Monitor.accepts_append, processed_append, keyed_append,
    List.map_append, Monitor.accepts_append, ← isOpen_eq_alternation] at halternates
  have hmadeUp := (Monitor.accepts_append _ _ _ _).mp (hes ▸ hafter.madeUp :
    (openKey k).Accepts false (p.engine.effects ++ es))
  have hfollowed := hpre.followAll hk halternates.1.2 hmadeUp.2 hhandlers
  simp only [actionExec, ← hes, List.drop_left]
  exact hfollowed

theorem keysInTurn_of_layersKept (h : (layersKept l bits f).Accepts p inputs) :
    ((keysInTurn f).runs f).Accepts p.engine (arrived inputs) := by
  induction inputs generalizing p with
  | nil => exact trivial
  | cons i inputs ih => exact ⟨h.1.1, ih h.2⟩

theorem layerHeld_run (hk : InMatrix l k)
    (halternates : alternation.Accepts false (arrivals k ((arrived inputs).map (·.event))))
    (hguard : (layersKept l bits f).Accepts {} inputs)
    (hclean : .clearKeyboard ∉ (execAll l f inputs).engine.effects) :
    LayerHeld k (execAll l f inputs).engine.effects (execAll l f inputs).toResolutions := by
  induction inputs using List.reverseRecOn with
  | nil => exact ⟨trivial, rfl⟩
  | append_singleton inputs i ih =>
    have hlast : execAll l f (inputs ++ [i]) = actionExec f (execAll l f inputs) i := by
      simp only [execAll, List.foldl_append, List.foldl_cons, List.foldl_nil]
    have harrived : arrivals k ((arrived (inputs ++ [i])).map (·.event)) =
        arrivals k ((arrived inputs).map (·.event)) ++ arrivals k [i.event] := by
      simp [arrived, arrivals_append]
    rw [Monitor.accepts_append, Monitor.accepts_cons] at hguard
    obtain ⟨hbefore, hok, -⟩ := hguard
    rw [harrived] at halternates
    rw [hlast] at hclean ⊢
    have hbalanced : Balanced (accountOf False (arrived inputs)) (execAll l f inputs).engine :=
      execAll_engine ▸ balanced_run (fun hlook : False => hlook.elim) (arrived inputs)
        (keysInTurn_of_layersKept hbefore) fun hlook => hlook.elim
    have hgrown := hbalanced.effects_prefix id hok.1
    refine (ih ((Monitor.accepts_append _ _ _ _).mp halternates).1 hbefore fun hc => ?_).step
      id hk hbalanced hok hclean halternates
    exact hclean (hgrown.subset hc)

/-- Every release of a key is resolved from the layer of its press in every run in which the events
of the key stay in order, and neither an arriving press nor a handler changes the layer of a key
that is down. -/
theorem layers_agree (inputs : List (LayerInput bits))
    (halternates : Alternating ((arrived inputs).map (·.event)))
    (hguard : (layersKept l bits f).Accepts {} inputs)
    (hclean : .clearKeyboard ∉ (execAll l f inputs).engine.effects) : LayersAgree l f inputs :=
  ⟨fun k hk => (layerHeld_run hk (halternates k) hguard hclean).accepts⟩

/-- Layer 1 is turned on and off by the keys of row 1 when they are held, and toggled by those of
row 2 when they are released. -/
def layerOn (effects : List Effect) : Bool :=
  effects.foldl (fun on effect =>
    match effect with
    | .processRecord r =>
      if r.event.key.row = 1 ∧ r.tap.count = 0 then r.event.pressed
      else if r.event.key.row = 2 ∧ ¬ r.event.pressed then !on else on
    | _ => on) false

/-- The keys of row 0 are on both layers, all others are transparent on layer 1. -/
def twoLayers (effects : List Effect) (key : Keypos) : Layer 3 :=
  if key.row = 0 ∧ layerOn effects then ⟨1, by decide⟩ else ⟨0, by decide⟩

/-- The keys of row 0 are left Shift on layer 0 and right Shift on layer 1, those of row 1 are
`LT(1, KC_A)` and those of row 2 are `TG(1)`. -/
def Decisions.shifts : Decisions := { Decisions.small with
  layerSwitchGetAction := fun effects key =>
    if key.row = 0 then if layerOn effects then 0x00E5 else 0x00E1
    else if key.row = 1 then 0xA104 else 0x8A02 }

def LayerAnswers.shifts : LayerAnswers 3 where
  preProcess := twoLayers
  quantum := twoLayers
  handled effects key := some (twoLayers effects key)

def threeRows : Layout := ⟨3, 3, 0, false, by decide⟩

/-- Shift is released while a tap-hold key is undecided, then layer 1 is turned on, and Shift is
pressed again once its release has been processed. -/
def shiftTwice : List (LayerInput 3) := [Input.press .shifts ⟨0, 2⟩ 0, .press .shifts ⟨0, 0⟩ 5,
  .press .shifts ⟨1, 1⟩ 10, .release .shifts ⟨0, 0⟩ 20, .release .shifts ⟨0, 2⟩ 30,
  .release .shifts ⟨1, 1⟩ 40, .press .shifts ⟨0, 0⟩ 50, .release .shifts ⟨0, 0⟩ 60].map
  (⟨·, .shifts⟩)

theorem layers_agree_shiftTwice : Alternating ((arrived shiftTwice).map (·.event)) ∧
    (layersKept threeRows 3 {}).Accepts {} shiftTwice ∧ LayersAgree threeRows {} shiftTwice :=
  ⟨by decide +kernel, by decide +kernel,
    layers_agree shiftTwice (by decide +kernel) (by decide +kernel) (by decide +kernel)⟩

/-- Shift is pressed again before the tap-hold key is decided. -/
def shiftOverwritten : List (LayerInput 3) := [Input.press .shifts ⟨0, 2⟩ 0,
  .press .shifts ⟨0, 0⟩ 5, .press .shifts ⟨1, 1⟩ 10, .release .shifts ⟨0, 0⟩ 20,
  .release .shifts ⟨0, 2⟩ 30, .press .shifts ⟨0, 0⟩ 40, .release .shifts ⟨1, 1⟩ 50].map
  (⟨·, .shifts⟩)

/-- Two tap-hold keys are held past their terms, and Shift is pressed and released at once. -/
def shiftOvertaken : List (LayerInput 3) := [Input.press .shifts ⟨1, 1⟩ 0,
  .press .shifts ⟨2, 1⟩ 10, .press .shifts ⟨0, 0⟩ 215, .release .shifts ⟨0, 0⟩ 215,
  .tick .shifts 220].map (⟨·, .shifts⟩)

/-- A handler turns layer 1 off before the action of a press is looked up. -/
def shiftHandled : List (LayerInput 3) :=
  [Input.press .shifts ⟨0, 0⟩ 0, .release .shifts ⟨0, 0⟩ 10].map (⟨·, { LayerAnswers.shifts with
    preProcess := fun _ _ => ⟨1, by decide⟩
    quantum := fun _ _ => ⟨1, by decide⟩ }⟩)

def keycodeLayers (k : Keypos) (p : Pipeline l bits) : List (Bool × ℕ) :=
  (p.resolved.filter (·.record.event.key = k)).map fun r => (r.record.event.pressed, r.keycodeLayer)

/-- The second press overwrites the layer of a release that waits; a release that overtakes its
press in the buffer is resolved before it; and the action of a press is looked up again after the
handlers. -/
theorem releases_change_layer :
    (Alternating ((arrived shiftOverwritten).map (·.event)) ∧
      .clearKeyboard ∉ (execAll threeRows {} shiftOverwritten).engine.effects ∧
      keycodeLayers ⟨0, 0⟩ (execAll threeRows {} shiftOverwritten) =
        [(true, 0), (false, 1), (true, 1)] ∧
      ¬ LayersAgree threeRows {} shiftOverwritten) ∧
    (Alternating ((arrived shiftOvertaken).map (·.event)) ∧
      .clearKeyboard ∉ (execAll threeRows {} shiftOvertaken).engine.effects ∧
      keycodeLayers ⟨0, 0⟩ (execAll threeRows {} shiftOvertaken) = [(false, 0), (true, 1)] ∧
      ¬ LayersAgree threeRows {} shiftOvertaken) ∧
    (Alternating ((arrived shiftHandled).map (·.event)) ∧
      .clearKeyboard ∉ (execAll threeRows {} shiftHandled).engine.effects ∧
      keycodeLayers ⟨0, 0⟩ (execAll threeRows {} shiftHandled) = [(true, 1), (false, 0)] ∧
      ¬ LayersAgree threeRows {} shiftHandled) := by
  refine ⟨⟨by decide +kernel, by decide +kernel, by decide +kernel, fun h => ?_⟩,
    ⟨by decide +kernel, by decide +kernel, by decide +kernel, fun h => ?_⟩,
    by decide +kernel, by decide +kernel, by decide +kernel, fun h => ?_⟩
  all_goals exact absurd (h.ofKey ⟨0, 0⟩ (by decide)) (by decide +kernel)

end Runs

end Qmk.Tapping
