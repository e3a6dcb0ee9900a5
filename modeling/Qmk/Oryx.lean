import Mathlib.Data.List.Induction
import Qmk.LayerState
import Qmk.Monitor

/-! # The Oryx protocol

`oryx.c` on the boards whose `layer_state_set_kb` tells it of every new layer state.
A host pairs with the keyboard by a packet; a report that the endpoint does not take ends
the pairing, except on LUFA boards. Reports and the calls that drive the LEDs are
collected in a trace.
-/

namespace Qmk.Oryx

/-- The build. With `rgbMatrix` the board has `RGB_MATRIX_ENABLE` and does not use LUFA, and
`statusLeds` says how many of `STATUS_LED_1` to `STATUS_LED_6` are defined. -/
structure Config where
  protocolLufa : Bool
  rgbMatrix : Bool
  rgbMatrixLedCount : ℕ
  statusLeds : ℕ
  serialNumber : List UInt8

/-- The reports of `Oryx_Event_Code` that are sent, with their parameters. -/
inductive Report
  | getFwVersion (serialNumber : List UInt8)
  | pairingSuccess
  | layer (layer : ℕ)
  | keydown (col row : UInt8)
  | keyup (col row : UInt8)
  | rgbControl (control : Bool)
  | toggleSmartLayer
  | triggerSmartLayer
  | statusLedControl (control : Bool)
  | getProtocolVersion (version : UInt8)
  | error (code : UInt8)
  deriving DecidableEq, Repr

inductive Effect
  | report (r : Report)
  | webhidLed (index : ℕ) (r g b : UInt8)
  | rgbMatrixModeWebhid
  | rgbMatrixReload
  | rgbMatrixVal (increase : Bool)
  | statusLed (led : ℕ) (value : UInt8)
  | layerOff (layer : ℕ)
  | layerMove (layer : ℕ)
  deriving DecidableEq, Repr

/-- `rawhid_state` and `current_layer`, with `layer_state` and the trace, oldest first. -/
structure State (w : ℕ) where
  paired : Bool := false
  rgbControl : Bool := false
  statusLedControl : Bool := false
  currentLayer : ℕ := 0
  layerState : BitVec w := 0
  effects : List Effect := []

variable {w : ℕ}

def State.emits (s : State w) (es : List Effect) : State w := { s with effects := s.effects ++ es }

section Commands

def errRgbMatrixNotEnabled : UInt8 := 4

def errStatusLedOutOfRange : UInt8 := 5

def errUnknownCommand : UInt8 := 0xFF

def protocolVersion : UInt8 := 0x04

variable (cfg : Config) (accepted : Bool)

def rawHidSendOryx (r : Report) (s : State w) : State w :=
  let s := s.emits [.report r]
  if ¬ accepted ∧ ¬ cfg.protocolLufa then { s with paired := false } else s

def oryxError (code : UInt8) (s : State w) : State w := rawHidSendOryx cfg accepted (.error code) s

def pairingSuccessEvent (s : State w) : State w :=
  rawHidSendOryx cfg accepted .pairingSuccess { s with paired := true }

def layerStateSetOryx (state : BitVec w) (s : State w) : State w :=
  if s.paired then
    let layer := getHighestLayer state
    if s.currentLayer = layer then s
    else rawHidSendOryx cfg accepted (.layer layer) { s with currentLayer := layer }
  else s

def layerStateSet (state : BitVec w) (s : State w) : State w :=
  { layerStateSetOryx cfg accepted state s with layerState := state }

def setWebhidEffect (s : State w) : State w :=
  { s.emits [.rgbMatrixModeWebhid] with rgbControl := true }

def webhidLeds (r g b : UInt8) : List Effect :=
  (List.range cfg.rgbMatrixLedCount).map (.webhidLed · r g b)

def clearWebhidEffect (s : State w) : State w :=
  { s.emits (webhidLeds cfg 0 0 0 ++ [.rgbMatrixReload]) with rgbControl := false }

def onRgbMatrix (f : State w → State w) (s : State w) : State w :=
  if cfg.rgbMatrix then f s else oryxError cfg accepted errRgbMatrixNotEnabled s

def setLayer (param : ℕ → UInt8) (s : State w) : State w :=
  if s.paired then
    let layer := (param 1).toNat
    if param 0 = 0 then
      layerStateSet cfg accepted (layerOff layer s.layerState) (s.emits [.layerOff layer])
    else layerStateSet cfg accepted (layerMove layer s.layerState) (s.emits [.layerMove layer])
  else s

def setStatusLed (param : ℕ → UInt8) (s : State w) : State w :=
  let s := { s with statusLedControl := true }
  if (param 0).toNat < cfg.statusLeds then s.emits [.statusLed (param 0).toNat (param 1)]
  else oryxError cfg accepted errStatusLedOutOfRange s

def statusLedControl (param : ℕ → UInt8) (s : State w) : State w :=
  let s := { s with statusLedControl := param 0 ≠ 0 }
  let s := if param 0 = 0 then
    s.emits ((List.range cfg.statusLeds).map (.statusLed · 0)) else s
  rawHidSendOryx cfg accepted (.statusLedControl s.statusLedControl) s

def rawHidReceive (data : List UInt8) (s : State w) : State w :=
  let param (i : ℕ) := data.getD (i + 1) 0
  match (data.getD 0 0).toNat with
  | 0x00 => rawHidSendOryx cfg accepted (.getFwVersion cfg.serialNumber) s
  | 0xFE => rawHidSendOryx cfg accepted (.getProtocolVersion protocolVersion) s
  | 0x01 => pairingSuccessEvent cfg accepted s
  | 0x02 => s
  | 0x04 => setLayer cfg accepted param s
  | 0x05 => onRgbMatrix cfg accepted (fun s =>
      let s := if param 0 = 0 then clearWebhidEffect cfg s else setWebhidEffect s
      rawHidSendOryx cfg accepted (.rgbControl s.rgbControl) s) s
  | 0x06 => onRgbMatrix cfg accepted (fun s =>
      let s := s.emits [.webhidLed (param 0).toNat (param 1) (param 2) (param 3)]
      if s.rgbControl then s else setWebhidEffect s) s
  | 0x09 => onRgbMatrix cfg accepted (fun s =>
      let s := s.emits (webhidLeds cfg (param 0) (param 1) (param 2))
      if s.rgbControl then s else setWebhidEffect s) s
  | 0x07 => setStatusLed cfg accepted param s
  | 0x08 => onRgbMatrix cfg accepted (fun s => s.emits [.rgbMatrixVal (param 0 ≠ 0)]) s
  | 0x0A => statusLedControl cfg accepted param s
  | _ => oryxError cfg accepted errUnknownCommand s

def preProcessRecordKb (pressed : Bool) (col row : UInt8) (s : State w) : State w :=
  if s.paired then
    rawHidSendOryx cfg accepted (if pressed then .keydown col row else .keyup col row) s
  else s

end Commands

/-- What happens to the keyboard: a packet of the host, a new layer state, a call of
`layer_state_set_kb` for the layer state as it is, a key event, and a smart layer key. Each sends
one report at most; `accepted` is whether the endpoint takes it. -/
inductive Input (w : ℕ)
  | packet (data : List UInt8) (accepted : Bool)
  | layers (state : BitVec w) (accepted : Bool)
  | refresh (accepted : Bool)
  | key (pressed : Bool) (col row : UInt8) (accepted : Bool)
  | toggleSmartLayer (accepted : Bool)
  | triggerSmartLayer (accepted : Bool)

variable (cfg : Config)

def step (s : State w) : Input w → State w
  | .packet data accepted => rawHidReceive cfg accepted data s
  | .layers state accepted => layerStateSet cfg accepted state s
  | .refresh accepted => layerStateSetOryx cfg accepted s.layerState s
  | .key pressed col row accepted => preProcessRecordKb cfg accepted pressed col row s
  | .toggleSmartLayer accepted => rawHidSendOryx cfg accepted .toggleSmartLayer s
  | .triggerSmartLayer accepted => rawHidSendOryx cfg accepted .triggerSmartLayer s

def run (s : State w) (inputs : List (Input w)) : State w := inputs.foldl (step cfg) s

section Specification

def layersSent (s : State w) : List ℕ :=
  s.effects.filterMap fun
    | .report (.layer layer) => some layer
    | _ => none

def State.highest (s : State w) : ℕ := getHighestLayer s.layerState

/-- While the keyboard is paired a change of the highest layer is reported once, and the layer that
has been reported last is the highest one. -/
structure ReachesHost (inputs : List (Input w)) : Prop where
  changes : ∀ pre i post, inputs = pre ++ i :: post → (run cfg {} pre).paired = true →
    (run cfg {} (pre ++ [i])).highest ≠ (run cfg {} pre).highest →
    layersSent (run cfg {} (pre ++ [i])) =
      layersSent (run cfg {} pre) ++ [(run cfg {} (pre ++ [i])).highest]
  last : ∀ pre session post sent layer, inputs = pre ++ session ++ post →
    (∀ k ≤ session.length, (run cfg {} (pre ++ session.take k)).paired = true) →
    layersSent (run cfg {} (pre ++ session)) = layersSent (run cfg {} pre) ++ sent →
    sent.getLast? = some layer → layer = (run cfg {} (pre ++ session)).highest

def newLayers (s : State w) : Input w → BitVec w
  | .packet data _ =>
    if data.getD 0 0 = 4 ∧ s.paired then
      if data.getD 1 0 = 0 then layerOff (data.getD 2 0).toNat s.layerState
      else layerMove (data.getD 2 0).toNat s.layerState
    else s.layerState
  | .layers state _ => state
  | _ => s.layerState

/-- The runs in which no change of the highest layer leads to the layer that is remembered from
before the pairing. -/
def freshChanges : Monitor (Input w) (State w) where
  next := step cfg
  ok s i := s.paired = true → getHighestLayer (newLayers s i) ≠ s.highest →
    getHighestLayer (newLayers s i) ≠ s.currentLayer

end Specification

section Steps

variable {cfg} {s s' : State w}

structure Quiet (s s' : State w) : Prop where
  sent : layersSent s' = layersSent s
  currentLayer : s'.currentLayer = s.currentLayer
  layerState : s'.layerState = s.layerState

theorem layersSent_emits (es : List Effect) : layersSent (s.emits es) = layersSent s ++
    es.filterMap fun | .report (.layer layer) => some layer | _ => none :=
  List.filterMap_append

theorem Quiet.congr {t : State w} (h : Quiet s s') (heffects : t.effects = s'.effects)
    (hcurrent : t.currentLayer = s'.currentLayer) (hlayers : t.layerState = s'.layerState) :
    Quiet s t := by
  refine ⟨?_, hcurrent.trans h.currentLayer, hlayers.trans h.layerState⟩
  rw [layersSent, heffects]
  exact h.sent

theorem Quiet.emits (h : Quiet s s') {e : List Effect} (he : ∀ layer, .report (.layer layer) ∉ e) :
    Quiet s (s'.emits e) := by
  refine ⟨?_, h.currentLayer, h.layerState⟩
  rw [layersSent_emits, h.sent, List.filterMap_eq_nil_iff.mpr, List.append_nil]
  intro effect hmem
  split
  · exact absurd hmem (he _)
  · rfl

theorem Quiet.send (h : Quiet s s') (accepted : Bool) {r : Report}
    (hr : ∀ layer, r ≠ .layer layer) : Quiet s (rawHidSendOryx cfg accepted r s') := by
  have hemits : Quiet s (s'.emits [.report r]) := h.emits (by simpa [eq_comm] using hr)
  unfold rawHidSendOryx
  split_ifs
  · exact hemits.congr rfl rfl rfl
  · exact hemits

theorem Quiet.error (h : Quiet s s') (accepted : Bool) (code : UInt8) :
    Quiet s (oryxError cfg accepted code s') :=
  h.send accepted (by simp)

theorem Quiet.setWebhidEffect (h : Quiet s s') : Quiet s (setWebhidEffect s') :=
  (h.emits (by simp)).congr rfl rfl rfl

theorem Quiet.webhidLeds (h : Quiet s s') (r g b : UInt8) :
    Quiet s (s'.emits (webhidLeds cfg r g b)) :=
  h.emits (by simp [Oryx.webhidLeds])

theorem Quiet.clearWebhidEffect (h : Quiet s s') : Quiet s (clearWebhidEffect cfg s') :=
  (h.emits (by simp [Oryx.webhidLeds])).congr rfl rfl rfl

theorem quiet_refl (s : State w) : Quiet s s := ⟨rfl, rfl, rfl⟩

theorem quiet_onRgbMatrix (accepted : Bool) {f : State w → State w} (hf : Quiet s (f s)) :
    Quiet s (onRgbMatrix cfg accepted f s) := by
  unfold onRgbMatrix
  split_ifs
  · exact hf
  · exact (quiet_refl s).error accepted _

theorem quiet_setStatusLed (accepted : Bool) (param : ℕ → UInt8) :
    Quiet s (setStatusLed cfg accepted param s) := by
  have hcontrol : Quiet s { s with statusLedControl := true } := (quiet_refl s).congr rfl rfl rfl
  unfold setStatusLed
  dsimp only
  split_ifs
  · exact hcontrol.emits (by simp)
  · exact hcontrol.error accepted _

theorem quiet_statusLedControl (accepted : Bool) (param : ℕ → UInt8) :
    Quiet s (statusLedControl cfg accepted param s) := by
  have hcontrol : Quiet s { s with statusLedControl := param 0 ≠ 0 } :=
    (quiet_refl s).congr rfl rfl rfl
  unfold statusLedControl
  dsimp only
  split_ifs
  · exact (hcontrol.emits (by simp)).send accepted (by simp)
  · exact hcontrol.send accepted (by simp)

/-- Only `ORYX_SET_LAYER` changes the layers or reports them. -/
theorem quiet_rawHidReceive (accepted : Bool) {data : List UInt8} (h : data.getD 0 0 ≠ 4) :
    Quiet s (rawHidReceive cfg accepted data s) := by
  have hrefl := quiet_refl s
  unfold rawHidReceive
  dsimp only
  split
  · exact hrefl.send accepted (by simp)
  · exact hrefl.send accepted (by simp)
  · exact (hrefl.congr (t := { s with paired := true }) rfl rfl rfl).send accepted (by simp)
  · exact hrefl
  · next heq => exact absurd (UInt8.toNat_inj.mp heq) h
  · apply quiet_onRgbMatrix
    split_ifs
    · exact hrefl.clearWebhidEffect.send accepted (by simp)
    · exact hrefl.setWebhidEffect.send accepted (by simp)
  · apply quiet_onRgbMatrix
    split_ifs
    · exact hrefl.emits (by simp)
    · exact (hrefl.emits (by simp)).setWebhidEffect
  · apply quiet_onRgbMatrix
    split_ifs
    · exact hrefl.webhidLeds _ _ _
    · exact (hrefl.webhidLeds _ _ _).setWebhidEffect
  · exact quiet_setStatusLed accepted _
  · apply quiet_onRgbMatrix
    exact hrefl.emits (by simp)
  · exact quiet_statusLedControl accepted _
  · exact hrefl.error accepted _

/-- What a step that sets `layers` does: it reports their highest one, unless the keyboard is
unpaired or that layer is the one that is remembered. -/
inductive Change (s s' : State w) (layers : BitVec w) : Prop
  | reported (hlayers : s'.layerState = layers) (hpaired : s.paired = true)
      (hne : getHighestLayer layers ≠ s.currentLayer)
      (hsent : layersSent s' = layersSent s ++ [getHighestLayer layers])
      (hcurrent : s'.currentLayer = getHighestLayer layers)
  | silent (hlayers : s'.layerState = layers)
      (hkept : s.paired = true → getHighestLayer layers = s.highest ∨
        getHighestLayer layers = s.currentLayer)
      (hsent : layersSent s' = layersSent s) (hcurrent : s'.currentLayer = s.currentLayer)

theorem Quiet.change (h : Quiet s s') : Change s s' s.layerState :=
  .silent h.layerState (fun _ => Or.inl rfl) h.sent h.currentLayer

theorem change_layerStateSet (accepted : Bool) (layers : BitVec w) :
    Change s (layerStateSet cfg accepted layers s) layers := by
  unfold layerStateSet layerStateSetOryx
  dsimp only
  split_ifs with hpaired hsame
  · exact .silent rfl (fun _ => Or.inr hsame.symm) rfl rfl
  · refine .reported rfl hpaired (Ne.symm hsame) ?_ ?_
    · unfold rawHidSendOryx layersSent
      dsimp only
      split_ifs <;> simp [State.emits]
    · unfold rawHidSendOryx
      dsimp only
      split_ifs <;> rfl
  · exact .silent rfl (fun h => absurd h hpaired) rfl rfl

/-- The effects before a change may be anything but reports of layers. -/
theorem Change.of_emits {layers : BitVec w} {es : List Effect} (h : Change (s.emits es) s' layers)
    (hes : ∀ layer, .report (.layer layer) ∉ es) : Change s s' layers := by
  have hsent : layersSent (s.emits es) = layersSent s := ((quiet_refl s).emits hes).sent
  cases h with
  | reported hlayers hpaired hne hnew hcurrent =>
    exact .reported hlayers hpaired hne (by rw [hnew, hsent]) hcurrent
  | silent hlayers hkept hnew hcurrent =>
    exact .silent hlayers hkept (hnew.trans hsent) hcurrent

theorem layerStateSet_layerState (accepted : Bool) :
    layerStateSet cfg accepted s.layerState s = layerStateSetOryx cfg accepted s.layerState s := by
  unfold layerStateSet layerStateSetOryx rawHidSendOryx
  dsimp only
  split_ifs <;> rfl

theorem change_step (s : State w) (i : Input w) : Change s (step cfg s i) (newLayers s i) := by
  have hrefl := quiet_refl s
  cases i with
  | packet data accepted =>
    simp only [step, newLayers]
    by_cases hcommand : data.getD 0 0 = 4
    · have hset : rawHidReceive cfg accepted data s =
          setLayer cfg accepted (fun i => data.getD (i + 1) 0) s := by
        rw [rawHidReceive, hcommand]
        rfl
      rw [hset, setLayer]
      by_cases hpaired : s.paired
      · rw [if_pos hpaired, if_pos (c := _ ∧ s.paired = true) ⟨hcommand, hpaired⟩]
        dsimp only
        split_ifs
        · exact (change_layerStateSet accepted _).of_emits (by simp)
        · exact (change_layerStateSet accepted _).of_emits (by simp)
      · rw [if_neg hpaired, if_neg (fun h => hpaired h.2)]
        exact hrefl.change
    · rw [if_neg (fun h => hcommand h.1)]
      exact (quiet_rawHidReceive accepted hcommand).change
  | layers state accepted => exact change_layerStateSet accepted state
  | refresh accepted =>
    simp only [step, newLayers]
    rw [← layerStateSet_layerState]
    exact change_layerStateSet accepted _
  | key pressed col row accepted =>
    simp only [step, newLayers, preProcessRecordKb]
    split_ifs
    · exact (hrefl.send accepted (by simp)).change
    · exact (hrefl.send accepted (by simp)).change
    · exact hrefl.change
  | toggleSmartLayer accepted => exact (hrefl.send accepted (by simp)).change
  | triggerSmartLayer accepted => exact (hrefl.send accepted (by simp)).change

end Steps

section Runs

variable {cfg} {inputs : List (Input w)}

@[simp] theorem run_append_singleton (s : State w) (pre : List (Input w)) (i : Input w) :
    run cfg s (pre ++ [i]) = step cfg (run cfg s pre) i := by
  simp [run]

/-- What has been reported since the keyboard is paired ends with the highest layer, which is then
the one that is remembered. -/
theorem last_sent {pre session : List (Input w)} {s : State w}
    (hpaired : ∀ k ≤ session.length, (run cfg s (pre ++ session.take k)).paired = true) :
    ∃ sent, layersSent (run cfg s (pre ++ session)) = layersSent (run cfg s pre) ++ sent ∧
      ∀ layer, sent.getLast? = some layer → layer = (run cfg s (pre ++ session)).highest ∧
        layer = (run cfg s (pre ++ session)).currentLayer := by
  induction session using List.reverseRecOn with
  | nil => exact ⟨[], by simp, by simp⟩
  | append_singleton session i ih =>
    have hbefore : ∀ k ≤ session.length, (run cfg s (pre ++ session.take k)).paired = true := by
      intro k hk
      have := hpaired k (by simp; omega)
      rwa [List.take_append_of_le_length hk] at this
    obtain ⟨sent, hsent, hlast⟩ := ih hbefore
    have hstill := hbefore session.length le_rfl
    rw [List.take_length] at hstill
    rw [← List.append_assoc, run_append_singleton]
    cases @change_step _ cfg (run cfg s (pre ++ session)) i with
    | reported hlayers _ _ hnew hcurrent =>
      refine ⟨sent ++ [_], by rw [hnew, hsent, List.append_assoc], ?_⟩
      rw [State.highest, hlayers, hcurrent]
      simp [eq_comm]
    | silent hlayers hkept hnew hcurrent =>
      refine ⟨sent, by rw [hnew, hsent], fun layer hlayer => ?_⟩
      obtain ⟨hhighest, hremembered⟩ := hlast layer hlayer
      rw [State.highest, hlayers, hcurrent]
      rcases hkept hstill with h | h
      · exact ⟨hhighest.trans h.symm, hremembered⟩
      · exact ⟨hremembered.trans h.symm, hremembered⟩

/-- Exactly the changes to the layer that is remembered from before the pairing do not reach the
host. -/
theorem reachesHost_iff (inputs : List (Input w)) :
    ReachesHost cfg inputs ↔ (freshChanges cfg).Accepts {} inputs := by
  rw [Monitor.accepts_iff]
  change _ ↔ ∀ pre i post, _ → (freshChanges cfg).ok (run cfg {} pre) i
  constructor
  · rintro h pre i post rfl hpaired hchange hsame
    have hchanges := h.changes pre i post rfl hpaired
    rw [run_append_singleton] at hchanges
    cases @change_step _ cfg (run cfg {} pre) i with
    | reported _ _ hne => exact hne hsame
    | silent hlayers _ hsent =>
      rw [State.highest, hlayers, hsent] at hchanges
      simpa using hchanges hchange
  · intro h
    refine ⟨?_, ?_⟩
    · rintro pre i post hinputs hpaired hchange
      rw [run_append_singleton] at hchange ⊢
      cases @change_step _ cfg (run cfg {} pre) i with
      | reported hlayers _ _ hsent => rw [hsent, State.highest, hlayers]
      | silent hlayers hkept =>
        rw [State.highest, hlayers] at hchange
        rcases hkept hpaired with hsame | hsame
        · exact absurd hsame hchange
        · exact absurd hsame (h pre i post hinputs hpaired hchange)
    · rintro pre session post sent layer - hpaired hsent hlayer
      obtain ⟨sent', hsent', hlast⟩ := last_sent hpaired
      obtain rfl : sent = sent' := List.append_cancel_left (hsent.symm.trans hsent')
      exact (hlast layer hlayer).1

/-- A host pairs while layer 1 is on and is not told when layer 0 is back. -/
theorem stale_layer : ¬ ReachesHost (w := 32) ⟨false, false, 0, 0, []⟩
    [.layers 2 true, .packet [1] true, .layers 0 true] := by
  intro h
  have := h.changes [.layers 2 true, .packet [1] true] (.layers 0 true) [] rfl (by decide)
    (by decide)
  revert this
  decide

end Runs

end Qmk.Oryx
