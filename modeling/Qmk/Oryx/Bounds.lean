import Qmk.Oryx

/-! # Bounds of the Oryx packets

`raw_hid_receive` indexes `webhid_leds` with a byte of the packet and hands another one to
`layer_off` and `layer_move`, which shift by it.
-/

namespace Qmk.Oryx

variable {w : ℕ} (cfg : Config)

section Specification

/-- The indices below `RGB_MATRIX_LED_COUNT` and the layers below the width of `layer_state_t`. -/
def Effect.InRange (w : ℕ) : Effect → Prop
  | .webhidLed index _ _ _ => index < cfg.rgbMatrixLedCount
  | .layerOff layer => layer < w
  | .layerMove layer => layer < w
  | _ => True

/-- A packet for a layer, an LED or a status LED that there is not. -/
def OutOfRange (w : ℕ) (data : List UInt8) : Prop :=
  (data.getD 0 0 = 0x04 ∧ w ≤ (data.getD 2 0).toNat) ∨
  (data.getD 0 0 = 0x06 ∧ cfg.rgbMatrixLedCount ≤ (data.getD 1 0).toNat) ∨
  (data.getD 0 0 = 0x07 ∧ cfg.statusLeds ≤ (data.getD 1 0).toNat)

abbrev Rgb := UInt8 × UInt8 × UInt8

def writeLed (leds : ℕ → Rgb) : Effect → ℕ → Rgb
  | .webhidLed index r g b => Function.update leds index (r, g, b)
  | _ => leds

/-- The LED array after the effects `es`. -/
def ledsAfter (es : List Effect) (leds : ℕ → Rgb) : ℕ → Rgb := es.foldl writeLed leds

/-- `es` is what the packet adds to the trace. -/
structure WithinBounds (accepted : Bool) (data : List UInt8) (s : State w) : Prop where
  inRange : ∀ es, (rawHidReceive cfg accepted data s).effects = s.effects ++ es →
    ∀ e ∈ es, e.InRange cfg w
  leds : OutOfRange cfg w data →
    ∀ es, (rawHidReceive cfg accepted data s).effects = s.effects ++ es →
    ∀ leds i, i < cfg.rgbMatrixLedCount → ledsAfter es leds i = leds i
  layers : OutOfRange cfg w data → (rawHidReceive cfg accepted data s).layerState = s.layerState

/-- The paired host names a layer that `layer_state_t` does not have. -/
def BeyondLayers (data : List UInt8) (s : State w) : Prop :=
  data.getD 0 0 = 0x04 ∧ s.paired = true ∧ w ≤ (data.getD 2 0).toNat

/-- The host names an LED that the RGB matrix does not have. -/
def BeyondLeds (data : List UInt8) : Prop :=
  data.getD 0 0 = 0x06 ∧ cfg.rgbMatrix = true ∧ cfg.rgbMatrixLedCount ≤ (data.getD 1 0).toNat

end Specification

section Traces

variable {cfg} {P : Effect → Prop} {s s' t : State w}

/-- From `s` to `s'` only effects with `P` are added to the trace. -/
def Adds (P : Effect → Prop) (s s' : State w) : Prop :=
  ∃ es, s'.effects = s.effects ++ es ∧ ∀ e ∈ es, P e

theorem Adds.all (h : Adds P s s') {es : List Effect} (hes : s'.effects = s.effects ++ es) :
    ∀ e ∈ es, P e := by
  obtain ⟨es', hes', hP⟩ := h
  obtain rfl : es = es' := List.append_cancel_left (hes.symm.trans hes')
  exact hP

theorem adds_refl : Adds P s s := ⟨[], by simp, by simp⟩

theorem Adds.congr (h : Adds P s s') (ht : t.effects = s'.effects) : Adds P s t := by
  obtain ⟨es, hes, hP⟩ := h
  exact ⟨es, ht.trans hes, hP⟩

theorem Adds.emits (h : Adds P s s') {es : List Effect} (hes : ∀ e ∈ es, P e) :
    Adds P s (s'.emits es) := by
  obtain ⟨es', hes', hP⟩ := h
  refine ⟨es' ++ es, by rw [State.emits, hes', List.append_assoc], ?_⟩
  simpa [or_imp, forall_and] using ⟨hP, hes⟩

def AllowsReports (P : Effect → Prop) : Prop := ∀ r, P (.report r)

theorem Adds.send (h : Adds P s s') (hP : AllowsReports P) (accepted : Bool) (r : Report) :
    Adds P s (rawHidSendOryx cfg accepted r s') := by
  have hreport : Adds P s (s'.emits [.report r]) := h.emits (by simpa using hP r)
  unfold rawHidSendOryx
  dsimp only
  split_ifs
  · exact hreport.congr rfl
  · exact hreport

theorem Adds.layerStateSet (h : Adds P s s') (hP : AllowsReports P) (accepted : Bool)
    (layers : BitVec w) : Adds P s (layerStateSet cfg accepted layers s') := by
  have hreport : Adds P s (rawHidSendOryx cfg accepted (.layer (getHighestLayer layers))
      { s' with currentLayer := getHighestLayer layers }) := by
    apply Adds.send _ hP
    exact h.congr rfl
  unfold Oryx.layerStateSet layerStateSetOryx
  dsimp only
  split_ifs
  · exact h
  · exact hreport.congr rfl
  · exact h

theorem adds_onRgbMatrix (hP : AllowsReports P) (accepted : Bool) {f : State w → State w}
    (hf : cfg.rgbMatrix = true → Adds P s (f s)) : Adds P s (onRgbMatrix cfg accepted f s) := by
  unfold onRgbMatrix
  split_ifs with hmatrix
  · exact hf hmatrix
  · exact adds_refl.send hP accepted _

/-- A property of all effects of `raw_hid_receive` holds when it holds of those that the command
has beside its report. -/
theorem adds_rawHidReceive (hP : AllowsReports P) (accepted : Bool) {data : List UInt8}
    (hlayer : data.getD 0 0 = 0x04 → s.paired = true →
      P (.layerOff (data.getD 2 0).toNat) ∧ P (.layerMove (data.getD 2 0).toNat))
    (hled : data.getD 0 0 = 0x06 → cfg.rgbMatrix = true →
      ∀ r g b, P (.webhidLed (data.getD 1 0).toNat r g b))
    (hleds : data.getD 0 0 = 0x05 ∨ data.getD 0 0 = 0x09 →
      ∀ i < cfg.rgbMatrixLedCount, ∀ r g b, P (.webhidLed i r g b))
    (hother : P .rgbMatrixModeWebhid ∧ P .rgbMatrixReload ∧ (∀ b, P (.rgbMatrixVal b)) ∧
      ∀ led value, P (.statusLed led value)) :
    Adds P s (rawHidReceive cfg accepted data s) := by
  obtain ⟨hmode, hreload, hval, hstatus⟩ := hother
  have hall (hcommand : data.getD 0 0 = 0x05 ∨ data.getD 0 0 = 0x09) (r g b : UInt8) :
      ∀ e ∈ webhidLeds cfg r g b, P e := by
    intro e he
    obtain ⟨i, hi, rfl⟩ := List.mem_map.mp he
    exact hleds hcommand i (List.mem_range.mp hi) r g b
  have heffect {s' : State w} (h : Adds P s s') : Adds P s (setWebhidEffect s') :=
    (h.emits (by simpa using hmode)).congr rfl
  have hclear (hcommand : data.getD 0 0 = 0x05 ∨ data.getD 0 0 = 0x09) :
      Adds P s (clearWebhidEffect cfg s) := by
    have hoff : ∀ e ∈ webhidLeds cfg 0 0 0 ++ [.rgbMatrixReload], P e := by
      simpa [or_imp, forall_and] using ⟨hall hcommand 0 0 0, hreload⟩
    exact (adds_refl.emits hoff).congr rfl
  unfold rawHidReceive
  dsimp only
  split
  · exact adds_refl.send hP accepted _
  · exact adds_refl.send hP accepted _
  · exact (adds_refl.congr rfl).send hP accepted _
  · exact adds_refl
  · next heq =>
    unfold setLayer
    dsimp only
    split_ifs with hpaired
    · exact (adds_refl.emits (by simpa using
        (hlayer (UInt8.toNat_inj.mp heq) hpaired).1)).layerStateSet hP accepted _
    · exact (adds_refl.emits (by simpa using
        (hlayer (UInt8.toNat_inj.mp heq) hpaired).2)).layerStateSet hP accepted _
    · exact adds_refl
  · next heq =>
    apply adds_onRgbMatrix hP
    rintro -
    split_ifs
    · exact (hclear (Or.inl (UInt8.toNat_inj.mp heq))).send hP accepted _
    · exact (heffect adds_refl).send hP accepted _
  · next heq =>
    apply adds_onRgbMatrix hP
    rintro hmatrix
    have hset := hled (UInt8.toNat_inj.mp heq) hmatrix
    split_ifs
    · exact adds_refl.emits (by simpa using hset _ _ _)
    · exact heffect (adds_refl.emits (by simpa using hset _ _ _))
  · next heq =>
    apply adds_onRgbMatrix hP
    rintro -
    have hset := hall (Or.inr (UInt8.toNat_inj.mp heq))
    split_ifs
    · exact adds_refl.emits (hset _ _ _)
    · exact heffect (adds_refl.emits (hset _ _ _))
  · unfold setStatusLed
    dsimp only
    split_ifs
    · exact (adds_refl.congr (t := { s with statusLedControl := true }) rfl).emits
        (by simpa using hstatus _ _)
    · exact (adds_refl.congr rfl).send hP accepted _
  · apply adds_onRgbMatrix hP
    rintro -
    exact adds_refl.emits (by simpa using hval _)
  · unfold statusLedControl
    dsimp only
    apply Adds.send _ hP
    split_ifs
    · exact (adds_refl.congr (t := { s with statusLedControl := _ }) rfl).emits
        (by simpa using fun led _ => hstatus led 0)
    · exact adds_refl.congr rfl
  · exact adds_refl.send hP accepted _

def Effect.NoLed : Effect → Prop
  | .webhidLed _ _ _ _ => False
  | _ => True

theorem ledsAfter_noLed {es : List Effect} (hes : ∀ e ∈ es, e.NoLed) (leds : ℕ → Rgb) :
    ledsAfter es leds = leds := by
  induction es with
  | nil => rfl
  | cons e es ih =>
    obtain ⟨he, hrest⟩ := List.forall_mem_cons.mp hes
    have hkept : writeLed leds e = leds := by
      cases e with
      | webhidLed => exact absurd he id
      | _ => rfl
    change ledsAfter es (writeLed leds e) = leds
    rw [hkept]
    exact ih hrest

end Traces

section Packets

variable {cfg} {s : State w} {accepted : Bool} {data : List UInt8}

theorem inRange_of_not_beyond (hlayers : ¬ BeyondLayers data s) (hleds : ¬ BeyondLeds cfg data) :
    Adds (Effect.InRange cfg w) s (rawHidReceive cfg accepted data s) := by
  apply adds_rawHidReceive
  · exact fun _ => trivial
  · rintro hcommand hpaired
    have hlayer : (data.getD 2 0).toNat < w := by
      by_contra hge
      exact hlayers ⟨hcommand, hpaired, not_lt.mp hge⟩
    exact ⟨hlayer, hlayer⟩
  · rintro hcommand hmatrix _ _ _
    by_contra hge
    exact hleds ⟨hcommand, hmatrix, not_lt.mp hge⟩
  · rintro _ i hi _ _ _
    exact hi
  · exact ⟨trivial, trivial, fun _ => trivial, fun _ _ => trivial⟩

theorem noLed_of_outOfRange (hout : OutOfRange cfg w data) (hleds : ¬ BeyondLeds cfg data) :
    Adds Effect.NoLed s (rawHidReceive cfg accepted data s) := by
  apply adds_rawHidReceive
  · exact fun _ => trivial
  · exact fun _ _ => ⟨trivial, trivial⟩
  · rintro hcommand hmatrix _ _ _
    rcases hout with ⟨h, -⟩ | ⟨-, h⟩ | ⟨h, -⟩
    · exact absurd (hcommand.symm.trans h) (by decide)
    · exact hleds ⟨hcommand, hmatrix, h⟩
    · exact absurd (hcommand.symm.trans h) (by decide)
  · rintro hcommand
    rcases hout with ⟨h, -⟩ | ⟨h, -⟩ | ⟨h, -⟩ <;> rw [h] at hcommand <;>
      exact absurd hcommand (by decide)
  · exact ⟨trivial, trivial, fun _ => trivial, fun _ _ => trivial⟩

theorem layerState_of_outOfRange (hout : OutOfRange cfg w data) (hlayers : ¬ BeyondLayers data s) :
    (rawHidReceive cfg accepted data s).layerState = s.layerState := by
  by_cases hcommand : data.getD 0 0 = 0x04
  · have hunpaired : s.paired ≠ true := by
      rintro hpaired
      rcases hout with ⟨-, h⟩ | ⟨h, -⟩ | ⟨h, -⟩
      · exact hlayers ⟨hcommand, hpaired, h⟩
      · exact absurd (hcommand.symm.trans h) (by decide)
      · exact absurd (hcommand.symm.trans h) (by decide)
    rw [rawHidReceive, hcommand]
    exact congrArg State.layerState (if_neg hunpaired)
  · exact (quiet_rawHidReceive accepted hcommand).layerState

theorem effects_setLayer (cfg : Config) (accepted : Bool) (hlayers : BeyondLayers data s) :
    ∃ es, (rawHidReceive cfg accepted data s).effects = s.effects ++ es ∧
      ∃ e ∈ es, ¬ e.InRange cfg w := by
  obtain ⟨hcommand, hpaired, hge⟩ := hlayers
  have hcall (e : Effect) (layers : BitVec w) :
      Adds (fun _ => True) (s.emits [e]) (layerStateSet cfg accepted layers (s.emits [e])) :=
    adds_refl.layerStateSet (fun _ => trivial) accepted layers
  rw [rawHidReceive, hcommand]
  change ∃ es, (setLayer cfg accepted _ s).effects = _ ∧ _
  rw [setLayer, if_pos hpaired]
  dsimp only
  split_ifs
  · obtain ⟨es, hes, -⟩ := hcall (.layerOff (data.getD 2 0).toNat) _
    refine ⟨_ :: es, by rw [hes, State.emits, List.append_assoc]; rfl, _, List.mem_cons_self, ?_⟩
    exact not_lt.mpr hge
  · obtain ⟨es, hes, -⟩ := hcall (.layerMove (data.getD 2 0).toNat) _
    refine ⟨_ :: es, by rw [hes, State.emits, List.append_assoc]; rfl, _, List.mem_cons_self, ?_⟩
    exact not_lt.mpr hge

theorem effects_setRgbLed (accepted : Bool) (hleds : BeyondLeds cfg data) :
    ∃ es, (rawHidReceive cfg accepted data s).effects = s.effects ++ es ∧
      ∃ e ∈ es, ¬ e.InRange cfg w := by
  obtain ⟨hcommand, hmatrix, hge⟩ := hleds
  rw [rawHidReceive, hcommand]
  change ∃ es, (onRgbMatrix cfg accepted _ s).effects = _ ∧ _
  rw [onRgbMatrix, if_pos hmatrix]
  dsimp only
  split_ifs
  · exact ⟨_, rfl, _, List.mem_singleton_self _, not_lt.mpr hge⟩
  · refine ⟨_ :: [.rgbMatrixModeWebhid], List.append_assoc _ _ _, _, List.mem_cons_self, ?_⟩
    exact not_lt.mpr hge

/-- The packets that name a layer or an LED beyond the last one are the only ones that are handled
out of bounds. -/
theorem withinBounds_iff (accepted : Bool) (data : List UInt8) (s : State w) :
    WithinBounds cfg accepted data s ↔ ¬ BeyondLayers data s ∧ ¬ BeyondLeds cfg data := by
  constructor
  · intro h
    refine ⟨fun hlayers => ?_, fun hleds => ?_⟩
    · obtain ⟨es, hes, e, he, hout⟩ := effects_setLayer cfg accepted hlayers
      exact hout (h.inRange es hes e he)
    · obtain ⟨es, hes, e, he, hout⟩ := effects_setRgbLed (s := s) accepted hleds
      exact hout (h.inRange es hes e he)
  · rintro ⟨hlayers, hleds⟩
    refine ⟨?_, ?_, ?_⟩
    · intro es hes
      exact (inRange_of_not_beyond hlayers hleds).all hes
    · intro hout es hes leds i _
      rw [ledsAfter_noLed ((noLed_of_outOfRange hout hleds).all hes)]
    · intro hout
      exact layerState_of_outOfRange hout hlayers

/-- LED 72 of a matrix with 72 LEDs. -/
theorem setRgbLed_not_withinBounds : ¬ WithinBounds ⟨false, true, 72, 6, []⟩ true
    (0x06 :: 72 :: List.replicate 30 0) ({} : State 32) := by
  intro h
  have hled := h.inRange [.webhidLed 72 0 0 0, .rgbMatrixModeWebhid] (by decide)
    (.webhidLed 72 0 0 0) List.mem_cons_self
  exact absurd hled (by simp [Effect.InRange])

end Packets

end Qmk.Oryx
