import Mathlib.Tactic.IntervalCases
import Qmk.HeldKeys
import Qmk.Steno

/-! # Strokes

What the packet of a stroke says about the keys of the stroke. The chord has the bits of the keys
that have been pressed since the last packet, and the counter is the number of keys that are held,
where a key of the combined map counts twice.
-/

namespace Qmk.Steno

open HeldKeys

section Packets

/-- The bit of a key in a packet: its byte, or group, and its place there. -/
def SetsBit (mode : StenoMode) (key group j : ℕ) : Prop :=
  match mode with
  | .gemini => group = key / 7 ∧ j = 6 - key % 7
  | .bolt => group = txbGetGroup (boltcode key) ∧ (boltcode key).getLsbD j

def EncodesGroup (mode : StenoMode) (keys : ℕ → Prop) (group : ℕ) (byte : BitVec 8) : Prop :=
  ∀ j, byte.getLsbD j ↔ ∃ key, keys key ∧ SetsBit mode key group j

/-- A packet for a set of keys. The first byte of Gemini PR has its highest bit set, and TX Bolt
sends the groups that are not empty and then a zero. -/
def IsPacket (mode : StenoMode) (keys : ℕ → Prop) (bytes : List (BitVec 8)) : Prop :=
  ∃ group : ℕ → BitVec 8, (∀ i, EncodesGroup mode keys i (group i)) ∧
    match mode with
    | .gemini => bytes = [group 0 ||| 0x80, group 1, group 2, group 3, group 4, group 5]
    | .bolt => bytes = [group 0, group 1, group 2, group 3].filter (fun b => b ≠ 0) ++ [0]

end Packets

section Runs

variable {κ : Type*} [DecidableEq κ] (c : Config)

abbrev StenoEvent (κ : Type*) := Event κ UInt16

/-- The keycodes of single keys that a keycode stands for. -/
def Config.codesOf (keycode : UInt16) : List UInt16 :=
  if STN_MIN ≤ keycode ∧ keycode ≤ STN_MAX then [keycode]
  else if c.combinedmap ∧ QK_STENO_COMB ≤ keycode ∧ keycode ≤ QK_STENO_COMB_MAX then
    let i := (keycode - QK_STENO_COMB).toNat
    [combinedmapFirst.getD i 0, combinedmapSecond.getD i 0]
  else []

def Config.keysOf (keycode : UInt16) : List ℕ := (c.codesOf keycode).map keyIndex

def Config.IsStenoKey (keycode : UInt16) : Prop := c.codesOf keycode ≠ []

instance (keycode : UInt16) : Decidable (c.IsStenoKey keycode) :=
  inferInstanceAs (Decidable (_ ≠ _))

/-- The packets of the mode are in the build. -/
def Config.Sends : StenoMode → Prop
  | .gemini => c.enableGemini ∧ c.virtser
  | .bolt => c.enableBolt ∧ c.virtser

instance : ∀ mode, Decidable (c.Sends mode)
  | .gemini => inferInstanceAs (Decidable (_ ∧ _))
  | .bolt => inferInstanceAs (Decidable (_ ∧ _))

def step (s : State) (e : StenoEvent κ) : State :=
  (processSteno c s e.what { pressed := e.pressed }).2

def run (s : State) (es : List (StenoEvent κ)) : State := es.foldl (step c) s

/-- A key has been pressed, and some key has been held ever since. -/
def PressedSince (es : List (StenoEvent κ)) (key : ℕ) : Prop :=
  ∃ before e after, es = before ++ e :: after ∧ e.pressed = true ∧ key ∈ c.keysOf e.what ∧
    ∀ p, p <+: after → held (before ++ e :: p) ≠ []

variable {c} {es : List (StenoEvent κ)} {e : StenoEvent κ} {key : ℕ}

theorem not_pressedSince_nil : ¬ PressedSince c ([] : List (StenoEvent κ)) key := by
  rintro ⟨before, e, after, h, -⟩
  simp at h

theorem PressedSince.held_ne_nil (h : PressedSince c es key) : held es ≠ [] := by
  obtain ⟨before, e, after, rfl, -, -, hheld⟩ := h
  exact hheld after (List.prefix_refl after)

theorem pressedSince_append : PressedSince c (es ++ [e]) key ↔
    (PressedSince c es key ∧ held (es ++ [e]) ≠ []) ∨
      (e.pressed = true ∧ key ∈ c.keysOf e.what) := by
  constructor
  · intro h
    have hend := h.held_ne_nil
    obtain ⟨before, e', after, hes, he', hkey, hheld⟩ := h
    rcases List.eq_nil_or_concat' after with rfl | ⟨after, last, rfl⟩
    · obtain ⟨rfl, hlast⟩ := List.append_inj' hes rfl
      obtain rfl : e = e' := List.singleton_inj.mp hlast
      exact Or.inr ⟨he', hkey⟩
    · left
      have hes' : es ++ [e] = (before ++ e' :: after) ++ [last] := by
        simpa using hes
      obtain ⟨rfl, -⟩ := List.append_inj' hes' rfl
      exact ⟨⟨before, e', after, rfl, he', hkey, fun p hp =>
        hheld p (hp.trans (List.prefix_append after _))⟩, hend⟩
  · rintro (⟨⟨before, e', after, rfl, he', hkey, hheld⟩, hend⟩ | ⟨he, hkey⟩)
    · refine ⟨before, e', after ++ [e], by simp, he', hkey, ?_⟩
      intro p hp
      rcases List.prefix_concat_iff.mp hp with rfl | hp
      · simpa using hend
      · exact hheld p hp
    · refine ⟨es, e, [], rfl, he, hkey, ?_⟩
      intro p hp
      rw [List.prefix_nil.mp hp, held_append]
      exact heldAfter_ne_nil he

end Runs

section Chords

variable {mode : StenoMode} {keys : ℕ → Prop} {c : Config} {s : State}

/-- A key whose bits are those of `b` in the group `g` is added to the chord. -/
theorem encodesGroup_update {chord : ℕ → BitVec 8} {b : BitVec 8} {g key : ℕ}
    (h : ∀ i, EncodesGroup mode keys i (chord i))
    (hb : ∀ i j, SetsBit mode key i j ↔ i = g ∧ b.getLsbD j) (i : ℕ) :
    EncodesGroup mode (fun k => keys k ∨ k = key) i
      (Function.update chord g (chord g ||| b) i) := by
  intro j
  have hkey : (∃ k, (keys k ∨ k = key) ∧ SetsBit mode k i j) ↔
      (chord i).getLsbD j ∨ SetsBit mode key i j := by
    rw [h i j]
    constructor
    · rintro ⟨k, hk | rfl, hbit⟩
      · exact Or.inl ⟨k, hk, hbit⟩
      · exact Or.inr hbit
    · rintro (⟨k, hk, hbit⟩ | hbit)
      · exact ⟨k, Or.inl hk, hbit⟩
      · exact ⟨key, Or.inr rfl, hbit⟩
  rw [hkey, hb]
  by_cases hi : i = g
  · subst hi
    simp [BitVec.getLsbD_or]
  · simp [hi]

theorem setsBit_gemini (key i j : ℕ) : SetsBit .gemini key i j ↔
    i = key / 7 ∧ (1 <<< (6 - (key - key / 7 * 7)) : BitVec 8).getLsbD j := by
  have hmod : key - key / 7 * 7 = key % 7 := by omega
  have hlt : key % 7 < 7 := Nat.mod_lt key (by decide)
  rw [SetsBit, hmod]
  generalize key % 7 = m at hlt
  refine and_congr_right fun _ => ?_
  by_cases hj : j < 8
  · interval_cases m <;> interval_cases j <;> decide
  · rw [BitVec.getLsbD_of_ge _ _ (by omega)]
    simp only [Bool.false_eq_true, iff_false]
    omega

/-- The chord has the bits of `keys`, and the counter is `n`. -/
structure Represents (mode : StenoMode) (n : ℕ) (keys : ℕ → Prop) (s : State) : Prop where
  mode_eq : s.mode = mode
  count : s.nPressedKeys.toInt = n
  chord : ∀ i, EncodesGroup mode keys i (s.chord i)

theorem represents_start (stenomode : StenoMode) :
    Represents mode 0 (fun _ => False) { mode := mode, stenomode := stenomode } where
  mode_eq := rfl
  count := rfl
  chord := by
    intro i j
    simp

theorem addKeyToChord_spec (hc : c.Sends mode) {n : ℕ} (h : Represents mode n keys s)
    (keycode : UInt16) :
    Represents mode n (fun k => keys k ∨ k = keyIndex keycode) (addKeyToChord c s keycode) ∧
      (addKeyToChord c s keycode).serial = s.serial := by
  obtain rfl := h.mode_eq
  unfold addKeyToChord
  match hmode : s.mode, hc with
  | .gemini, hc =>
    rw [hmode] at h
    simp only [hc.1, if_true]
    exact ⟨⟨hmode, h.count, encodesGroup_update h.chord (setsBit_gemini _)⟩, rfl⟩
  | .bolt, hc =>
    rw [hmode] at h
    simp only [hc.1, if_true]
    exact ⟨⟨hmode, h.count, encodesGroup_update h.chord fun i j => Iff.rfl⟩, rfl⟩

theorem processStn_press (hc : c.Sends mode) {n : ℕ} (hn : n < 127)
    (h : Represents mode n keys s) (keycode : UInt16) :
    Represents mode (n + 1) (fun k => keys k ∨ k = keyIndex keycode)
        (processStn c s keycode { pressed := true }) ∧
      (processStn c s keycode { pressed := true }).serial = s.serial := by
  have hcount : (s.nPressedKeys + 1).toInt = (n + 1 : ℕ) := by
    rw [Int8.toInt_add, h.count, Int8.toInt_one, Int.bmod_eq_of_le (by omega) (by omega)]
    rfl
  exact addKeyToChord_spec (s := { s with nPressedKeys := s.nPressedKeys + 1 }) hc
    ⟨h.mode_eq, hcount, h.chord⟩ keycode

theorem count_sub_one {n : ℕ} (h : Represents mode (n + 1) keys s) :
    (s.nPressedKeys - 1).toInt = n := by
  have hcount := h.count
  have hlt := s.nPressedKeys.toInt_lt
  rw [Int8.toInt_sub, hcount, Int8.toInt_one, Int.bmod_eq_of_le (by omega) (by omega)]
  omega

theorem processStn_release_more (c : Config) {n : ℕ} (hn : 0 < n)
    (h : Represents mode (n + 1) keys s) (keycode : UInt16) :
    Represents mode n keys (processStn c s keycode { pressed := false }) ∧
      (processStn c s keycode { pressed := false }).serial = s.serial := by
  have hcount := count_sub_one h
  have hpos : 0 < s.nPressedKeys - 1 := by
    rw [Int8.lt_iff_toInt_lt, hcount, Int8.toInt_zero]
    omega
  have hstep : processStn c s keycode { pressed := false } =
      { s with nPressedKeys := s.nPressedKeys - 1 } := by
    simp only [processStn, releaseKey, postProcessStenoUser, Bool.not_true, Bool.false_eq_true,
      if_false, if_pos hpos]
  rw [hstep]
  exact ⟨⟨h.mode_eq, hcount, h.chord⟩, rfl⟩

theorem sendStenoChord_spec (hc : c.Sends mode) (hmode : s.mode = mode)
    (h : ∀ i, EncodesGroup mode keys i (s.chord i)) :
    (sendStenoChord c s).mode = mode ∧ (sendStenoChord c s).nPressedKeys = s.nPressedKeys ∧
      ∃ bytes, (sendStenoChord c s).serial = s.serial ++ bytes ∧ IsPacket mode keys bytes := by
  obtain rfl := hmode
  unfold sendStenoChord
  match hmode : s.mode, hc with
  | .gemini, hc =>
    rw [hmode] at h
    simp only [hc.1, hc.2, Bool.and_self, if_true]
    exact ⟨hmode, rfl, _, rfl, s.chord, h, rfl⟩
  | .bolt, hc =>
    rw [hmode] at h
    simp only [hc.1, hc.2, Bool.and_self, if_true]
    exact ⟨hmode, rfl, _, List.append_assoc _ _ _, s.chord, h, rfl⟩

theorem processStn_release_last (hc : c.Sends mode) (h : Represents mode 1 keys s)
    (keycode : UInt16) :
    Represents mode 0 (fun _ => False) (processStn c s keycode { pressed := false }) ∧
      ∃ bytes, (processStn c s keycode { pressed := false }).serial = s.serial ++ bytes ∧
        IsPacket mode keys bytes := by
  have hcount : (s.nPressedKeys - 1).toInt = 0 := count_sub_one h
  have hzero : ¬ 0 < s.nPressedKeys - 1 := by
    rw [Int8.lt_iff_toInt_lt, hcount, Int8.toInt_zero]
    omega
  have hstep : processStn c s keycode { pressed := false } =
      stenoClearChord (sendStenoChord c { s with nPressedKeys := 0 }) := by
    simp only [processStn, releaseKey, postProcessStenoUser, sendStenoChordUser, Bool.not_true,
      Bool.false_eq_true, if_false, if_neg hzero]
  obtain ⟨hmode, hpressed, hserial⟩ :=
    sendStenoChord_spec (s := { s with nPressedKeys := 0 }) hc h.mode_eq h.chord
  rw [hstep]
  refine ⟨⟨hmode, ?_, ?_⟩, hserial⟩
  · exact congrArg Int8.toInt hpressed
  · intro i j
    simp [stenoClearChord]

end Chords

section Steps

variable {κ : Type*} [DecidableEq κ] {mode : StenoMode} {keys : ℕ → Prop} {c : Config} {s : State}

/-- The calls of `processStn` for one event. -/
def processCodes (c : Config) (s : State) (codes : List UInt16) (pressed : Bool) : State :=
  codes.foldl (fun s keycode => processStn c s keycode { pressed := pressed }) s

@[simp]
theorem processCodes_nil (pressed : Bool) : processCodes c s [] pressed = s := rfl

@[simp]
theorem processCodes_cons (code : UInt16) (codes : List UInt16) (pressed : Bool) :
    processCodes c s (code :: codes) pressed =
      processCodes c (processStn c s code { pressed := pressed }) codes pressed := rfl

omit [DecidableEq κ] in
theorem step_eq {e : StenoEvent κ} (he : c.IsStenoKey e.what) :
    step c s e = processCodes c s (c.codesOf e.what) e.pressed := by
  unfold Config.IsStenoKey at he
  unfold step processSteno
  unfold Config.codesOf at he ⊢
  simp only [STN_MIN, STN_MAX, QK_STENO, QK_STENO_MAX, QK_STENO_BOLT, QK_STENO_GEMINI,
    QK_STENO_COMB, QK_STENO_COMB_MAX, processStenoUser, UInt16.lt_iff_toNat_lt,
    UInt16.le_iff_toNat_le, ← UInt16.toNat_inj, UInt16.toNat_ofNat] at he ⊢
  split_ifs at he ⊢ <;> first | rfl | omega | simp_all

theorem processCodes_press (hc : c.Sends mode) (codes : List UInt16) {n : ℕ}
    (hn : n + codes.length ≤ 127) (h : Represents mode n keys s) :
    Represents mode (n + codes.length) (fun k => keys k ∨ k ∈ codes.map keyIndex)
        (processCodes c s codes true) ∧
      (processCodes c s codes true).serial = s.serial := by
  induction codes generalizing s n keys with
  | nil => simpa using h
  | cons code codes ih =>
    rw [List.length_cons] at hn
    obtain ⟨hfirst, hserial⟩ := processStn_press hc (by omega) h code
    obtain ⟨hrest, hserial'⟩ := ih (by omega) hfirst
    refine ⟨?_, hserial'.trans hserial⟩
    rw [List.length_cons, add_comm codes.length, ← add_assoc]
    simpa only [processCodes_cons, List.map_cons, List.mem_cons, or_assoc] using hrest

theorem processCodes_release (hc : c.Sends mode) (codes : List UInt16) (hcodes : codes ≠ [])
    {n : ℕ} (h : Represents mode (codes.length + n) keys s) :
    Represents mode n (fun k => keys k ∧ n ≠ 0) (processCodes c s codes false) ∧
      ∃ bytes, (processCodes c s codes false).serial = s.serial ++ bytes ∧
        (n = 0 → IsPacket mode keys bytes) ∧ (n ≠ 0 → bytes = []) := by
  induction codes generalizing s with
  | nil => exact absurd rfl hcodes
  | cons code codes ih =>
    rw [List.length_cons, Nat.add_right_comm] at h
    by_cases hlast : codes.length + n = 0
    · obtain ⟨hnil, rfl⟩ : codes.length = 0 ∧ n = 0 := by omega
      obtain rfl := List.length_eq_zero_iff.mp hnil
      obtain ⟨hrep, bytes, hserial, hpacket⟩ := processStn_release_last hc h code
      refine ⟨?_, bytes, hserial, fun _ => hpacket, fun h => absurd rfl h⟩
      simpa using hrep
    · obtain ⟨hfirst, hserial⟩ :=
        processStn_release_more c (Nat.pos_of_ne_zero hlast) h code
      rcases eq_or_ne codes [] with rfl | hne
      · rw [List.length_nil, zero_add] at hfirst hlast
        refine ⟨?_, [], by simpa using hserial, fun h => absurd h hlast,
          fun _ => rfl⟩
        simpa [hlast] using hfirst
      · obtain ⟨hrest, bytes, hserial', hbytes⟩ := ih hne hfirst
        exact ⟨hrest, bytes, by rw [← hserial]; exact hserial', hbytes⟩

end Steps

section Strokes

variable {κ : Type*} [DecidableEq κ] {mode : StenoMode} {c : Config} {es : List (StenoEvent κ)}
  {e : StenoEvent κ}

abbrev heldCount (c : Config) (down : List (κ × UInt16)) : ℕ :=
  weight (fun keycode => (c.codesOf keycode).length) down

omit [DecidableEq κ] in
theorem heldCount_le {down : List (κ × UInt16)} (hdown : down.length ≤ 60) :
    heldCount c down ≤ 120 := by
  have hle : ∀ p ∈ down, (c.codesOf p.2).length ≤ 2 := by
    intro p _
    unfold Config.codesOf
    split_ifs <;> simp
  exact (weight_le hle).trans (Nat.mul_le_mul_right 2 hdown)

theorem heldCount_eq_zero_iff (hsteno : ∀ e ∈ es, c.IsStenoKey e.what) :
    heldCount c (held es) = 0 ↔ held es = [] := by
  refine weight_eq_zero_iff fun p hp => ?_
  obtain ⟨e, he, -, rfl⟩ := exists_of_mem_held hp
  exact List.length_pos_of_ne_nil (hsteno e he)

def SendsPacket (c : Config) (mode : StenoMode) (es : List (StenoEvent κ)) (e : StenoEvent κ)
    (bytes : List (BitVec 8)) : Prop :=
  (held (es ++ [e]) = [] → IsPacket mode (PressedSince c es) bytes) ∧
    (held (es ++ [e]) ≠ [] → bytes = [])

theorem represents_step (hc : c.Sends mode) {s : State} (hfollows : Follows (held es) e)
    (hsteno : ∀ e' ∈ es ++ [e], c.IsStenoKey e'.what) (hdown : (held (es ++ [e])).length ≤ 60)
    (h : Represents mode (heldCount c (held es)) (PressedSince c es) s) :
    Represents mode (heldCount c (held (es ++ [e]))) (PressedSince c (es ++ [e])) (step c s e) ∧
      ∃ bytes, (step c s e).serial = s.serial ++ bytes ∧ SendsPacket c mode es e bytes := by
  have he : c.IsStenoKey e.what := hsteno e (by simp)
  have hle := heldCount_le (c := c) hdown
  have hzero := heldCount_eq_zero_iff hsteno
  rw [step_eq he]
  by_cases hpressed : e.pressed
  · have hcount : heldCount c (held (es ++ [e])) =
        heldCount c (held es) + (c.codesOf e.what).length := by
      rw [held_append, heldCount, weight_press hpressed, add_comm]
    have hne : held (es ++ [e]) ≠ [] := by
      rw [held_append]
      exact heldAfter_ne_nil hpressed
    obtain ⟨hrep, hserial⟩ := processCodes_press hc (c.codesOf e.what) (by omega) h
    rw [hpressed, hcount]
    refine ⟨?_, [], by rw [hserial, List.append_nil], fun h => absurd h hne, fun _ => rfl⟩
    convert hrep using 1
    ext key
    rw [pressedSince_append]
    simp only [hne, hpressed, Config.keysOf, ne_eq, not_false_eq_true, and_true, true_and]
  · have hcount : heldCount c (held es) =
        (c.codesOf e.what).length + heldCount c (held (es ++ [e])) := by
      rw [held_append, heldCount, ← weight_release hfollows hpressed]
    rw [hcount] at h
    obtain ⟨hrep, bytes, hserial, hpacket, hnone⟩ := processCodes_release hc _ he h
    rw [Bool.not_eq_true] at hpressed
    rw [hpressed]
    refine ⟨?_, bytes, hserial, fun h => hpacket (hzero.mpr h), fun h => hnone (mt hzero.mp h)⟩
    convert hrep using 1
    ext key
    rw [pressedSince_append, ne_eq, ne_eq, ← hzero]
    simp only [hpressed, Bool.false_eq_true, false_and, or_false]

/-- No event of a run has left more than 60 keys down. -/
def AtMostSixty (es : List (StenoEvent κ)) : Prop := ∀ p, p <+: es → (held p).length ≤ 60

theorem represents_run (hc : c.Sends mode) (stenomode : StenoMode) (halt : Alternates es)
    (hsteno : ∀ e ∈ es, c.IsStenoKey e.what) (hdown : AtMostSixty es) :
    Represents mode (heldCount c (held es)) (PressedSince c es)
      (run c { mode := mode, stenomode := stenomode } es) := by
  induction es using List.reverseRecOn with
  | nil =>
    have hkeys : PressedSince c ([] : List (StenoEvent κ)) = fun _ => False := by
      ext key
      exact iff_false_intro not_pressedSince_nil
    rw [hkeys]
    exact represents_start stenomode
  | append_singleton es e ih =>
    obtain ⟨halt, hfollows⟩ := alternates_append.mp halt
    have hes := ih halt (fun e' he' => hsteno e' (List.mem_append_left _ he'))
      fun p hp => hdown p (hp.trans (List.prefix_append es [e]))
    have hlast : (held (es ++ [e])).length ≤ 60 := hdown _ (List.prefix_refl _)
    rw [run, List.foldl_append]
    exact (represents_step hc hfollows hsteno hlast hes).1

/-- A packet is sent when the last held key is released, and at no other event. It encodes the keys
that have been pressed since the packet before it. -/
theorem packet_of_stroke (c : Config) (mode stenomode : StenoMode) (hc : c.Sends mode)
    (es : List (StenoEvent κ)) (e : StenoEvent κ) (halt : Alternates (es ++ [e]))
    (hsteno : ∀ e' ∈ es ++ [e], c.IsStenoKey e'.what) (hdown : AtMostSixty (es ++ [e])) :
    ∃ bytes, (run c { mode := mode, stenomode := stenomode } (es ++ [e])).serial =
        (run c { mode := mode, stenomode := stenomode } es).serial ++ bytes ∧
      (held (es ++ [e]) = [] → IsPacket mode (PressedSince c es) bytes) ∧
      (held (es ++ [e]) ≠ [] → bytes = []) := by
  obtain ⟨halt', hfollows⟩ := alternates_append.mp halt
  have hes := represents_run hc stenomode halt'
    (fun e' he' => hsteno e' (List.mem_append_left _ he'))
    fun p hp => hdown p (hp.trans (List.prefix_append es [e]))
  have hlast : (held (es ++ [e])).length ≤ 60 := hdown _ (List.prefix_refl _)
  have hstep := represents_step hc hfollows hsteno hlast hes
  simpa only [run, List.foldl_append, List.foldl_cons, List.foldl_nil, SendsPacket]
    using hstep.2

/-- A stroke of `STN_S3` and `STN_FN` in which `STN_FN` is released first. -/
theorem packet_of_stroke_combined :
    let c : Config := ⟨true, false, true, true⟩
    let es : List (StenoEvent ℕ) := [⟨0, 0x74F2, true⟩, ⟨1, 0x74C0, true⟩, ⟨1, 0x74C0, false⟩]
    ∃ bytes, (run c { mode := .gemini, stenomode := .gemini } (es ++ [⟨0, 0x74F2, false⟩])).serial =
        (run c { mode := .gemini, stenomode := .gemini } es).serial ++ bytes ∧
      (held (es ++ [⟨0, 0x74F2, false⟩]) = [] → IsPacket .gemini (PressedSince c es) bytes) ∧
      (held (es ++ [⟨0, 0x74F2, false⟩]) ≠ [] → bytes = []) := by
  intro c es
  have hdown : AtMostSixty (es ++ [⟨0, 0x74F2, false⟩]) := by
    intro p hp
    have hlen : p.length ≤ 4 := hp.length_le
    refine le_trans ?_ (hlen.trans (by decide))
    exact length_held_le p
  exact packet_of_stroke c .gemini .gemini (by decide) es ⟨0, 0x74F2, false⟩ (by decide)
    (by decide) hdown

example :
    (run { enableGemini := true, enableBolt := true, virtser := true, combinedmap := true }
      { mode := .bolt, stenomode := .bolt }
      [⟨0, 0x74F2, true⟩, ⟨1, 0x74D8, true⟩, ⟨0, 0x74F2, false⟩, ⟨1, 0x74D8, false⟩] :
        State).serial = [TXB_S_L, TXB_E_R, 0] := by decide

end Strokes

end Qmk.Steno
