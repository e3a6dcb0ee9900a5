import Qmk.Unicode

/-! # What a Unicode string types

Each character is one input. Between its start and its end come the hex digits of the character, or
of its surrogate pair.
-/

namespace Qmk.Unicode

section Specification

/-- The hex digit that is typed: a character, or a key of the keypad or of a letter. -/
def hexDigit? : Effect → Option ℕ
  | .sendChar c =>
    if 48 ≤ c.toNat ∧ c.toNat ≤ 57 then some (c.toNat - 48)
    else if 97 ≤ c.toNat ∧ c.toNat ≤ 102 then some (c.toNat - 87)
    else none
  | .tapCode code =>
    if 0x59 ≤ code.toNat ∧ code.toNat ≤ 0x61 then some (code.toNat - 0x58)
    else if code.toNat = 0x62 then some 0
    else if 0x04 ≤ code.toNat ∧ code.toNat ≤ 0x09 then some (code.toNat + 6)
    else none
  | _ => none

def readHex (digits : List ℕ) : ℕ := digits.foldl (fun n d => 16 * n + d) 0

/-- The input is neither started nor finished. -/
def Unmarked (effects : List Effect) : Prop :=
  .inputStarted ∉ effects ∧ .inputFinishing ∉ effects

structure Input where
  before : List Effect
  typed : List Effect
  after : List Effect
  unmarked : Unmarked before ∧ Unmarked typed ∧ Unmarked after

def Input.effects (i : Input) : List Effect :=
  i.before ++ [.inputStarted] ++ i.typed ++ [.inputFinishing] ++ i.after

/-- What is typed in an input gives the character: its number, or on macOS the four digits of each
half of its surrogate pair. WinCompose takes an input for a number if it begins with a decimal
digit. -/
def Gives (mode : InputMode) (c : Char) (typed : List Effect) : Prop :=
  ∃ digits, typed.map hexDigit? = digits.map some ∧
    (if mode = .macos ∧ 0xFFFF < c.toNat then
      digits.length = 8 ∧ readHex (digits.take 4) = 0xD800 + (c.toNat - 0x10000) / 0x400 ∧
        readHex (digits.drop 4) = 0xDC00 + (c.toNat - 0x10000) % 0x400
    else readHex digits = c.toNat) ∧
    (mode = .wincompose → ∃ d rest, digits = d :: rest ∧ d ≤ 9)

end Specification

section Effects

variable {cfg : Config} {s t u : State} {added more : List Effect}

/-- These effects are added, and what is saved stays. -/
structure Types (s t : State) (added : List Effect) : Prop where
  inputMode : t.inputMode = s.inputMode
  savedMods : t.savedMods = s.savedMods
  effects : t.effects = s.effects ++ added

theorem Types.trans (h : Types s t added) (h' : Types t u more) : Types s u (added ++ more) :=
  ⟨h'.inputMode.trans h.inputMode, h'.savedMods.trans h.savedMods, by
    rw [h'.effects, h.effects, List.append_assoc]⟩

theorem Types.refl (s : State) : Types s s [] := ⟨rfl, rfl, (List.append_nil _).symm⟩

theorem types_emit (e : Effect) (s : State) : Types s (s.emit e) [e] := ⟨rfl, rfl, rfl⟩

theorem types_pressMods (code : BitVec 8) (s : State) : Types s (s.pressMods code) [] := by
  unfold State.pressMods
  split_ifs <;> exact ⟨rfl, rfl, (List.append_nil _).symm⟩

theorem types_releaseMods (code : BitVec 8) (s : State) : Types s (s.releaseMods code) [] := by
  unfold State.releaseMods
  split_ifs <;> exact ⟨rfl, rfl, (List.append_nil _).symm⟩

theorem types_registerCode (code : BitVec 8) (s : State) :
    Types s (registerCode code s) [.registerCode code] :=
  (types_pressMods code s).trans (types_emit _ _)

theorem types_unregisterCode (code : BitVec 8) (s : State) :
    Types s (unregisterCode code s) [.unregisterCode code] :=
  (types_releaseMods code s).trans (types_emit _ _)

theorem types_tapMods (code : BitVec 8) (s : State) :
    Types s ((s.pressMods code).releaseMods code) [] :=
  (types_pressMods code s).trans (types_releaseMods code _)

theorem types_tapCode (code : BitVec 8) (s : State) : Types s (tapCode code s) [.tapCode code] :=
  (types_tapMods code s).trans (types_emit _ _)

theorem types_tapCode16 (code : BitVec 16) (s : State) :
    Types s (tapCode16 code s) [.tapCode16 code] := by
  unfold tapCode16
  dsimp only
  split_ifs
  · have htap := types_tapMods (code.setWidth 8)
      { s with realMods := s.realMods ||| KeyOverride.extractModBits code }
    exact ⟨htap.inputMode, htap.savedMods, by rw [State.emit, htap.effects, List.append_nil]⟩
  · have htap := types_tapMods (code.setWidth 8)
      { s with weakMods := s.weakMods ||| KeyOverride.extractModBits code }
    exact ⟨htap.inputMode, htap.savedMods, by rw [State.emit, htap.effects, List.append_nil]⟩

theorem types_waitMs (ms : ℕ) (s : State) : Types s (waitMs ms s) [.wait ms] := types_emit _ s

theorem types_sendChar (cfg : Config) (c : BitVec 8) (s : State) :
    Types s (sendChar cfg c s) [.sendChar c] := by
  have hsends (e : SendString.Effect) (t : State) : Types t (t.sends e) [] := by
    cases e with
    | registerCode code => exact types_pressMods code t
    | unregisterCode code => exact types_releaseMods code t
    | tapCode code => exact types_tapMods code t
    | tapCodeDelay code _ => exact types_tapMods code t
    | _ => exact Types.refl t
  have hfold (es : List SendString.Effect) (t : State) : Types t (es.foldl State.sends t) [] := by
    induction es generalizing t with
    | nil => exact Types.refl t
    | cons e es ih => exact (hsends e t).trans (ih _)
  exact (hfold _ s).trans (types_emit _ _)

theorem realMods_tapCode {code : BitVec 8} (h : ¬ IsModifier code) (s : State) :
    (tapCode code s).realMods = s.realMods := by
  rw [tapCode, State.pressMods, if_neg h, State.releaseMods, if_neg h]
  rfl

def Quiet (s t : State) : Prop := ∃ added, Unmarked added ∧ Types s t added

theorem Unmarked.append (h : Unmarked added) (h' : Unmarked more) : Unmarked (added ++ more) := by
  constructor
  · rw [List.mem_append]
    exact fun hmem => hmem.elim h.1 h'.1
  · rw [List.mem_append]
    exact fun hmem => hmem.elim h.2 h'.2

theorem Quiet.trans (h : Quiet s t) (h' : Quiet t u) : Quiet s u := by
  obtain ⟨added, hadded, htypes⟩ := h
  obtain ⟨more, hmore, htypes'⟩ := h'
  exact ⟨added ++ more, hadded.append hmore, htypes.trans htypes'⟩

theorem Quiet.refl (s : State) : Quiet s s := ⟨[], ⟨by simp, by simp⟩, Types.refl s⟩

theorem quiet_registerCode (code : BitVec 8) (s : State) : Quiet s (registerCode code s) :=
  ⟨_, ⟨by simp, by simp⟩, types_registerCode code s⟩

theorem quiet_unregisterCode (code : BitVec 8) (s : State) : Quiet s (unregisterCode code s) :=
  ⟨_, ⟨by simp, by simp⟩, types_unregisterCode code s⟩

theorem quiet_tapCode (code : BitVec 8) (s : State) : Quiet s (tapCode code s) :=
  ⟨_, ⟨by simp, by simp⟩, types_tapCode code s⟩

theorem quiet_tapCode16 (code : BitVec 16) (s : State) : Quiet s (tapCode16 code s) :=
  ⟨_, ⟨by simp, by simp⟩, types_tapCode16 code s⟩

theorem quiet_waitMs (ms : ℕ) (s : State) : Quiet s (waitMs ms s) :=
  ⟨_, ⟨by simp, by simp⟩, types_waitMs ms s⟩

theorem unicodeInputStart_types (cfg : Config) (s : State) : ∃ before, Unmarked before ∧
    (unicodeInputStart cfg s).inputMode = s.inputMode ∧
    (unicodeInputStart cfg s).savedMods = s.realMods ∧
    (unicodeInputStart cfg s).effects = s.effects ++ (before ++ [.inputStarted]) := by
  unfold unicodeInputStart
  extract_lets u v w lock x
  have hv : Quiet u v ∧ v.realMods = s.realMods := by
    unfold v
    split_ifs
    · exact ⟨quiet_tapCode kcCapsLock u, realMods_tapCode (by decide) u⟩
    · exact ⟨Quiet.refl u, rfl⟩
  have hlock : Quiet w lock := by
    unfold lock
    split_ifs
    · exact Quiet.refl w
    · exact quiet_tapCode _ _
  have hx : Quiet w x := by
    unfold x
    generalize w.inputMode = mode
    cases mode with
    | macos => exact quiet_registerCode _ _
    | linux => exact quiet_tapCode16 _ _
    | windows =>
      exact hlock.trans ((quiet_registerCode _ _).trans
        ((quiet_waitMs _ _).trans (quiet_tapCode _ _)))
    | bsd => exact Quiet.refl w
    | wincompose => exact (quiet_tapCode _ _).trans (quiet_tapCode _ _)
    | emacs =>
      exact (quiet_tapCode16 _ _).trans ((quiet_tapCode16 _ _).trans (quiet_tapCode16 _ _))
  obtain ⟨hquiet, hreal⟩ := hv
  have hswitched : Quiet w (waitMs cfg.unicodeTypeDelay x) := hx.trans (quiet_waitMs _ x)
  obtain ⟨locked, hlocked, hu⟩ := hquiet
  obtain ⟨keys, hkeys, hw⟩ := hswitched
  refine ⟨locked ++ keys, hlocked.append hkeys, hw.inputMode.trans hu.inputMode,
    hw.savedMods.trans hreal, ?_⟩
  change (waitMs cfg.unicodeTypeDelay x).effects ++ [.inputStarted] = _
  rw [hw.effects, List.append_assoc, List.append_assoc]
  change v.effects ++ _ = _
  rw [hu.effects, List.append_assoc]

theorem unicodeInputFinish_types (cfg : Config) (s : State) : ∃ after, Unmarked after ∧
    (unicodeInputFinish cfg s).inputMode = s.inputMode ∧
    (unicodeInputFinish cfg s).realMods = s.savedMods ∧
    (unicodeInputFinish cfg s).effects = s.effects ++ ([.inputFinishing] ++ after) := by
  unfold unicodeInputFinish
  extract_lets u space unalt x
  have hx : Quiet u x := by
    unfold x
    generalize u.inputMode = mode
    cases mode with
    | macos => exact quiet_unregisterCode _ _
    | linux =>
      have hspace : Quiet u space := quiet_tapCode _ _
      dsimp only
      split_ifs
      · exact hspace.trans (quiet_tapCode _ _)
      · exact hspace
    | windows =>
      have hunalt : Quiet u unalt := quiet_unregisterCode _ _
      dsimp only
      split_ifs
      · exact hunalt
      · exact hunalt.trans (quiet_tapCode _ _)
    | bsd => exact Quiet.refl u
    | wincompose => exact quiet_tapCode _ _
    | emacs => exact quiet_tapCode16 _ _
  obtain ⟨after, hafter, htypes⟩ := hx
  refine ⟨after, hafter, htypes.inputMode, htypes.savedMods, ?_⟩
  rw [← List.append_assoc]
  exact htypes.effects

end Effects

section Digits

variable {cfg : Config} {s : State}

def nibbleEffect (mode : InputMode) (digit : ℕ) : Effect :=
  if mode = .windows then .tapCode (nibbleCode digit) else .sendChar (nibbleChar digit)

theorem types_sendNibbleWrapper (cfg : Config) (digit : ℕ) (s : State) :
    Types s (sendNibbleWrapper cfg digit s) [nibbleEffect s.inputMode digit] := by
  unfold sendNibbleWrapper nibbleEffect
  split_ifs
  · exact types_tapCode _ s
  · exact types_sendChar cfg _ s

theorem hexDigit?_nibbleEffect (mode : InputMode) :
    ∀ digit < 16, hexDigit? (nibbleEffect mode digit) = some digit := by
  cases mode <;> decide

theorem unmarked_nibbleEffects (mode : InputMode) (digits : List ℕ) :
    Unmarked (digits.map (nibbleEffect mode)) := by
  have hne (digit : ℕ) : nibbleEffect mode digit ≠ .inputStarted ∧
      nibbleEffect mode digit ≠ .inputFinishing := by
    unfold nibbleEffect
    split_ifs <;> simp
  constructor
  · rw [List.mem_map]
    exact fun ⟨digit, _, heq⟩ => (hne digit).1 heq
  · rw [List.mem_map]
    exact fun ⟨digit, _, heq⟩ => (hne digit).2 heq

def digitRound (needsLeadingZero : Bool) (n : ℕ) (r : Bool × List ℕ) (i : ℕ) : Bool × List ℕ :=
  let digit := n / 16 ^ i % 16
  let digits := if r.1 ∧ needsLeadingZero ∧ 9 < digit then r.2 ++ [0] else r.2
  if digit ≠ 0 ∨ ¬ r.1 ∨ i < 4 then (false, digits ++ [digit]) else (r.1, digits)

def hexDigits (needsLeadingZero : Bool) (n : ℕ) : List ℕ :=
  ([7, 6, 5, 4, 3, 2, 1, 0].foldl (digitRound needsLeadingZero n) (true, [])).2

theorem digit_eq (hex : BitVec 32) (i : ℕ) :
    (hex >>> (i * 4) &&& 0xF).toNat = hex.toNat / 16 ^ i % 16 := by
  rw [BitVec.toNat_and, BitVec.toNat_ushiftRight, Nat.shiftRight_eq_div_pow, Nat.mul_comm, pow_mul]
  exact Nat.and_two_pow_sub_one_eq_mod _ 4

theorem Types.sendNibble {t : State} {digits : List ℕ}
    (h : Types s t (digits.map (nibbleEffect s.inputMode))) (cfg : Config) (digit : ℕ) :
    Types s (sendNibbleWrapper cfg digit t)
      ((digits ++ [digit]).map (nibbleEffect s.inputMode)) := by
  have hnibble := types_sendNibbleWrapper cfg digit t
  rw [h.inputMode] at hnibble
  rw [List.map_append]
  exact h.trans hnibble

theorem Types.hexRound {t : State} {digits : List ℕ}
    (h : Types s t (digits.map (nibbleEffect s.inputMode))) (cfg : Config)
    (needsLeadingZero : Bool) (hex : BitVec 32) (firstDigit : Bool) (i : ℕ) :
    (hexRound cfg needsLeadingZero hex (firstDigit, t) i).1 =
      (digitRound needsLeadingZero hex.toNat (firstDigit, digits) i).1 ∧
    Types s (hexRound cfg needsLeadingZero hex (firstDigit, t) i).2
      ((digitRound needsLeadingZero hex.toNat (firstDigit, digits) i).2.map
        (nibbleEffect s.inputMode)) := by
  unfold Unicode.hexRound digitRound
  dsimp only
  rw [digit_eq]
  split_ifs
  · exact ⟨rfl, (h.sendNibble cfg 0).sendNibble cfg _⟩
  · exact ⟨rfl, h.sendNibble cfg _⟩
  · exact ⟨rfl, h.sendNibble cfg 0⟩
  · exact ⟨rfl, h⟩

theorem types_registerHex32 (cfg : Config) (hex : BitVec 32) (s : State) :
    Types s (registerHex32 cfg hex s)
      ((hexDigits (s.inputMode = .wincompose) hex.toNat).map (nibbleEffect s.inputMode)) := by
  have hfold (is : List ℕ) : ∀ (firstDigit : Bool) (t : State) (digits : List ℕ),
      Types s t (digits.map (nibbleEffect s.inputMode)) →
      Types s (is.foldl (hexRound cfg (s.inputMode = .wincompose) hex) (firstDigit, t)).2
        ((is.foldl (digitRound (s.inputMode = .wincompose) hex.toNat)
          (firstDigit, digits)).2.map (nibbleEffect s.inputMode)) := by
    induction is with
    | nil => exact fun _ _ _ htypes => htypes
    | cons i is ih =>
      rintro firstDigit t digits htypes
      obtain ⟨hfirst, hround⟩ :=
        htypes.hexRound cfg (s.inputMode = .wincompose) hex firstDigit i
      rw [List.foldl_cons, List.foldl_cons, ← Prod.mk.eta (p := hexRound ..), hfirst]
      exact ih _ _ _ hround
  exact hfold _ true s [] (Types.refl s)

structure ReadsFrom (needsLeadingZero : Bool) (n j : ℕ) (r : Bool × List ℕ) : Prop where
  reads : readHex r.2 = n / 16 ^ j
  first : r.1 = true → r.2 = []
  typed : r.1 = false → ∃ d rest, r.2 = d :: rest ∧ (needsLeadingZero = true → d ≤ 9)
  all : j < 4 → r.1 = false
  small : ∀ d ∈ r.2, d < 16

theorem readHex_append (digits : List ℕ) (d : ℕ) :
    readHex (digits ++ [d]) = 16 * readHex digits + d := by
  rw [readHex, List.foldl_append]
  rfl

theorem ReadsFrom.round {needsLeadingZero : Bool} {n i : ℕ} {r : Bool × List ℕ}
    (h : ReadsFrom needsLeadingZero n (i + 1) r) :
    ReadsFrom needsLeadingZero n i (digitRound needsLeadingZero n r i) := by
  obtain ⟨firstDigit, digits⟩ := r
  have hdiv : n / 16 ^ i = 16 * (n / 16 ^ (i + 1)) + n / 16 ^ i % 16 := by
    rw [pow_succ, ← Nat.div_div_eq_div_mul]
    omega
  have hsmall : n / 16 ^ i % 16 < 16 := Nat.mod_lt _ (by decide)
  unfold digitRound
  dsimp only
  cases firstDigit with
  | true =>
    have hnone : digits = [] := h.first rfl
    subst hnone
    have hzero : n / 16 ^ (i + 1) = 0 := h.reads.symm
    rw [hzero] at hdiv
    by_cases hdigit : n / 16 ^ i % 16 ≠ 0 ∨ ¬ true = true ∨ i < 4
    · rw [if_pos hdigit]
      by_cases hleading : true = true ∧ needsLeadingZero = true ∧ 9 < n / 16 ^ i % 16
      · rw [if_pos hleading]
        refine ⟨?_, nofun, fun _ => ⟨0, _, rfl, fun _ => by omega⟩, fun _ => rfl, ?_⟩
        · exact (readHex_append [0] _).trans hdiv.symm
        · simp [hsmall]
      · rw [if_neg hleading]
        refine ⟨?_, nofun, fun _ => ⟨_, [], rfl, fun hneeds => ?_⟩, fun _ => rfl, ?_⟩
        · exact (readHex_append [] _).trans hdiv.symm
        · by_contra hbig
          exact hleading ⟨rfl, hneeds, by omega⟩
        · simp [hsmall]
    · rw [if_neg hdigit, if_neg (by omega)]
      refine ⟨?_, fun _ => rfl, nofun, fun hlt => absurd (Or.inr (Or.inr hlt)) hdigit, nofun⟩
      change 0 = _
      omega
  | false =>
    obtain ⟨d, rest, rfl, hd⟩ := h.typed rfl
    have hdigit : n / 16 ^ i % 16 ≠ 0 ∨ ¬ false = true ∨ i < 4 := Or.inr (Or.inl (by decide))
    rw [if_pos hdigit, if_neg (by simp)]
    refine ⟨?_, nofun, fun _ => ⟨d, _, rfl, hd⟩, fun _ => rfl, ?_⟩
    · rw [readHex_append, h.reads, hdiv]
      omega
    · intro e he
      rcases List.mem_append.mp he with he | he
      · exact h.small e he
      · rw [List.mem_singleton.mp he]
        exact hsmall

theorem hexDigits_reads (needsLeadingZero : Bool) {n : ℕ} (h : n < 16 ^ 8) :
    readHex (hexDigits needsLeadingZero n) = n ∧
    (∃ d rest, hexDigits needsLeadingZero n = d :: rest ∧ (needsLeadingZero = true → d ≤ 9)) ∧
    ∀ d ∈ hexDigits needsLeadingZero n, d < 16 := by
  have hstart : ReadsFrom needsLeadingZero n 8 (true, []) :=
    ⟨(Nat.div_eq_of_lt h).symm, fun _ => rfl, nofun, nofun, nofun⟩
  have hend := hstart.round.round.round.round.round.round.round.round
  refine ⟨?_, hend.typed (hend.all (by omega)), hend.small⟩
  have hreads := hend.reads
  rwa [pow_zero, Nat.div_one] at hreads

theorem digitRound_zero {n i : ℕ} (hlt : n < 16 ^ i) (hi : 4 ≤ i) :
    digitRound false n (true, []) i = (true, []) := by
  have hnot : ¬ (0 % 16 ≠ 0 ∨ ¬ true = true ∨ i < 4) := by
    rintro (hzero | hfirst | hlast)
    · exact hzero rfl
    · exact hfirst rfl
    · omega
  rw [digitRound, Nat.div_eq_of_lt hlt]
  exact if_neg hnot

theorem length_digitRound {n i : ℕ} (hi : i < 4) (r : Bool × List ℕ) :
    (digitRound false n r i).2.length = r.2.length + 1 := by
  unfold digitRound
  simp [hi]

theorem length_hexDigits {n : ℕ} (h : n < 16 ^ 4) : (hexDigits false n).length = 4 := by
  have hlt (i : ℕ) (hi : 4 ≤ i) : n < 16 ^ i :=
    h.trans_le (Nat.pow_le_pow_right (by decide) hi)
  have hzero (i : ℕ) (hi : 4 ≤ i) : digitRound false n (true, []) i = (true, []) :=
    digitRound_zero (hlt i hi) hi
  rw [hexDigits]
  simp only [List.foldl_cons, List.foldl_nil]
  rw [hzero 7 (by decide), hzero 6 (by decide), hzero 5 (by decide), hzero 4 (by decide),
    length_digitRound (by decide), length_digitRound (by decide), length_digitRound (by decide),
    length_digitRound (by decide)]
  rfl

end Digits

section Characters

variable {cfg : Config}

theorem toNat_le (c : Char) : c.toNat ≤ 0x10FFFF := by
  have hvalid : c.val.toNat < 0xD800 ∨ (0xDFFF < c.val.toNat ∧ c.val.toNat < 0x110000) := c.valid
  change c.val.toNat ≤ 0x10FFFF
  omega

theorem surrogates {codePoint : BitVec 32} (hbig : 0xFFFF < codePoint.toNat)
    (hle : codePoint.toNat ≤ 0x10FFFF) :
    ((codePoint - 0x10000 &&& 0xFFC00) >>> 10 + 0xD800).toNat =
      0xD800 + (codePoint.toNat - 0x10000) / 0x400 ∧
    ((codePoint - 0x10000 &&& 0x3FF) + 0xDC00).toNat =
      0xDC00 + (codePoint.toNat - 0x10000) % 0x400 := by
  have hsub : (codePoint - 0x10000).toNat = codePoint.toNat - 0x10000 := by bv_omega
  have hlow : (codePoint - 0x10000 &&& 0x3FF).toNat = (codePoint.toNat - 0x10000) % 0x400 := by
    rw [BitVec.toNat_and, hsub]
    exact Nat.and_two_pow_sub_one_eq_mod _ 10
  have hhigh : ((codePoint - 0x10000 &&& 0xFFC00) >>> 10).toNat =
      (codePoint.toNat - 0x10000) / 0x400 := by
    rw [BitVec.ushiftRight_and_distrib, BitVec.toNat_and, BitVec.toNat_ushiftRight, hsub,
      Nat.shiftRight_eq_div_pow]
    have hmask := Nat.and_two_pow_sub_one_eq_mod ((codePoint.toNat - 0x10000) / 2 ^ 10) 10
    have hmod : (codePoint.toNat - 0x10000) / 2 ^ 10 % 2 ^ 10 =
        (codePoint.toNat - 0x10000) / 0x400 := by omega
    exact hmask.trans hmod
  constructor
  · rw [BitVec.toNat_add, hhigh]
    change (_ + 0xD800) % 2 ^ 32 = _
    omega
  · rw [BitVec.toNat_add, hlow]
    change (_ + 0xDC00) % 2 ^ 32 = _
    omega

theorem map_hexDigit? {digits : List ℕ} (mode : InputMode) (h : ∀ d ∈ digits, d < 16) :
    (digits.map (nibbleEffect mode)).map hexDigit? = digits.map some := by
  rw [List.map_map]
  exact List.map_congr_left fun d hd => hexDigit?_nibbleEffect mode d (h d hd)

theorem toNat_codePoint (c : Char) : (BitVec.ofNat 32 c.toNat).toNat = c.toNat := by
  have hle := toNat_le c
  rw [BitVec.toNat_ofNat, Nat.mod_eq_of_lt (by omega)]

/-- What `register_unicode` types between the start and the end. -/
def registerDigits (cfg : Config) (codePoint : BitVec 32) (s : State) : State :=
  if 0xFFFF < codePoint ∧ s.inputMode = .macos then
    registerHex32 cfg ((codePoint - 0x10000 &&& 0x3FF) + 0xDC00)
      (registerHex32 cfg ((codePoint - 0x10000 &&& 0xFFC00) >>> 10 + 0xD800) s)
  else registerHex32 cfg codePoint s

theorem registerDigits_gives (cfg : Config) (c : Char) (s : State) : ∃ digits : List ℕ,
    Types s (registerDigits cfg (BitVec.ofNat 32 c.toNat) s)
      (digits.map (nibbleEffect s.inputMode)) ∧
    Gives s.inputMode c (digits.map (nibbleEffect s.inputMode)) := by
  have hle := toNat_le c
  have hcode := toNat_codePoint c
  unfold registerDigits
  by_cases hpair : 0xFFFF < BitVec.ofNat 32 c.toNat ∧ s.inputMode = .macos
  · have hbig : 0xFFFF < c.toNat := by
      rw [← hcode]
      exact hpair.1
    obtain ⟨hhigh, hlow⟩ := surrogates (hcode.symm ▸ hbig) (hcode.symm ▸ hle)
    rw [hcode] at hhigh hlow
    have hmode : s.inputMode ≠ .wincompose := by
      rw [hpair.2]
      exact nofun
    have htypesHigh := types_registerHex32 cfg
      ((BitVec.ofNat 32 c.toNat - 0x10000 &&& 0xFFC00) >>> 10 + 0xD800) s
    have htypes := htypesHigh.trans (types_registerHex32 cfg
      ((BitVec.ofNat 32 c.toNat - 0x10000 &&& 0x3FF) + 0xDC00) _)
    rw [htypesHigh.inputMode, decide_eq_false hmode, hhigh, hlow, ← List.map_append] at htypes
    have hhighLt : 0xD800 + (c.toNat - 0x10000) / 0x400 < 16 ^ 4 := by omega
    have hlowLt : 0xDC00 + (c.toNat - 0x10000) % 0x400 < 16 ^ 4 := by omega
    obtain ⟨hreadsHigh, -, hsmallHigh⟩ := hexDigits_reads false (hhighLt.trans (by decide))
    obtain ⟨hreadsLow, -, hsmallLow⟩ := hexDigits_reads false (hlowLt.trans (by decide))
    rw [if_pos hpair]
    refine ⟨_, htypes, _, map_hexDigit? _ ?_, ?_, fun hcompose => absurd hcompose hmode⟩
    · intro d hd
      exact (List.mem_append.mp hd).elim (hsmallHigh d) (hsmallLow d)
    · rw [if_pos ⟨hpair.2, hbig⟩, List.length_append, length_hexDigits hhighLt,
        length_hexDigits hlowLt, List.take_left' (length_hexDigits hhighLt),
        List.drop_left' (length_hexDigits hhighLt)]
      exact ⟨rfl, hreadsHigh, hreadsLow⟩
  · have hnot : ¬ (s.inputMode = .macos ∧ 0xFFFF < c.toNat) := by
      rintro ⟨hmode, hbig⟩
      rw [← hcode] at hbig
      exact hpair ⟨hbig, hmode⟩
    have htypes := types_registerHex32 cfg (BitVec.ofNat 32 c.toNat) s
    rw [hcode] at htypes
    obtain ⟨hreads, hfirst, hsmall⟩ := hexDigits_reads (s.inputMode = .wincompose)
      (show c.toNat < 16 ^ 8 by omega)
    rw [if_neg hpair]
    refine ⟨_, htypes, _, map_hexDigit? _ hsmall, ?_, fun hcompose => ?_⟩
    · rwa [if_neg hnot]
    · obtain ⟨d, rest, hdigits, hd⟩ := hfirst
      exact ⟨d, rest, hdigits, hd (decide_eq_true hcompose)⟩

theorem registerUnicode_gives (cfg : Config) (c : Char) (s : State)
    (hwindows : s.inputMode = .windows → c.toNat ≤ 0xFFFF) :
    ∃ input : Input, Gives s.inputMode c input.typed ∧
      (registerUnicode cfg (BitVec.ofNat 32 c.toNat) s).inputMode = s.inputMode ∧
      (registerUnicode cfg (BitVec.ofNat 32 c.toNat) s).realMods = s.realMods ∧
      (registerUnicode cfg (BitVec.ofNat 32 c.toNat) s).effects = s.effects ++ input.effects := by
  have hle := toNat_le c
  have hinRange : ¬ (0x10FFFF < BitVec.ofNat 32 c.toNat ∨
      (0xFFFF < BitVec.ofNat 32 c.toNat ∧ s.inputMode = .windows)) := by
    rw [BitVec.lt_def, BitVec.lt_def, toNat_codePoint]
    rintro (hbig | ⟨hbig, hmode⟩)
    · exact absurd hle (Nat.not_le.mpr hbig)
    · exact absurd (hwindows hmode) (Nat.not_le.mpr hbig)
  obtain ⟨before, hbefore, hstartMode, hsaved, hstarted⟩ := unicodeInputStart_types cfg s
  obtain ⟨digits, htypes, hgives⟩ := registerDigits_gives cfg c (unicodeInputStart cfg s)
  obtain ⟨after, hafter, hmode, hreal, hfinished⟩ := unicodeInputFinish_types cfg
    (registerDigits cfg (BitVec.ofNat 32 c.toNat) (unicodeInputStart cfg s))
  have hregister : registerUnicode cfg (BitVec.ofNat 32 c.toNat) s = unicodeInputFinish cfg
      (registerDigits cfg (BitVec.ofNat 32 c.toNat) (unicodeInputStart cfg s)) := by
    rw [registerUnicode, if_neg hinRange]
    rfl
  rw [hstartMode] at hgives
  rw [hregister]
  refine ⟨⟨before, _, after, hbefore, unmarked_nibbleEffects _ _, hafter⟩, hgives,
    hmode.trans (htypes.inputMode.trans hstartMode),
    hreal.trans (htypes.savedMods.trans hsaved), ?_⟩
  rw [hfinished, htypes.effects, hstarted, Input.effects, hstartMode]
  simp only [List.append_assoc]

end Characters

section Strings

variable {cfg : Config} {mem : Mem (BitVec 8)} {p : ℕ}

theorem decode_of_read {c : Char} (h : mem.read p (Utf8.encode c).length = Utf8.encode c) :
    (Utf8.decodeUtf8 mem p).codePoint = c.toNat ∧
      (Utf8.decodeUtf8 mem p).next = p + (Utf8.encode c).length := by
  have hdecode := Utf8.decode_encode mem p c
  rwa [Mem.write_of_read h] at hdecode

/-- The bytes of a text, with the zero behind them. -/
def textBytes (text : List Char) : List (BitVec 8) := text.flatMap Utf8.encode ++ [0]

/-- The effects of a text are one input for each character, and the modifiers are as before. -/
structure Gave (text : List Char) (s t : State) : Prop where
  realMods : t.realMods = s.realMods
  inputs : ∃ inputs : List Input, t.effects = s.effects ++ inputs.flatMap Input.effects ∧
    List.Forall₂ (fun c input => Gives s.inputMode c input.typed) text inputs

theorem sendCodePoints_gives (cfg : Config) (mem : Mem (BitVec 8)) (text : List Char)
    (hnul : '\x00' ∉ text) {p : ℕ} {s : State}
    (hbytes : mem.read p (textBytes text).length = textBytes text)
    (hwindows : s.inputMode = .windows → ∀ c ∈ text, c.toNat ≤ 0xFFFF) :
    ∃ t, sendCodePoints cfg mem (text.length + 1) p s = some t ∧ Gave text s t := by
  induction text generalizing p s with
  | nil =>
    have hzero : mem p = 0 := Mem.read_eq_list_iff.mp hbytes 0 (by decide)
    refine ⟨s, ?_, rfl, [], (List.append_nil _).symm, .nil⟩
    exact if_pos hzero
  | cons c text ih =>
    have hsplit : textBytes (c :: text) = Utf8.encode c ++ textBytes text := List.append_assoc _ _ _
    rw [hsplit, List.length_append, Mem.read_append] at hbytes
    obtain ⟨hfirst, hrest⟩ := List.append_inj hbytes (Mem.length_read ..)
    obtain ⟨hcode, hnext⟩ := decode_of_read hfirst
    have hne : mem p ≠ 0 := by
      intro hzero
      have hsmall : (mem p).toNat < 0x80 := by
        rw [hzero]
        decide
      rw [Utf8.decode_one hsmall, hzero] at hcode
      have hnat : c.toNat = 0 := (Nat.cast_injective hcode).symm
      have hc : c = '\x00' := Char.toNat_inj.mp hnat
      exact hnul (hc ▸ List.mem_cons_self)
    obtain ⟨input, hgives, hmode, hreal, heffects⟩ :=
      registerUnicode_gives cfg c s fun hwin => hwindows hwin c List.mem_cons_self
    set next := registerUnicode cfg (BitVec.ofNat 32 c.toNat) s
    obtain ⟨t, hsent, hgave, inputs, hinputs, hall⟩ := ih
      (fun hmem => hnul (List.mem_cons_of_mem _ hmem)) hrest (s := next)
      fun hwin d hd => hwindows (hmode.symm.trans hwin) d (List.mem_cons_of_mem _ hd)
    refine ⟨t, ?_, hgave.trans hreal, input :: inputs, ?_, ?_⟩
    · rw [List.length_cons, sendCodePoints, if_neg hne]
      dsimp only
      rw [hcode, hnext, if_pos (Int.natCast_nonneg _), BitVec.ofInt_natCast]
      exact hsent
    · rw [hinputs, heffects, List.flatMap_cons, List.append_assoc]
    · rw [hmode] at hall
      exact .cons hgives hall

/-- A text of characters other than zero is typed in its inputs, on Windows if it has no character
beyond the first plane. -/
theorem sendUnicodeString_gives (cfg : Config) (mem : Mem (BitVec 8)) (p : ℕ) (text : List Char)
    (s : State) (hnul : '\x00' ∉ text)
    (hbytes : mem.read p (textBytes text).length = textBytes text)
    (hwindows : s.inputMode = .windows → ∀ c ∈ text, c.toNat ≤ 0xFFFF) :
    ∃ t, sendUnicodeString cfg mem (text.length + 1) (some p) s = some t ∧ Gave text s t :=
  sendCodePoints_gives cfg mem text hnul hbytes hwindows

def alphanumeric : SendString.Tables where
  bell := false
  keycode c :=
    if c = 48 then 0x27
    else if 49 ≤ c ∧ c ≤ 57 then c - 19
    else if 97 ≤ c ∧ c ≤ 122 then c - 93
    else if 65 ≤ c ∧ c ≤ 90 then c - 61
    else 0
  shifted c := 65 ≤ c ∧ c ≤ 90
  altgred _ := false
  dead _ := false

/-- A build in which the host has Num Lock on. -/
def plain : Config where
  tables := alphanumeric
  hostKeyboardLedState := fun _ => { numLock := true }

/-- Characters of the first plane and beyond it, typed on macOS with left shift held. -/
theorem sendUnicodeString_gives_face : ∃ t,
    sendUnicodeString plain (Mem.write (fun _ => 0) 0 (textBytes ['é', '😀'])) 3 (some 0)
      { inputMode := .macos, realMods := 0x02 } = some t ∧
    Gave ['é', '😀'] { inputMode := .macos, realMods := 0x02 } t :=
  sendUnicodeString_gives plain (Mem.write (fun _ => 0) 0 (textBytes ['é', '😀'])) 0 ['é', '😀']
    { inputMode := .macos, realMods := 0x02 } (by decide) (Mem.read_write _ _ _) nofun

end Strings

end Qmk.Unicode
