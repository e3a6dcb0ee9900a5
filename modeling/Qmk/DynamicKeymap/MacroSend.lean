import Qmk.DynamicKeymap
import Qmk.SendString

/-! # Sending a macro

The macros lie one behind the other in the EEPROM, each with a zero behind it. A macro is sent in
pieces, a character or a sequence at a time, through a buffer that is cleared only once. The pieces
are what the macro consists of up to a sequence that is cut off.
-/

namespace Qmk.DynamicKeymap

open SendString

def macroBytes (cfg : Config) (mem : Mem (BitVec 8)) : List (BitVec 8) :=
  (List.range cfg.macroSize).map fun i => eepromReadByte cfg (cfg.macroAddr + i) mem

/-- What lies behind `id` zeros. -/
def skipMacros : ℕ → List (BitVec 8) → Option (List (BitVec 8))
  | 0, bytes => some bytes
  | _ + 1, [] => none
  | id + 1, b :: bytes => if b = 0 then skipMacros id bytes else skipMacros (id + 1) bytes

/-- What is read next: the first byte of a piece, the code behind a prefix, a keycode, or what goes
to position `i` behind the prefix of a wait. -/
inductive Place
  | start
  | code
  | key
  | delay (i : ℕ)

section Model

variable (tables : Tables) (interval : ℕ)

/-- A piece is sent before what comes behind it. -/
def sendThen (data : List (BitVec 8)) (later : Option (List Effect)) : Option (List Effect) :=
  (sendString tables interval .text data).bind fun sent => later.map (sent ++ ·)

/-- The loop over the bytes of a macro, with the buffer. It has no value if it reads behind the
bytes. -/
def sendPieces : Place → List (BitVec 8) → List (BitVec 8) → Option (List Effect)
  | _, _, [] => none
  | .start, data, b :: bytes =>
    let data := (data.set 0 b).set 1 0
    if b = 0 then some []
    else if b = qmkPrefix then sendPieces .code data bytes
    else sendThen tables interval data (sendPieces .start data bytes)
  | .code, data, c :: bytes =>
    let data := data.set 1 c
    if c = 0 then some []
    else if c = tapCode ∨ c = downCode ∨ c = upCode then sendPieces .key data bytes
    else if c = delayCode then sendPieces (.delay 2) data bytes
    else sendThen tables interval data (sendPieces .start data bytes)
  | .key, data, k :: bytes =>
    let data := data.set 2 k
    if k = 0 then some []
    else
      let data := data.set 3 0
      sendThen tables interval data (sendPieces .start data bytes)
  | .delay i, data, d :: bytes =>
    let data := data.set i d
    if d = 0 then some []
    else if d = bar then
      let data := data.set (i + 1) 0
      sendThen tables interval data (sendPieces .start data bytes)
    else if i = 6 then some []
    else sendPieces (.delay (i + 1)) data bytes

def macroSend (cfg : Config) (count : ℕ) (id : BitVec 8) (mem : Mem (BitVec 8)) :
    Option (List Effect) :=
  if count ≤ id.toNat then some []
  else if eepromReadByte cfg (cfg.macroAddr + cfg.macroSize - 1) mem ≠ 0 then some []
  else
    match skipMacros id.toNat (macroBytes cfg mem) with
    | none => some []
    | some bytes => sendPieces tables interval .start (List.replicate 8 0) bytes

end Model

/-- The pieces of a text, and the sequence at its end that is cut off, if there is one. -/
structure Splits (text : List (BitVec 8)) (tokens : List Token) (rest : List (BitVec 8)) :
    Prop where
  text_eq : text = tokens.flatMap Token.bytes ++ rest
  valid : ∀ t ∈ tokens, t.Valid
  cutOff : rest = [] ∨ CutOff rest

/-- A sequence for a key or a wait, which leaves its last bytes in the buffer. -/
def Fills : Token → Prop
  | .key _ _ => True
  | .delay _ => True
  | _ => False

def IsUnknown : Token → Prop
  | .unknown _ => True
  | _ => False

/-- No code that is unknown comes behind a sequence for a key or a wait. -/
def Clear (tokens : List Token) : Prop := tokens.Pairwise fun t u => Fills t → ¬ IsUnknown u

section Pieces

variable {tables : Tables} {interval : ℕ}

theorem sendThen_piece {t : Token} (h : t.Valid) (tail : List (BitVec 8))
    (later : Option (List Effect)) :
    sendThen tables interval (t.bytes ++ 0 :: tail) later =
      later.map (t.sent tables interval ++ ·) := by
  rw [sendThen, Token.sendString_bytes h, Option.bind_some]

theorem set_length_append (before tail : List (BitVec 8)) (x b : BitVec 8) :
    (before ++ x :: tail).set before.length b = before ++ b :: tail := by simp

/-- The digits of a wait go behind those that are in the buffer already. -/
theorem sendPieces_delay {digits before tail : List (BitVec 8)} (later : List (BitVec 8))
    (hzero : 0 ∉ digits) (hbar : bar ∉ digits) (hlength : before.length + digits.length ≤ 6)
    (htail : before.length + tail.length = 8) :
    let data := before ++ digits ++ bar :: 0 :: tail.drop (digits.length + 2)
    sendPieces tables interval (.delay before.length) (before ++ tail) (digits ++ bar :: later) =
      sendThen tables interval data (sendPieces tables interval .start data later) := by
  induction digits generalizing before tail with
  | nil =>
    have hb : bar ≠ 0 := by decide
    obtain ⟨x, y, tail, rfl⟩ : ∃ x y tail', tail = x :: y :: tail' := by
      rcases tail with _ | ⟨x, _ | ⟨y, tail⟩⟩
      · simp at htail hlength; omega
      · simp at htail hlength; omega
      · exact ⟨x, y, tail, rfl⟩
    have hset : (before ++ bar :: y :: tail).set (before.length + 1) 0 =
        before ++ bar :: 0 :: tail := by simp
    simp only [List.nil_append, sendPieces, set_length_append, if_neg hb, if_pos, hset,
      List.append_nil, List.length_nil, List.drop_succ_cons, List.drop_zero]
  | cons d digits ih =>
    obtain ⟨hd, hzero⟩ := not_or.mp (List.mem_cons.not.mp hzero)
    obtain ⟨hdbar, hbar⟩ := not_or.mp (List.mem_cons.not.mp hbar)
    simp only [List.length_cons] at hlength
    obtain ⟨x, tail, rfl⟩ : ∃ x tail', tail = x :: tail' := by
      cases tail with
      | nil => simp at htail; omega
      | cons x tail => exact ⟨x, tail, rfl⟩
    have hsix : before.length ≠ 6 := by omega
    have hrest := @ih (before ++ [d]) tail hzero hbar
      (by simp; omega) (by simp at htail ⊢; omega)
    simp only [List.length_append, List.length_cons, List.length_nil, Nat.zero_add,
      List.append_assoc, List.cons_append, List.nil_append] at hrest
    simp only [List.cons_append, sendPieces, set_length_append, if_neg (Ne.symm hd),
      if_neg (Ne.symm hdbar), if_neg hsix, hrest, List.append_assoc, List.length_cons,
      List.drop_succ_cons]

theorem sendPieces_cutOff {digits data : List (BitVec 8)} {i : ℕ} (later : List (BitVec 8))
    (hi : i ≤ 6) (hzero : 0 ∉ digits) (hbar : bar ∉ digits.take (7 - i)) :
    sendPieces tables interval (.delay i) data (digits ++ 0 :: later) = some [] := by
  induction digits generalizing i data with
  | nil => simp [sendPieces]
  | cons d digits ih =>
    obtain ⟨hd, hzero⟩ := not_or.mp (List.mem_cons.not.mp hzero)
    rw [show 7 - i = 7 - (i + 1) + 1 by omega, List.take_succ_cons] at hbar
    obtain ⟨hdbar, hbar⟩ := not_or.mp (List.mem_cons.not.mp hbar)
    simp only [List.cons_append, sendPieces, if_neg (Ne.symm hd), if_neg (Ne.symm hdbar)]
    split
    · rfl
    · exact ih (by omega) hzero hbar

/-- A piece is sent as the string does, and leaves the buffer behind the code alone unless it goes
there. -/
theorem sendPieces_token {t : Token} (ht : t.Valid) {data : List (BitVec 8)}
    (hdata : data.length = 8) (hclear : IsUnknown t → data[2]? = some 0)
    (later : List (BitVec 8)) :
    ∃ next : List (BitVec 8), next.length = 8 ∧ (¬ Fills t → next[2]? = data[2]?) ∧
      sendPieces tables interval .start data (t.bytes ++ later) =
        (sendPieces tables interval .start next later).map (t.sent tables interval ++ ·) := by
  have hpre : qmkPrefix ≠ 0 := by decide
  obtain ⟨x, y, z, w, tail, rfl⟩ : ∃ x y z w tail, data = x :: y :: z :: w :: tail := by
    match data, hdata with
    | x :: y :: z :: w :: tail, _ => exact ⟨x, y, z, w, tail, rfl⟩
  cases t with
  | char b =>
    refine ⟨b :: 0 :: z :: w :: tail, by simpa using hdata, fun _ => rfl, ?_⟩
    simp only [Token.bytes, List.cons_append, List.nil_append, sendPieces, List.set_cons_zero,
      List.set_cons_succ, if_neg ht.1, if_neg ht.2]
    exact sendThen_piece ht _ _
  | key action code =>
    have hcode : action.code = tapCode ∨ action.code = downCode ∨ action.code = upCode := by
      cases action <;> decide
    refine ⟨qmkPrefix :: action.code :: code :: 0 :: tail, by simpa using hdata,
      fun h => absurd trivial h, ?_⟩
    simp only [Token.bytes, List.cons_append, List.nil_append, sendPieces, List.set_cons_zero,
      List.set_cons_succ, if_neg hpre, if_pos, if_neg (Token.code_ne_zero action), if_pos hcode,
      if_neg (show code ≠ 0 from ht)]
    exact sendThen_piece ht _ _
  | delay digits =>
    have hdelay : delayCode ≠ 0 := by decide
    have hkey : ¬ (delayCode = tapCode ∨ delayCode = downCode ∨ delayCode = upCode) := by decide
    have hlength : tail.length = 4 := by simpa using hdata
    have hdigits := ht.2.2
    refine ⟨qmkPrefix :: delayCode :: (digits ++ [bar]) ++
      0 :: (z :: w :: tail).drop (digits.length + 2), ?_, fun h => absurd trivial h, ?_⟩
    · simp
      omega
    have hsend := @sendPieces_delay tables interval digits [qmkPrefix, delayCode]
      (z :: w :: tail) later ht.1 ht.2.1 (by simp; omega) (by simp [hlength])
    simp only [Token.bytes, List.cons_append, List.append_assoc, List.nil_append, sendPieces,
      List.set_cons_zero, List.set_cons_succ, if_neg hpre, if_pos, if_neg hdelay, if_neg hkey]
    simp only [List.length_cons, List.length_nil, List.cons_append, List.nil_append] at hsend
    rw [hsend]
    simpa [Token.bytes] using sendThen_piece ht ((z :: w :: tail).drop (digits.length + 2)) _
  | unknown code =>
    have hkey : ¬ (code = tapCode ∨ code = downCode ∨ code = upCode) := by
      have hnone := ht.2.2
      simp only [KeyAction.ofCode] at hnone
      grind
    obtain rfl : z = 0 := by simpa using hclear trivial
    refine ⟨qmkPrefix :: code :: 0 :: w :: tail, by simpa using hdata, fun _ => rfl, ?_⟩
    simp only [Token.bytes, List.cons_append, List.nil_append, sendPieces, List.set_cons_zero,
      List.set_cons_succ, if_neg hpre, if_pos, if_neg ht.1, if_neg hkey, if_neg ht.2.1]
    exact sendThen_piece ht _ _

theorem sendPieces_rest {rest : List (BitVec 8)} (h : rest = [] ∨ CutOff rest) (hzero : 0 ∉ rest)
    (data later : List (BitVec 8)) :
    sendPieces tables interval .start data (rest ++ 0 :: later) = some [] := by
  have hpre : qmkPrefix ≠ 0 := by decide
  rcases h with rfl | h
  · simp [sendPieces]
  cases h with
  | atCode => simp [sendPieces]
  | atKey action =>
    have hcode : action.code = tapCode ∨ action.code = downCode ∨ action.code = upCode := by
      cases action <;> decide
    simp [sendPieces, hcode]
  | atDelay digits hbar =>
    have hdelay : delayCode ≠ 0 := by decide
    have hkey : ¬ (delayCode = tapCode ∨ delayCode = downCode ∨ delayCode = upCode) := by decide
    simp only [List.mem_cons, not_or] at hzero
    simp only [List.cons_append, sendPieces, if_neg hpre, if_pos, if_neg hdelay, if_neg hkey]
    exact sendPieces_cutOff later (by decide) hzero.2.2 hbar

/-- The induction is on the pieces. The byte of the buffer behind the code is zero as long as a code
that is unknown may come. -/
theorem sendPieces_pieces {tokens : List Token} (hvalid : ∀ t ∈ tokens, t.Valid)
    (hclear : Clear tokens) {rest : List (BitVec 8)} (hrest : rest = [] ∨ CutOff rest)
    (hzero : 0 ∉ rest) {data : List (BitVec 8)} (hdata : data.length = 8)
    (hthird : (∃ t ∈ tokens, IsUnknown t) → data[2]? = some 0) (later : List (BitVec 8)) :
    sendPieces tables interval .start data
        (tokens.flatMap Token.bytes ++ rest ++ 0 :: later) =
      some (tokens.flatMap (Token.sent tables interval)) := by
  induction tokens generalizing data with
  | nil => exact sendPieces_rest hrest hzero data later
  | cons t tokens ih =>
    obtain ⟨hhead, htail⟩ := List.pairwise_cons.mp hclear
    obtain ⟨next, hnext, hkeeps, hsend⟩ :=
      @sendPieces_token tables interval t (hvalid t (by simp)) data hdata
        (fun ht => hthird ⟨t, by simp, ht⟩) (tokens.flatMap Token.bytes ++ rest ++ 0 :: later)
    have hnextThird : (∃ u ∈ tokens, IsUnknown u) → next[2]? = some 0 := by
      rintro ⟨u, hu, hunknown⟩
      rw [hkeeps fun hfills => hhead u hu hfills hunknown]
      exact hthird ⟨u, List.mem_cons_of_mem t hu, hunknown⟩
    rw [List.flatMap_cons, List.append_assoc, List.append_assoc, ← List.append_assoc _ rest,
      hsend, ih (fun u hu => hvalid u (List.mem_cons_of_mem t hu)) htail hnext hnextThird]
    rfl

end Pieces

/-- Every text consists of pieces, up to what is cut off. -/
theorem exists_splits {text : List (BitVec 8)} (hzero : 0 ∉ text) :
    ∃ tokens rest, Splits text tokens rest := by
  induction hn : text.length using Nat.strong_induction_on generalizing text with
  | _ n ih =>
    -- The first piece is taken off the text.
    have hpiece : ∀ (t : Token) (later : List (BitVec 8)), t.Valid → text = t.bytes ++ later →
        later.length < text.length → ∃ tokens rest, Splits text tokens rest := by
      intro t later ht htext hlt
      obtain ⟨tokens, rest, hsplits⟩ := ih later.length (hn ▸ hlt)
        (fun h => hzero (htext ▸ List.mem_append_right _ h)) rfl
      refine ⟨t :: tokens, rest, ?_, ?_, hsplits.cutOff⟩
      · rw [htext, hsplits.text_eq, List.flatMap_cons, List.append_assoc]
      · simpa using ⟨ht, hsplits.valid⟩
    have hcut : text = [] ∨ CutOff text → ∃ tokens rest, Splits text tokens rest := fun h =>
      ⟨[], text, by simp, by simp, h⟩
    rcases text with _ | ⟨b, later⟩
    · exact hcut (.inl rfl)
    have hb : b ≠ 0 := fun h => hzero (by simp [h])
    by_cases hpre : b = qmkPrefix
    swap
    · exact hpiece (.char b) later ⟨hb, hpre⟩ rfl (by simp)
    subst hpre
    rcases later with _ | ⟨c, later⟩
    · exact hcut (.inr .atCode)
    have hc : c ≠ 0 := fun h => hzero (by simp [h])
    by_cases hdelay : c = delayCode
    · subst hdelay
      by_cases hbar : bar ∈ later.take 5
      · obtain ⟨digits, more, htake, hfirst⟩ := List.eq_append_cons_of_mem hbar
        have hlater : later = digits ++ bar :: (more ++ later.drop 5) := by
          rw [← List.cons_append, ← List.append_assoc, ← htake, List.take_append_drop]
        have hdigits : digits.length ≤ 4 := by
          have hlength := congrArg List.length htake
          simp only [List.length_take, List.length_append, List.length_cons] at hlength
          omega
        have hdigitsZero : 0 ∉ digits := fun h => hzero <| by
          rw [hlater]
          exact .tail _ (.tail _ (List.mem_append_left _ h))
        have hdrop : (more ++ later.drop 5).length < later.length := by
          conv_rhs => rw [hlater]
          simp only [List.length_append, List.length_cons]
          omega
        exact hpiece (.delay digits) (more ++ later.drop 5) ⟨hdigitsZero, hfirst, hdigits⟩
          (by simp only [Token.bytes, List.cons_append, List.append_assoc, List.nil_append,
                ← hlater])
          (hdrop.trans (by simp only [List.length_cons]; omega))
      · exact hcut (.inr (.atDelay later hbar))
    · cases hkey : KeyAction.ofCode c with
      | none =>
        exact hpiece (.unknown c) later ⟨hc, hdelay, hkey⟩ rfl
          (by simp only [List.length_cons]; omega)
      | some action =>
        have hcode := KeyAction.code_of_ofCode hkey
        subst hcode
        rcases later with _ | ⟨k, later⟩
        · exact hcut (.inr (.atKey action))
        have hk : k ≠ 0 := fun h => hzero (by simp [h])
        exact hpiece (.key action k) later hk rfl
          (by simp only [List.length_cons]; omega)

/-- What is promised of a macro with a zero behind it: it is sent as the string of its bytes. -/
def PlaysAsString (tables : Tables) (interval : ℕ) (cfg : Config) (count : ℕ) (id : BitVec 8)
    (mem : Mem (BitVec 8)) : Prop :=
  ∀ text later, skipMacros id.toNat (macroBytes cfg mem) = some (text ++ 0 :: later) → 0 ∉ text →
    macroSend tables interval cfg count id mem =
      sendString tables interval .text (text ++ [0])

/-- While the last byte of the macros is not zero, nothing is sent. Otherwise the pieces of a macro
are sent as the string of their bytes, and a sequence that is cut off is not sent. -/
theorem macroSend_eq (tables : Tables) (interval : ℕ) (cfg : Config) {count : ℕ} {id : BitVec 8}
    (hid : id.toNat < count) (mem : Mem (BitVec 8)) :
    let last := eepromReadByte cfg (cfg.macroAddr + cfg.macroSize - 1) mem
    (last ≠ 0 → macroSend tables interval cfg count id mem = some []) ∧
      (last = 0 → ∀ text later,
        skipMacros id.toNat (macroBytes cfg mem) = some (text ++ 0 :: later) → 0 ∉ text →
        ∃ tokens rest, Splits text tokens rest ∧
          (Clear tokens → macroSend tables interval cfg count id mem =
            sendString tables interval .text (tokens.flatMap Token.bytes ++ [0]))) := by
  intro last
  refine ⟨fun hlast => ?_, fun hlast text later hskip hzero => ?_⟩
  · rw [macroSend, if_neg (Nat.not_le.mpr hid), if_pos hlast]
  obtain ⟨tokens, rest, hsplits⟩ := exists_splits hzero
  refine ⟨tokens, rest, hsplits, fun hclear => ?_⟩
  have hrest : 0 ∉ rest := fun h =>
    hzero (by rw [hsplits.text_eq]; exact List.mem_append_right _ h)
  rw [macroSend, if_neg (Nat.not_le.mpr hid), if_neg (not_not.mpr hlast), hskip,
    Token.sendString_flatMap hsplits.valid]
  simp only [hsplits.text_eq]
  exact sendPieces_pieces hsplits.valid hclear hsplits.cutOff hrest (by simp)
    (fun _ => rfl) later

/-- Characters without a key, which are enough for waits. -/
def noKeys : Tables where
  bell := false
  keycode := fun _ => 0
  shifted := fun _ => false
  altgred := fun _ => false
  dead := fun _ => false

/-- A keymap of one key in front of 101 bytes of macros. -/
def smallStore : Config where
  layerCount := 1
  matrixRows := 1
  matrixCols := 1
  numEncoders := 0
  eepromAddr := 0
  maxAddr := 102
  wideInt := true
  room := by decide
  maxAddr_lt := by decide

/-- Bytes at the begin of the macros, in front of zeros. -/
def withMacros (bytes : List (BitVec 8)) : Mem (BitVec 8) := fun a => bytes.getD (a - 2) 0

/-- A tap of a key and a wait of a second. -/
theorem macroSend_smallStore :
    ∃ tokens rest, Splits [1, 1, 4, 1, 4, 49, 48, 48, 48, 124] tokens rest ∧
      (Clear tokens → macroSend noKeys 0 smallStore 1 0
          (withMacros [1, 1, 4, 1, 4, 49, 48, 48, 48, 124]) =
        sendString noKeys 0 .text (tokens.flatMap Token.bytes ++ [0])) :=
  (macroSend_eq noKeys 0 smallStore (by decide) _).2 (by decide) _ (List.replicate 90 0)
    (by decide +kernel) (by decide)

/-- A wait of ten seconds is not sent. -/
theorem tenSeconds_cutOff :
    ¬ PlaysAsString noKeys 0 smallStore 1 0 (withMacros [1, 4, 49, 48, 48, 48, 48, 124]) := by
  intro h
  exact absurd (h [1, 4, 49, 48, 48, 48, 48, 124] (List.replicate 92 0) (by decide +kernel)
    (by decide)) (by decide +kernel)

end Qmk.DynamicKeymap
