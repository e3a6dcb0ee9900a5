import Qmk.LegacyEeprom.Image
import Qmk.Monitor

/-! # What a write does to the flash

A write is judged by the flash operations it makes. Between any two of them, as
long as nothing has been erased, the flash holds a buffer each of whose bytes is
the old one or the new one; at the end it holds the new buffer.
-/

namespace Qmk.LegacyEeprom

variable {cfg : Config}

/-- Outside compaction only erased half-words are programmed. -/
def flashRules : Monitor FlashOp Flash where
  next := FlashOp.apply
  ok f
    | .program false i _ => f i = feeEmptyWord
    | _ => True

theorem next_program {f : Flash} {i : ℕ} (he : f i = feeEmptyWord) (compacting : Bool)
    (v : BitVec 16) : flashRules.next f (.program compacting i v) = f.write i [v] := by
  change f.write i [f i &&& v] = f.write i [v]
  rw [he, empty_and]

/-- The operations `ops` turn a flash that holds `old` into one that holds `new` and obey the
rules; the flash holds something in between wherever they are cut before an erase. -/
structure Survives (cfg : Config) (f : Flash) (ops : List FlashOp) (old new : Mem (BitVec 8)) :
    Prop where
  rules : flashRules.Accepts f ops
  cut : ∀ n, .erase ∉ ops.take n → ∃ k b, Holds cfg (flashRules.after f (ops.take n)) k b ∧
    ∀ x < cfg.densityBytes, b x = old x ∨ b x = new x

namespace Survives

variable {f : Flash} {k : ℕ} {old mid new b : Mem (BitVec 8)} {ops ops' : List FlashOp}

theorem nil (h : Holds cfg f k b) (hb : ∀ x < cfg.densityBytes, b x = old x ∨ b x = new x) :
    Survives cfg f [] old new where
  rules := trivial
  cut := by
    intro n _
    rw [List.take_nil]
    exact ⟨k, b, h, hb⟩

theorem cons (h : Holds cfg f k b) (hb : ∀ x < cfg.densityBytes, b x = old x ∨ b x = new x)
    {i : ℕ} {v : BitVec 16} (he : f i = feeEmptyWord)
    (hs : Survives cfg (f.write i [v]) ops old new) :
    Survives cfg f (.program false i v :: ops) old new := by
  have hf := next_program he false v
  constructor
  · refine ⟨he, ?_⟩
    rw [hf]
    exact hs.rules
  · intro n hn
    cases n with
    | zero => exact ⟨k, b, h, hb⟩
    | succ n =>
      rw [List.take_succ_cons, Monitor.after_cons, hf]
      apply hs.cut
      intro hm
      exact hn (List.mem_cons_of_mem _ hm)

theorem erase (h : Holds cfg f k b) (hb : ∀ x < cfg.densityBytes, b x = old x ∨ b x = new x)
    (hr : flashRules.Accepts (FlashOp.apply f .erase) ops) :
    Survives cfg f (.erase :: ops) old new := by
  constructor
  · exact ⟨trivial, hr⟩
  · intro n hn
    cases n with
    | zero => exact ⟨k, b, h, hb⟩
    | succ n => exact absurd List.mem_cons_self hn

theorem append (h : Survives cfg f ops old new)
    (h' : Survives cfg (flashRules.after f ops) ops' old new) :
    Survives cfg f (ops ++ ops') old new := by
  constructor
  · exact (Monitor.accepts_append _ _ _ _).mpr ⟨h.rules, h'.rules⟩
  · intro n hn
    rw [List.take_append] at hn ⊢
    rcases Nat.lt_or_ge n ops.length with hlt | hge
    · rw [Nat.sub_eq_zero_of_le hlt.le, List.take_zero, List.append_nil] at hn ⊢
      exact h.cut n hn
    · rw [List.take_of_length_le hge, Monitor.after_append]
      apply h'.cut
      intro hm
      exact hn (List.mem_append_right _ hm)

theorem mono (h : Survives cfg f ops old new) {old' new' : Mem (BitVec 8)}
    (hb : ∀ x < cfg.densityBytes, ∀ v, v = old x ∨ v = new x → v = old' x ∨ v = new' x) :
    Survives cfg f ops old' new' := by
  constructor
  · exact h.rules
  · intro n hn
    obtain ⟨k, b, hh, hx⟩ := h.cut n hn
    exact ⟨k, b, hh, fun x hlt => hb x hlt _ (hx x hlt)⟩

end Survives

/-- A step of the driver that takes the flash from `old` to `new`. -/
structure Wrote (cfg : Config) (s s' : State) (old new : Mem (BitVec 8)) : Prop where
  holds : Holds cfg s'.flash s'.emptySlot new
  ops : ∃ ops, s'.trace = s.trace ++ ops ∧ s'.flash = flashRules.after s.flash ops ∧
    Survives cfg s.flash ops old new

namespace Wrote

variable {s s₁ s₂ : State} {old mid new b : Mem (BitVec 8)}

theorem refl (h : Holds cfg s.flash s.emptySlot b) : Wrote cfg s s b b where
  holds := h
  ops := ⟨[], (List.append_nil _).symm, rfl, .nil h fun _ _ => Or.inl rfl⟩

theorem trans (h₁ : Wrote cfg s s₁ old mid) (h₂ : Wrote cfg s₁ s₂ mid new)
    (hm : ∀ x < cfg.densityBytes, mid x = old x ∨ mid x = new x) : Wrote cfg s s₂ old new := by
  obtain ⟨-, ops₁, ht₁, hf₁, hs₁⟩ := h₁
  obtain ⟨hh, ops₂, ht₂, hf₂, hs₂⟩ := h₂
  refine ⟨hh, ops₁ ++ ops₂, ?_, ?_, .append ?_ ?_⟩
  · rw [ht₂, ht₁, List.append_assoc]
  · rw [hf₂, hf₁, Monitor.after_append]
  · apply hs₁.mono
    rintro x hx v (rfl | rfl)
    · exact Or.inl rfl
    · exact hm x hx
  · rw [← hf₁]
    apply hs₂.mono
    rintro x hx v (rfl | rfl)
    · exact hm x hx
    · exact Or.inr rfl

theorem congr (h : Wrote cfg s s₁ old mid) (hb : ∀ x < cfg.densityBytes, mid x = new x) :
    Wrote cfg s s₁ old new := by
  obtain ⟨hh, ops, ht, hf, hs⟩ := h
  refine ⟨hh.congr hb, ops, ht, hf, hs.mono ?_⟩
  intro x hx v hv
  rwa [hb x hx] at hv

theorem congr_left (h : Wrote cfg s s₁ b new) (hb : ∀ x < cfg.densityBytes, b x = old x) :
    Wrote cfg s s₁ old new := by
  obtain ⟨hh, ops, ht, hf, hs⟩ := h
  refine ⟨hh, ops, ht, hf, hs.mono ?_⟩
  intro x hx v hv
  rwa [hb x hx] at hv

theorem program (h : Holds cfg s.flash s.emptySlot old) {i : ℕ} {v : BitVec 16}
    (he : s.flash i = feeEmptyWord) (ht : s₁.trace = s.trace ++ [.program false i v])
    (hf : s₁.flash = flashRules.next s.flash (.program false i v))
    (hn : Holds cfg (s.flash.write i [v]) s₁.emptySlot new) : Wrote cfg s s₁ old new := by
  have hw : s₁.flash = s.flash.write i [v] := by
    rw [hf, next_program he]
  refine ⟨by rwa [hw], _, ht, hf, .cons h (fun _ _ => Or.inl rfl) he ?_⟩
  exact .nil hn fun _ _ => Or.inr rfl

end Wrote

section Compaction

theorem foldl_compactWord {s : State} (hs : s.flash = fun _ => feeEmptyWord) (n : ℕ) :
    ∃ ops, (List.range n).foldl compactWord s =
        { s with flash := flashRules.after s.flash ops, trace := s.trace ++ ops } ∧
      flashRules.Accepts s.flash ops ∧
      ∀ i, flashRules.after s.flash ops i =
        if i < n then ~~~halfWord s.dataBuf (2 * i) else feeEmptyWord := by
  induction n with
  | zero =>
    refine ⟨[], ?_, trivial, ?_⟩
    · simp
    · intro i
      rw [Monitor.after_nil, hs, if_neg (Nat.not_lt_zero i)]
  | succ n ih =>
    obtain ⟨ops, he, ha, hf⟩ := ih
    rw [List.range_succ, List.foldl_append, List.foldl_cons, List.foldl_nil, he]
    have hn := hf n
    rw [if_neg (Nat.lt_irrefl n)] at hn
    simp only [compactWord]
    split_ifs with hz
    · refine ⟨ops ++ [.program true n (~~~halfWord s.dataBuf (2 * n))], ?_, ?_, ?_⟩
      · simp [State.emit, flashRules]
      · exact (Monitor.accepts_append _ _ _ _).mpr ⟨ha, trivial, trivial⟩
      · intro i
        rw [Monitor.after_append, Monitor.after_cons, Monitor.after_nil, next_program hn]
        rcases Nat.lt_trichotomy i n with hlt | rfl | hgt
        · rw [Mem.write_of_lt _ _ hlt, hf i, if_pos hlt, if_pos (by omega)]
        · rw [if_pos (Nat.lt_succ_self i)]
          exact Mem.write_add _ (i := 0) (by simp)
        · rw [Mem.write_of_ge _ _ (by change n + 1 ≤ i; omega), hf i, if_neg (by omega),
            if_neg (by omega)]
    · refine ⟨ops, rfl, ha, ?_⟩
      have hz0 : halfWord s.dataBuf (2 * n) = 0 := by
        simpa using hz
      intro i
      rcases Nat.lt_trichotomy i n with hlt | rfl | hgt
      · rw [hf i, if_pos hlt, if_pos (by omega)]
      · rw [hn, if_pos (Nat.lt_succ_self i), not_eq_empty.mpr hz0]
      · rw [hf i, if_neg (by omega), if_neg (by omega)]

/-- The compaction makes the flash hold the buffer in RAM, with an empty log. -/
theorem wrote_compact {s : State} {b : Mem (BitVec 8)} (h : Holds cfg s.flash s.emptySlot b) :
    Wrote cfg s (eepromCompact cfg s).2 b s.dataBuf ∧
    (eepromCompact cfg s).2.dataBuf = s.dataBuf ∧ (eepromCompact cfg s).2.emptySlot = 0 ∧
    ∀ i < cfg.words, (eepromCompact cfg s).2.flash i = ~~~halfWord s.dataBuf (2 * i) := by
  obtain ⟨ops, he, ha, hf⟩ := foldl_compactWord (s := eepromClear s) rfl cfg.words
  simp only [eepromCompact, he]
  have hw : ∀ i < cfg.words,
      flashRules.after (eepromClear s).flash ops i = ~~~halfWord s.dataBuf (2 * i) := by
    intro i hi
    rw [hf i, if_pos hi]
    rfl
  refine ⟨⟨.compacted ?_ hw, .erase :: ops, ?_, rfl, ?_⟩, rfl, rfl, hw⟩
  · intro j _
    change flashRules.after (eepromClear s).flash ops (cfg.words + j) = feeEmptyWord
    rw [hf, if_neg (by omega)]
  · simp [eepromClear, State.emit]
  · exact .erase h (fun _ _ => Or.inl rfl) ha

end Compaction

section LogEntries

variable {s : State} {b : Mem (BitVec 8)} {a : ℕ}

theorem wrote_logByte (h : Holds cfg s.flash s.emptySlot b) (ha : a < feeByteRange)
    (hp : s.flash (a / 2) ≠ feeEmptyWord) (hs : s.emptySlot < cfg.slots) :
    Wrote cfg s (eepromWriteLogByteEntry cfg a s).2 b (b.write a [s.dataBuf a]) ∧
    (eepromWriteLogByteEntry cfg a s).2.dataBuf = s.dataBuf ∧
    (eepromWriteLogByteEntry cfg a s).2.flash (a / 2) ≠ feeEmptyWord := by
  have hlt : a / 2 < cfg.words + s.emptySlot := by
    have hd := cfg.byteRange_le
    have hb : feeByteRange = 128 := rfl
    have := cfg.half_lt_words.mpr (show a < cfg.densityBytes by omega)
    omega
  have hp' : ∀ i, (Entry.byte a (s.dataBuf a)).word = some i → s.flash i ≠ feeEmptyWord := by
    rintro i ⟨⟩
    exact hp
  have hn : Holds cfg _ _ _ := h.append (e := .byte a (s.dataBuf a)) ha hs hp'
  rw [eepromWriteLogByteEntry, if_neg (Nat.not_le.mpr hs), ofNat_shift_or]
  refine ⟨.program h (h.free le_rfl hs) rfl rfl hn, rfl, ?_⟩
  change s.flash.write _ _ (a / 2) ≠ feeEmptyWord
  rwa [Mem.write_of_lt _ _ hlt]

theorem logByte_full (hs : cfg.slots ≤ s.emptySlot) :
    eepromWriteLogByteEntry cfg a s = eepromCompact cfg s := by
  rw [eepromWriteLogByteEntry, if_pos hs]

theorem store_eq_of_agree (ha : a % 2 = 0) (hb : ∀ x, x / 2 ≠ a / 2 → s.dataBuf x = b x) (x : ℕ) :
    storeHalfWord b a (halfWord s.dataBuf a) x = s.dataBuf x := by
  have hx := congrFun (store_halfWord s.dataBuf a) x
  rcases eq_or_ne (x / 2) (a / 2) with he | hne
  · rcases Nat.mod_two_eq_zero_or_one x with h0 | h1
    · obtain rfl : x = a := by omega
      rw [storeHalfWord_low] at hx ⊢
      exact hx
    · obtain rfl : x = a + 1 := by omega
      rw [storeHalfWord_high] at hx ⊢
      exact hx
  · rw [storeHalfWord_of_ne _ _ _ (by omega) (by omega), hb x hne]

theorem wrote_logShort (one : Bool) (h : Holds cfg s.flash s.emptySlot b) (ha : a % 2 = 0)
    (hd : a < cfg.densityBytes) (hp : s.flash (a / 2) ≠ feeEmptyWord)
    (hs : s.emptySlot + 1 ≤ cfg.slots) {v : BitVec 16}
    (hv : v = tagged (if one then 5 else 4) (a / 2)) :
    Wrote cfg s (s.append cfg v) b (storeHalfWord b a (if one then 1 else 0)) := by
  have hp' : ∀ i, (Entry.short a one).word = some i → s.flash i ≠ feeEmptyWord := by
    rintro i ⟨⟩
    exact hp
  have hn : Holds cfg _ _ _ := h.append (e := .short a one) ⟨ha, hd⟩ hs hp'
  subst hv
  exact .program h (h.free le_rfl hs) rfl rfl hn

/-- Any other half-word is written in two slots. Cut between the two, the log has an entry that
is skipped. -/
theorem wrote_logNext (h : Holds cfg s.flash s.emptySlot b) (ha : a % 2 = 0)
    (hr : feeByteRange ≤ a) (hd : a < cfg.densityBytes) (hp : s.flash (a / 2) ≠ feeEmptyWord)
    (hs : s.emptySlot + 2 ≤ cfg.slots) {v w : BitVec 16} (hw : w ≠ 0)
    (hv : v = tagged 7 ((a - feeByteRange) / 2)) :
    Wrote cfg s ((s.append cfg v).append cfg (~~~w)) b (storeHalfWord b a w) := by
  have h₀ := h.free (j := s.emptySlot) le_rfl (by omega)
  have h₁ := h.free (j := s.emptySlot + 1) (by omega) (by omega)
  have hp' : ∀ i, (Entry.next a w).word = some i → s.flash i ≠ feeEmptyWord := by
    rintro i ⟨⟩
    exact hp
  have hpt : ∀ i, (Entry.torn a).word = some i → s.flash i ≠ feeEmptyWord := by
    rintro i ⟨⟩
  have hn := h.append (e := .next a w) ⟨ha, hr, hd, hw⟩ hs hp'
  have ht := h.append (e := .torn a) ⟨ha, hr, hd⟩ hs hpt
  subst hv
  -- the second slot of the torn entry is the one that is erased already
  have hf₁ : s.flash.write (cfg.words + s.emptySlot) [tagged 7 ((a - feeByteRange) / 2)]
      (cfg.words + (s.emptySlot + 1)) = feeEmptyWord := by
    rw [Mem.write_of_ge _ _ (by change _ + 1 ≤ _; omega), h₁]
  have htorn : s.flash.write (cfg.words + s.emptySlot) (Entry.torn a).slots =
      s.flash.write (cfg.words + s.emptySlot) [tagged 7 ((a - feeByteRange) / 2)] := by
    funext x
    rw [show (Entry.torn a).slots = [tagged 7 ((a - feeByteRange) / 2)] ++ [feeEmptyWord] from rfl,
      Mem.write_append]
    rcases eq_or_ne x (cfg.words + (s.emptySlot + 1)) with rfl | hne
    · rw [hf₁]
      exact Mem.write_add _ (i := 0) (by simp)
    · rcases Nat.lt_or_ge x (cfg.words + (s.emptySlot + 1)) with hlt | hge
      · exact Mem.write_of_lt _ _ (by change x < _ + 1; omega)
      · exact Mem.write_of_ge _ _ (by change _ + 1 + 1 ≤ x; omega)
  have hnext : s.flash.write (cfg.words + s.emptySlot) (Entry.next a w).slots =
      (s.flash.write (cfg.words + s.emptySlot) [tagged 7 ((a - feeByteRange) / 2)]).write
        (cfg.words + (s.emptySlot + 1)) [~~~w] := by
    rw [show (Entry.next a w).slots = [tagged 7 ((a - feeByteRange) / 2)] ++ [~~~w] from rfl,
      Mem.write_append]
    rfl
  rw [htorn] at ht
  rw [hnext] at hn
  have hflash : ((s.append cfg (tagged 7 ((a - feeByteRange) / 2))).append cfg (~~~w)).flash =
      (s.flash.write (cfg.words + s.emptySlot) [tagged 7 ((a - feeByteRange) / 2)]).write
        (cfg.words + (s.emptySlot + 1)) [~~~w] := by
    simp only [State.append, State.emit, FlashOp.apply, h₀, empty_and, hf₁]
  refine ⟨by rw [hflash]; exact hn, [.program false (cfg.words + s.emptySlot) _,
    .program false (cfg.words + (s.emptySlot + 1)) (~~~w)], ?_, rfl, ?_⟩
  · simp [State.append, State.emit]
  · refine .cons h (fun _ _ => Or.inl rfl) h₀ (.cons ht (fun _ _ => Or.inl rfl) hf₁ ?_)
    exact .nil hn fun _ _ => Or.inr rfl

theorem wrote_logWord (h : Holds cfg s.flash s.emptySlot b) (ha : a % 2 = 0)
    (hr : feeByteRange ≤ a) (hd : a < cfg.densityBytes) (hp : s.flash (a / 2) ≠ feeEmptyWord)
    (hb : ∀ x, x / 2 ≠ a / 2 → s.dataBuf x = b x) :
    Wrote cfg s (eepromWriteLogWordEntry cfg a s).2 b s.dataBuf ∧
    (eepromWriteLogWordEntry cfg a s).2.dataBuf = s.dataBuf := by
  have hc := wrote_compact h
  have hle := cfg.density_le
  have hst := store_eq_of_agree ha hb
  simp only [eepromWriteLogWordEntry]
  split_ifs with hv hs hs
  · exact ⟨hc.1, hc.2.1⟩
  · refine ⟨?_, rfl⟩
    have hone : halfWord s.dataBuf a = 0 ∨ halfWord s.dataBuf a = 1 := by
      have hn : (halfWord s.dataBuf a).toNat ≤ 1 := hv
      rcases Nat.le_one_iff_eq_zero_or_eq_one.mp hn with h0 | h1
      · exact Or.inl (BitVec.eq_of_toNat_eq h0)
      · exact Or.inr (BitVec.eq_of_toNat_eq h1)
    rcases hone with h0 | h1
    · rw [h0] at hst ⊢
      refine (wrote_logShort false h ha hd hp (by omega) ?_).congr fun x _ => hst x
      rw [ofNat_shift_eq_tagged (by omega)]
      exact tagged_or 4 _
    · rw [h1] at hst ⊢
      refine (wrote_logShort true h ha hd hp (by omega) ?_).congr fun x _ => hst x
      rw [ofNat_shift_eq_tagged (by omega)]
      exact tagged_or 5 _
  · exact ⟨hc.1, hc.2.1⟩
  · refine ⟨?_, rfl⟩
    have hw : halfWord s.dataBuf a ≠ 0 := by
      intro h0
      exact hv (by rw [h0]; decide)
    refine (wrote_logNext h ha hr hd hp (by omega) hw ?_).congr fun x _ => hst x
    rw [ofNat_shift_eq_tagged (by omega)]
    exact tagged_or 7 _

end LogEntries

/-- A direct entry is made exactly when the half-word is still erased. -/
theorem wrote_direct {s : State} {b : Mem (BitVec 8)} {a : ℕ}
    (h : Holds cfg s.flash s.emptySlot b) (hd : a < cfg.densityBytes)
    (he : s.flash (a / 2) = feeEmptyWord) (hb : ∀ x, x / 2 ≠ a / 2 → s.dataBuf x = b x) :
    ∃ s', eepromWriteDirectEntry a s = (.complete, s') ∧ Wrote cfg s s' b s.dataBuf ∧
      s'.dataBuf = s.dataBuf := by
  have hn := h.direct (cfg.half_lt_words.mpr hd) he hb
  rw [eepromWriteDirectEntry, if_pos he]
  dsimp only
  split_ifs with hv
  · refine ⟨s, rfl, (Wrote.refl h).congr ?_, rfl⟩
    -- both the old and the new half-word are zero
    intro x hx
    rcases eq_or_ne (x / 2) (a / 2) with hxa | hxa
    · rw [h.eq_zero_of_empty hx (by rw [hxa, he])]
      have hc : compactedByte s.flash x = s.dataBuf x :=
        compactedByte_of_eq (by rw [hxa, he, hv])
      rw [← hc, compactedByte_of_empty (by rw [hxa, he])]
    · exact (hb x hxa).symm
  · exact ⟨_, rfl, .program h he rfl rfl hn, rfl⟩

end Qmk.LegacyEeprom
