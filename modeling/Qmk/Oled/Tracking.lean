import Qmk.Oled.Windows

/-! # What the display shows

A byte of the buffer that does not show is in a block that is marked, through drawing, transfers
that fail and scrolling.
-/

namespace Qmk.Oled

variable {cfg : Config}

section Marks

theorem blockBit_eq (cfg : Config) (b : ℕ) : blockBit cfg b = BitVec.twoPow cfg.typeBits b :=
  (BitVec.twoPow_eq _ _).symm

theorem getLsbD_blockBit (b i : ℕ) :
    (blockBit cfg b).getLsbD i = (decide (i < cfg.typeBits) && decide (b = i)) := by
  rw [blockBit_eq, BitVec.getLsbD_twoPow]
  by_cases h : b = i
  · subst h; simp
  · simp [h]

theorem getLsbD_allBlocksMask (cfg : Config) (i : ℕ) :
    (allBlocksMask cfg).getLsbD i = decide (i < cfg.blockCount) := by
  have hpos := cfg.count_pos
  have hle := cfg.count_le
  have hpow : 1 ≤ 2 ^ (cfg.blockCount - 1) := Nat.one_le_two_pow
  have hmask : blockBit cfg (cfg.blockCount - 1) - 1 =
      BitVec.ofNat cfg.typeBits (2 ^ (cfg.blockCount - 1) - 1) := by
    rw [← BitVec.ofNat_sub_ofNat_of_le _ _ (Nat.one_lt_two_pow (by omega)) hpow, blockBit_eq]
    exact congrArg (· - 1) (BitVec.eq_of_toNat_eq (by rw [BitVec.toNat_twoPow, BitVec.toNat_ofNat]))
  have hone : (1 : BitVec cfg.typeBits).getLsbD i = decide (i = 0) := by
    rw [show (1 : BitVec cfg.typeBits) = BitVec.ofNat cfg.typeBits 1 from rfl, BitVec.getLsbD_one,
      decide_eq_true (show 0 < cfg.typeBits by omega), Bool.true_and]
  rw [allBlocksMask, hmask, BitVec.getLsbD_or, BitVec.getLsbD_shiftLeft, BitVec.getLsbD_ofNat,
    Nat.testBit_two_pow_sub_one, hone, Bool.eq_iff_iff]
  simp only [Bool.or_eq_true, Bool.and_eq_true, decide_eq_true_eq, Bool.not_eq_true']
  simp only [decide_eq_false_iff_not]
  omega

theorem getLsbD_mark (s : State cfg) (index i : ℕ) :
    (s.mark index).dirty.getLsbD i =
      (s.dirty.getLsbD i || (decide (i < cfg.typeBits) && decide (index / cfg.blockSize = i))) := by
  rw [State.mark, BitVec.getLsbD_or, getLsbD_blockBit]

theorem block_lt {x : ℕ} (hx : x < matrixSize cfg) : x / cfg.blockSize < cfg.typeBits :=
  Nat.lt_of_lt_of_le ((div_lt_blockCount_iff cfg).2 hx) cfg.count_le

end Marks

section Drawing

/-- Drawing leaves the display alone and marks each block that it changes. -/
structure Draws (s t : State cfg) : Prop where
  screen_eq : t.screen = s.screen
  initialized_eq : t.initialized = s.initialized
  scrolling_eq : t.scrolling = s.scrolling
  unmarked : ∀ x < matrixSize cfg, t.dirty.getLsbD (x / cfg.blockSize) = false →
    s.dirty.getLsbD (x / cfg.blockSize) = false ∧ t.buffer x = s.buffer x

theorem Draws.refl (s : State cfg) : Draws s s := ⟨rfl, rfl, rfl, fun _ _ h => ⟨h, rfl⟩⟩

theorem Draws.trans {s t u : State cfg} (h : Draws s t) (h' : Draws t u) : Draws s u where
  screen_eq := h'.screen_eq.trans h.screen_eq
  initialized_eq := h'.initialized_eq.trans h.initialized_eq
  scrolling_eq := h'.scrolling_eq.trans h.scrolling_eq
  unmarked x hx hu := by
    obtain ⟨ht, hbuffer⟩ := h'.unmarked x hx hu
    obtain ⟨hs, hbuffer'⟩ := h.unmarked x hx ht
    exact ⟨hs, hbuffer.trans hbuffer'⟩

theorem Draws.foldl {α : Type*} {f : State cfg → α → State cfg} (h : ∀ s a, Draws s (f s a)) :
    ∀ (l : List α) (s : State cfg), Draws s (l.foldl f s)
  | [], s => .refl s
  | a :: l, s => (h s a).trans (Draws.foldl h l (f s a))

theorem Draws.iterate {f : State cfg → State cfg} (h : ∀ s, Draws s (f s)) (s : State cfg) :
    ∀ n, Draws s (f^[n] s)
  | 0 => .refl s
  | n + 1 => (h s).trans (Draws.iterate h (f s) n)

theorem draws_of_cursor (s : State cfg) (cursor : ℕ) : Draws s { s with cursor } :=
  ⟨rfl, rfl, rfl, fun _ _ h => ⟨h, rfl⟩⟩

theorem draws_all (s : State cfg) (buffer : Mem UInt8) (cursor : ℕ) :
    Draws s { s with buffer, cursor, dirty := allBlocksMask cfg } where
  screen_eq := rfl
  initialized_eq := rfl
  scrolling_eq := rfl
  unmarked x hx h := by
    have hblock := (div_lt_blockCount_iff cfg).2 hx
    rw [getLsbD_allBlocksMask] at h
    simp [hblock] at h

theorem setByte_draws (index : ℕ) (data : UInt8) (s : State cfg) :
    Draws s (setByte index data s) := by
  rw [setByte]
  split_ifs
  · exact .refl s
  · refine ⟨rfl, rfl, rfl, fun x hx h => ?_⟩
    rw [getLsbD_mark] at h
    simp only [Bool.or_eq_false_iff, Bool.and_eq_false_iff, decide_eq_false_iff_not] at h
    obtain ⟨hs, hx' | hne⟩ := h
    · exact absurd (block_lt hx) hx'
    · refine ⟨hs, ?_⟩
      rcases Nat.lt_or_gt_of_ne (show x ≠ index from fun h => hne (h ▸ rfl)) with hlt | hlt
      · exact Mem.write_of_lt _ _ hlt
      · exact Mem.write_of_ge _ _ hlt

theorem div_eq_or_div_eq {size a x y : ℕ} (hsize : 0 < size) (ha : a ≤ x) (hy : x ≤ y)
    (hlt : y < a + size) : a / size = x / size ∨ y / size = x / size := by
  have h₁ := Nat.div_le_div_right (c := size) ha
  have h₂ := Nat.div_le_div_right (c := size) hy
  have h₃ : y / size ≤ (a + size) / size := Nat.div_le_div_right hlt.le
  rw [Nat.add_div_right _ hsize] at h₃
  omega

/-- The bytes of a character are in two blocks at most, the ones of the first and the last. -/
theorem draws_of_write (s : State cfg) {bytes : List UInt8}
    (hlength : bytes.length = cfg.fontWidth) :
    Draws s ((State.mark { s with buffer := s.buffer.write s.cursor bytes } s.cursor).mark
      (s.cursor + cfg.fontWidth - 1)) where
  screen_eq := rfl
  initialized_eq := rfl
  scrolling_eq := rfl
  unmarked x hx h := by
    rw [getLsbD_mark, getLsbD_mark] at h
    simp only [Bool.or_eq_false_iff, Bool.and_eq_false_iff, decide_eq_false_iff_not, block_lt hx,
      not_true_eq_false, false_or] at h
    obtain ⟨⟨hs, hfirst⟩, hlast⟩ := h
    refine ⟨hs, ?_⟩
    rcases Nat.lt_or_ge x s.cursor with hlt | hge
    · exact Mem.write_of_lt _ _ hlt
    · refine Mem.write_of_ge _ _ (Nat.le_of_not_lt fun hlt => ?_)
      have hwidth := cfg.fontWidth_le
      rcases div_eq_or_div_eq cfg.blockSize_pos hge (y := s.cursor + cfg.fontWidth - 1)
        (by omega) (by omega) with h | h
      · exact hfirst h
      · exact hlast h

theorem putChar_draws (data : UInt8) (invert : Bool) (s : State cfg) :
    Draws s (putChar data invert s) := by
  rw [putChar]
  refine Draws.trans ?_ (draws_of_cursor _ _)
  dsimp only
  split_ifs with h
  · exact draws_of_write s (length_glyph cfg data invert)
  · rw [not_not, ← length_glyph cfg data invert] at h
    rw [Mem.write_of_read h]
    exact .refl s

theorem oledAdvancePage_draws (clearPageRemainder : Bool) (s : State cfg) :
    Draws s (oledAdvancePage clearPageRemainder s) := by
  rw [oledAdvancePage]
  split_ifs
  · exact Draws.iterate (putChar_draws 0x20 false) s _
  · exact draws_of_cursor s _
  · exact draws_of_cursor s _

theorem oledWriteChar_draws (data : UInt8) (invert : Bool) (s : State cfg) :
    Draws s (oledWriteChar data invert s) := by
  rw [oledWriteChar]
  split_ifs
  · exact oledAdvancePage_draws true s
  · exact oledAdvancePage_draws false s
  · exact putChar_draws data invert s

theorem oledWrite_draws (data : List UInt8) (invert : Bool) (s : State cfg) :
    Draws s (oledWrite data invert s) :=
  Draws.foldl (fun s c => oledWriteChar_draws c invert s) data s

theorem oledWritePixel_draws (x y : ℕ) (on : Bool) (s : State cfg) :
    Draws s (oledWritePixel x y on s) := by
  rw [oledWritePixel]
  dsimp only
  split_ifs
  · exact .refl s
  · exact setByte_draws _ _ s
  · exact setByte_draws _ _ s

theorem Draw.apply_draws (d : Draw) (s : State cfg) : Draws s (d.apply s) := by
  cases d with
  | clear => exact draws_all s _ _
  | setCursor => exact draws_of_cursor s _
  | advancePage clear => exact oledAdvancePage_draws clear s
  | advanceChar => exact draws_of_cursor s _
  | writeChar data invert => exact oledWriteChar_draws data invert s
  | write data invert => exact oledWrite_draws data invert s
  | writeLn data invert =>
    exact (oledWrite_draws data invert s).trans (oledAdvancePage_draws true _)
  | pan => exact draws_all s _ _
  | writeRawByte data index => exact setByte_draws _ data s
  | writeRaw => exact Draws.foldl (fun s _ => setByte_draws _ _ s) _ s
  | writePixel x y on => exact oledWritePixel_draws x y on s

end Drawing

section Tracks

/-- Each byte whose block is not marked shows. -/
def Covers (cfg : Config) (dirty : BitVec cfg.typeBits) (screen : Screen) (buffer : Mem UInt8) :
    Prop :=
  ∀ x < matrixSize cfg, dirty.getLsbD (x / cfg.blockSize) = false → Shows cfg screen buffer x

/-- A display that is not scrolling shows the bytes whose blocks are not marked. -/
def Tracks (s : State cfg) : Prop :=
  s.initialized = true → s.scrolling = false → Covers cfg s.dirty s.screen s.buffer

theorem Shows.congr {screen : Screen} {buffer buffer' : Mem UInt8} {x : ℕ}
    (h : Shows cfg screen buffer x) (hx : buffer' x = buffer x) : Shows cfg screen buffer' x :=
  fun i hi => by rw [hx]; exact h i hi

theorem Draws.tracks {s t : State cfg} (h : Draws s t) (hs : Tracks s) : Tracks t := by
  intro hinit hscroll x hx hdirty
  rw [h.initialized_eq] at hinit
  rw [h.scrolling_eq] at hscroll
  obtain ⟨hmark, hbuffer⟩ := h.unmarked x hx hdirty
  rw [h.screen_eq]
  exact (hs hinit hscroll x hx hmark).congr hbuffer

theorem covers_all (screen : Screen) (buffer : Mem UInt8) :
    Covers cfg (allBlocksMask cfg) screen buffer := by
  intro x hx h
  rw [getLsbD_allBlocksMask] at h
  simp [(div_lt_blockCount_iff cfg).2 hx] at h

end Tracks

section Transfers

variable (bus : Bus)

/-- The outcome of sending some pieces. Whether they have all arrived or not, the cells that none
of them goes to are left alone. -/
structure Sent (l : List (List UInt8 × List UInt8)) (s : State cfg) (r : Bool × State cfg) :
    Prop where
  eq : r.2 = { s with screen := r.2.screen, sends := r.2.sends }
  sends_le : s.sends ≤ r.2.sends
  arrived : r.1 = true → r.2.screen = showPieces l s.screen
  frame : ∀ p c, (∀ piece ∈ l, written piece p c = none) → r.2.screen p c = s.screen p c

theorem disturb_of_written_eq_none {piece : List UInt8 × List UInt8} {p c : ℕ}
    (h : written piece p c = none) (left screen : Screen) :
    (decodeWindow piece.1).disturb piece.2 left screen p c = screen p c := by
  rw [written] at h
  rw [Window.disturb, h]
  rfl

theorem sendPieces_sent (l : List (List UInt8 × List UInt8)) (s : State cfg) :
    Sent l s (sendPieces bus l s) := by
  induction l generalizing s with
  | nil => exact ⟨rfl, le_rfl, fun _ => rfl, fun _ _ _ => rfl⟩
  | cons piece l ih =>
    obtain ⟨command, data⟩ := piece
    rw [sendPieces, oledSendCmd]
    cases hcmd : bus s.sends with
    | failed left =>
      exact ⟨rfl, Nat.le_succ _, (fun h => by cases h), fun _ _ _ => rfl⟩
    | ok =>
      dsimp only
      rw [oledSendData]
      cases hdata : bus (s.sends + 1) with
      | failed left =>
        refine ⟨rfl, Nat.le_add_right _ 2, (fun h => by cases h), fun p c h => ?_⟩
        exact disturb_of_written_eq_none (h _ List.mem_cons_self) left s.screen
      | ok =>
        dsimp only
        obtain ⟨heq, hle, harrived, hframe⟩ :=
          ih { s with screen := (decodeWindow command).put data s.screen, sends := s.sends + 1 + 1 }
        refine ⟨heq, Nat.le_trans (Nat.le_add_right _ 2) hle, harrived, fun p c h => ?_⟩
        rw [hframe p c fun q hq => h q (List.mem_cons_of_mem _ hq)]
        exact (put_eq (command, data) s.screen p c).trans
          (by rw [h _ List.mem_cons_self]; rfl)

theorem sendPieces_of_ok {n : ℕ} (hbus : ∀ m ≥ n, bus m = .ok)
    (l : List (List UInt8 × List UInt8)) (s : State cfg) (hn : n ≤ s.sends) :
    (sendPieces bus l s).1 = true := by
  induction l generalizing s with
  | nil => rfl
  | cons piece l ih =>
    rw [sendPieces, oledSendCmd, hbus _ hn]
    dsimp only
    rw [oledSendData, hbus _ (show n ≤ s.sends + 1 by omega)]
    exact ih _ (show n ≤ s.sends + 1 + 1 by omega)

end Transfers

section Rendering

variable (bus : Bus)

theorem nextDirty_spec (dirty : BitVec cfg.typeBits) (fuel updateStart : ℕ) {b : ℕ}
    (hb : dirty.getLsbD b = true) (hle : updateStart ≤ b) (hfuel : b < updateStart + fuel) :
    dirty.getLsbD (nextDirty dirty fuel updateStart) = true ∧
      nextDirty dirty fuel updateStart ≤ b ∧
      ∀ i, updateStart ≤ i → i < nextDirty dirty fuel updateStart → dirty.getLsbD i = false := by
  induction fuel generalizing updateStart with
  | zero => omega
  | succ fuel ih =>
    rw [nextDirty]
    split_ifs with h
    · exact ⟨h, hle, fun i hi hlt => absurd hlt (Nat.not_lt.2 hi)⟩
    · have hne : updateStart ≠ b := fun heq => h (heq ▸ hb)
      obtain ⟨hdirty, hnext, hbetween⟩ := ih (updateStart + 1) (by omega) (by omega)
      refine ⟨hdirty, hnext, fun i hi hlt => ?_⟩
      rcases Nat.eq_or_lt_of_le hi with rfl | hi
      · exact Bool.eq_false_iff.2 h
      · exact hbetween i hi hlt

theorem exists_getLsbD {w : ℕ} {dirty : BitVec w} (h : dirty ≠ 0) :
    ∃ b < w, dirty.getLsbD b = true := by
  by_contra hnone
  push Not at hnone
  refine h (BitVec.eq_of_getLsbD_eq fun i hi => ?_)
  simpa using hnone i hi

structure Passing (cfg : Config) (updateStart : ℕ) (dirty : BitVec cfg.typeBits) : Prop where
  below : ∀ i < updateStart, dirty.getLsbD i = false
  blocks : ∀ i, dirty.getLsbD i = true → i < cfg.blockCount

theorem Passing.nextDirty {updateStart : ℕ} {dirty : BitVec cfg.typeBits}
    (h : Passing cfg updateStart dirty) (hdirty : dirty ≠ 0) :
    dirty.getLsbD (Oled.nextDirty dirty cfg.typeBits updateStart) = true ∧
      Passing cfg (Oled.nextDirty dirty cfg.typeBits updateStart) dirty := by
  obtain ⟨b, hb, hset⟩ := exists_getLsbD hdirty
  have hle : updateStart ≤ b := Nat.le_of_not_lt fun hlt => by
    rw [h.below b hlt] at hset
    cases hset
  obtain ⟨hnext, -, hbetween⟩ := nextDirty_spec dirty cfg.typeBits updateStart hset hle (by omega)
  refine ⟨hnext, fun i hi => ?_, h.blocks⟩
  rcases Nat.lt_or_ge i updateStart with hlt | hge
  · exact h.below i hlt
  · exact hbetween i hge hi

theorem getLsbD_clear (dirty : BitVec cfg.typeBits) (b i : ℕ) :
    (dirty &&& ~~~blockBit cfg b).getLsbD i = (dirty.getLsbD i && !decide (b = i)) := by
  rw [BitVec.getLsbD_and, BitVec.getLsbD_not, getLsbD_blockBit]
  rcases Nat.lt_or_ge i cfg.typeBits with hi | hi
  · simp [hi]
  · simp [BitVec.getLsbD_of_ge dirty i hi]

theorem Passing.clear {updateStart : ℕ} {dirty : BitVec cfg.typeBits}
    (h : Passing cfg updateStart dirty) :
    Passing cfg updateStart (dirty &&& ~~~blockBit cfg updateStart) where
  below i hi := by rw [getLsbD_clear, h.below i hi, Bool.false_and]
  blocks i hi := by
    rw [getLsbD_clear, Bool.and_eq_true] at hi
    exact h.blocks i hi.1

/-- A block that is marked may be disturbed, and shows when all of it has arrived. -/
theorem Sent.covers {s : State cfg} {r : Bool × State cfg} {b : ℕ}
    (h : Sent (pieces cfg s.buffer b) s r) (hb : b < cfg.blockCount)
    (hmark : s.dirty.getLsbD b = true) (hs : Covers cfg s.dirty s.screen s.buffer) :
    Covers cfg s.dirty r.2.screen s.buffer ∧
      (r.1 = true →
        Covers cfg (s.dirty &&& ~~~blockBit cfg b) r.2.screen s.buffer) := by
  have hother {x : ℕ} (hx : x < matrixSize cfg) (hxb : x / cfg.blockSize ≠ b)
      (hdirty : s.dirty.getLsbD (x / cfg.blockSize) = false) :
      Shows cfg r.2.screen s.buffer x := fun i hi => by
    rw [h.frame _ _ fun piece hpiece => written_eq_none hb hi hxb hpiece]
    exact hs x hx hdirty i hi
  constructor
  · intro x hx hdirty
    refine hother hx (fun heq => ?_) hdirty
    rw [heq, hmark] at hdirty
    cases hdirty
  · intro harrived x hx hdirty
    by_cases hxb : x / cfg.blockSize = b
    · rw [h.arrived harrived]
      exact shows_showPieces s.screen hb hxb
    · refine hother hx hxb ?_
      rwa [getLsbD_clear, decide_eq_false (Ne.symm hxb), Bool.not_false, Bool.and_true] at hdirty

/-- Rendering leaves the buffer alone, and what has shown without a mark still does. -/
structure Renders (s t : State cfg) : Prop where
  buffer_eq : t.buffer = s.buffer
  initialized_eq : t.initialized = s.initialized
  scrolling_eq : t.scrolling = s.scrolling
  sends_le : s.sends ≤ t.sends
  covers : Covers cfg s.dirty s.screen s.buffer → Covers cfg t.dirty t.screen t.buffer

theorem Renders.refl (s : State cfg) : Renders s s := ⟨rfl, rfl, rfl, le_rfl, id⟩

theorem Renders.trans {s t u : State cfg} (h : Renders s t) (h' : Renders t u) : Renders s u where
  buffer_eq := h'.buffer_eq.trans h.buffer_eq
  initialized_eq := h'.initialized_eq.trans h.initialized_eq
  scrolling_eq := h'.scrolling_eq.trans h.scrolling_eq
  sends_le := h.sends_le.trans h'.sends_le
  covers := h'.covers ∘ h.covers

/-- What a pass of the loop does: it ends, or it sends a block and goes on if that has arrived. -/
theorem renderLoop_cases (all : Bool) (fuel updateStart n : ℕ) {s : State cfg}
    (hpassing : Passing cfg updateStart s.dirty) :
    (¬(s.dirty ≠ 0 ∧ (n < cfg.updateLimit ∨ all = true)) ∧
      renderLoop bus all (fuel + 1) updateStart n s = s) ∨
    ∃ b screen sends, (n < cfg.updateLimit ∨ all = true) ∧ s.dirty.getLsbD b = true ∧
      Passing cfg b s.dirty ∧ s.sends ≤ sends ∧
      (∀ x i, i < 8 → x / cfg.blockSize ≠ b →
        screen (cell cfg x i).1 (cell cfg x i).2 = s.screen (cell cfg x i).1 (cell cfg x i).2) ∧
      ((renderLoop bus all (fuel + 1) updateStart n s = { s with screen, sends } ∧
          ¬(∀ m ≥ s.sends, bus m = .ok) ∧
          (Covers cfg s.dirty s.screen s.buffer → Covers cfg s.dirty screen s.buffer)) ∨
        renderLoop bus all (fuel + 1) updateStart n s = renderLoop bus all fuel b (n + 1)
            { s with screen, sends, dirty := s.dirty &&& ~~~blockBit cfg b } ∧
          (Covers cfg s.dirty s.screen s.buffer →
            Covers cfg (s.dirty &&& ~~~blockBit cfg b) screen s.buffer)) := by
  rw [renderLoop]
  split_ifs with hwork
  · right
    obtain ⟨hmark, hnext⟩ := hpassing.nextDirty hwork.1
    have hsent := sendPieces_sent bus
      (pieces cfg s.buffer (nextDirty s.dirty cfg.typeBits updateStart)) s
    have hokay := fun hbus => sendPieces_of_ok bus hbus
      (pieces cfg s.buffer (nextDirty s.dirty cfg.typeBits updateStart)) s le_rfl
    dsimp only
    generalize nextDirty s.dirty cfg.typeBits updateStart = b at *
    generalize sendPieces bus (pieces cfg s.buffer b) s = r at *
    obtain ⟨okay, t⟩ := r
    have hb := hnext.blocks b hmark
    have hcovers := hsent.covers hb hmark
    obtain ⟨heq, hle, -, hframe⟩ := hsent
    dsimp only at heq hle hcovers hokay
    refine ⟨b, t.screen, t.sends, hwork.2, hmark, hnext, hle, fun x i hi hx => ?_, ?_⟩
    · exact hframe _ _ fun piece hpiece => written_eq_none hb hi hx hpiece
    cases okay with
    | false => exact .inl ⟨heq, fun hbus => Bool.false_ne_true (hokay hbus), fun h => (hcovers h).1⟩
    | true =>
      refine .inr ⟨?_, fun h => (hcovers h).2 rfl⟩
      dsimp only
      rw [heq]
  · exact .inl ⟨hwork, rfl⟩

theorem renderLoop_renders (all : Bool) (fuel updateStart n : ℕ) (s : State cfg)
    (hpassing : Passing cfg updateStart s.dirty) :
    Renders s (renderLoop bus all fuel updateStart n s) := by
  induction fuel generalizing updateStart n s with
  | zero => exact .refl s
  | succ fuel ih =>
    rcases renderLoop_cases bus all fuel updateStart n hpassing with
      ⟨-, h⟩ | ⟨b, screen, sends, -, -, hnext, hle, -, ⟨h, -, hcovers⟩ | ⟨h, hcovers⟩⟩
    · rw [h]
      exact .refl s
    · rw [h]
      exact ⟨rfl, rfl, rfl, hle, hcovers⟩
    · rw [h]
      have hpass : Renders s { s with
          screen, sends, dirty := s.dirty &&& ~~~blockBit cfg b } :=
        ⟨rfl, rfl, rfl, hle, hcovers⟩
      exact hpass.trans (ih b (n + 1) _ hnext.clear)

theorem oledOn_renders (s : State cfg) : Renders s (oledOn bus s) := by
  rw [oledOn]
  split_ifs
  · exact .refl s
  · rw [oledSendCmd]
    cases bus s.sends <;> exact ⟨rfl, rfl, rfl, Nat.le_succ _, id⟩

theorem oledOn_dirty (s : State cfg) : (oledOn bus s).dirty = s.dirty := by
  rw [oledOn]
  split_ifs
  · rfl
  · rw [oledSendCmd]
    cases bus s.sends <;> rfl

theorem oledOn_screen (s : State cfg) : (oledOn bus s).screen = s.screen := by
  rw [oledOn]
  split_ifs
  · rfl
  · rw [oledSendCmd]
    cases bus s.sends <;> rfl

theorem getLsbD_and_allBlocksMask (dirty : BitVec cfg.typeBits) (i : ℕ) :
    (dirty &&& allBlocksMask cfg).getLsbD i = (dirty.getLsbD i && decide (i < cfg.blockCount)) := by
  rw [BitVec.getLsbD_and, getLsbD_allBlocksMask]

theorem passing_mask (dirty : BitVec cfg.typeBits) :
    Passing cfg 0 (dirty &&& allBlocksMask cfg) where
  below _ hi := absurd hi (Nat.not_lt_zero _)
  blocks i hi := by
    rw [getLsbD_and_allBlocksMask, Bool.and_eq_true, decide_eq_true_eq] at hi
    exact hi.2

theorem mask_renders (s : State cfg) :
    Renders s { s with dirty := s.dirty &&& allBlocksMask cfg } := by
  refine ⟨rfl, rfl, rfl, le_rfl, fun h x hx hdirty => h x hx ?_⟩
  rw [getLsbD_and_allBlocksMask] at hdirty
  simpa [(div_lt_blockCount_iff cfg).2 hx] using hdirty

theorem oledRenderDirty_renders (all : Bool) (s : State cfg) :
    Renders s (oledRenderDirty bus all s) := by
  rw [oledRenderDirty]
  dsimp only
  refine (mask_renders s).trans ?_
  split_ifs
  · exact .refl _
  · refine (oledOn_renders bus _).trans (renderLoop_renders bus all _ _ _ _ ?_)
    rw [oledOn_dirty]
    exact passing_mask s.dirty

theorem Renders.tracks {s t : State cfg} (h : Renders s t) (hs : Tracks s) : Tracks t := by
  intro hinit hscroll
  rw [h.initialized_eq] at hinit
  rw [h.scrolling_eq] at hscroll
  exact h.covers (hs hinit hscroll)

end Rendering

section Runs

variable (bus : Bus)

theorem oledInit_tracks {s : State cfg} (hs : Tracks s) : Tracks (oledInit bus s) := by
  rw [oledInit, oledSendCmd]
  cases bus s.sends with
  | failed => exact hs
  | ok =>
    dsimp only
    rw [oledSendCmd]
    cases bus (s.sends + 1) with
    | failed => exact hs
    | ok =>
      dsimp only
      rw [oledSendCmd]
      cases bus (s.sends + 1 + 1) with
      | failed => exact hs
      | ok => exact fun _ _ => covers_all _ _

theorem oledScroll_tracks {s : State cfg} (hs : Tracks s) : Tracks (oledScroll bus s) := by
  rw [oledScroll]
  split_ifs
  · rw [oledSendCmd]
    cases bus s.sends with
    | failed => exact hs
    | ok => exact fun _ hscroll => by cases hscroll
  · exact hs

theorem oledScrollOff_tracks {s : State cfg} (hs : Tracks s) : Tracks (oledScrollOff bus s) := by
  rw [oledScrollOff]
  split_ifs
  · rw [oledSendCmd]
    cases bus s.sends with
    | failed => exact hs
    | ok => exact fun _ _ => covers_all _ _
  · exact hs

theorem Op.apply_tracks (op : Op) {s : State cfg} (hs : Tracks s) : Tracks (op.apply bus s) := by
  cases op with
  | draw d => exact (d.apply_draws s).tracks hs
  | init => exact oledInit_tracks bus hs
  | on => exact (oledOn_renders bus s).tracks hs
  | off =>
    rw [Op.apply, oledOff]
    split_ifs
    · exact hs
    · rw [oledSendCmd]
      cases bus s.sends <;> exact hs
  | scroll => exact oledScroll_tracks bus hs
  | scrollOff => exact oledScrollOff_tracks bus hs
  | invert =>
    rw [Op.apply, oledInvert]
    split_ifs
    · rw [oledSendCmd]
      cases bus s.sends <;> exact hs
    · exact hs
  | renderDirty all => exact (oledRenderDirty_renders bus all s).tracks hs
  | scrolled screen =>
    rw [Op.apply]
    split_ifs with hscroll
    · exact fun _ h => absurd hscroll (by simpa using h)
    · exact hs

theorem run_tracks (ops : List Op) {s : State cfg} (hs : Tracks s) : Tracks (run bus ops s) := by
  induction ops generalizing s with
  | nil => exact hs
  | cons op ops ih => exact ih (op.apply_tracks bus hs)

/-- Each pixel in a block that is not marked shows, whatever has been drawn and whichever
transfers have failed. -/
theorem run_shows (ops : List Op) (s : State cfg) (hs : s.initialized = false)
    (hinit : (run bus ops s).initialized = true) (hscroll : (run bus ops s).scrolling = false)
    {x : ℕ} (hx : x < matrixSize cfg)
    (hdirty : (run bus ops s).dirty.getLsbD (x / cfg.blockSize) = false) :
    Shows cfg (run bus ops s).screen (run bus ops s).buffer x := by
  have htracks : Tracks s := fun h => by simp [hs] at h
  exact run_tracks bus ops htracks hinit hscroll x hx hdirty

def narrow.blank : State narrow := { buffer := fun _ => 0, screen := fun _ _ => 0xFF }

def narrow.ops : List Op := [.init, .draw (.write [0x51, 0x4D, 0x4B] false), .renderDirty false]

def narrow.unplugged : Bus := fun n => if n < 5 then .ok else .failed fun _ _ => 0

theorem run_shows_narrow :
    Shows narrow (run narrow.unplugged (narrow.ops ++ [.renderDirty true]) narrow.blank).screen
      (run narrow.unplugged (narrow.ops ++ [.renderDirty true]) narrow.blank).buffer 7 :=
  run_shows _ _ _ rfl (by decide) (by decide) (by decide) (by decide)

end Runs

end Qmk.Oled
