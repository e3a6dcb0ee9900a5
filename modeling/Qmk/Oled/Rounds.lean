import Mathlib.Data.Nat.Count
import Qmk.Oled.Tracking

/-! # The order of the blocks

Each round sends the first blocks that are marked, up to a limit. On a bus that works the display
catches up with the buffer in a few rounds, while a block waits as long as enough others before it
are drawn again.
-/

namespace Qmk.Oled

variable {cfg : Config}

section Order

/-- The number of the blocks before a block that are marked. -/
def marksBelow {w : ℕ} (dirty : BitVec w) (b : ℕ) : ℕ := Nat.count (dirty.getLsbD · = true) b

theorem marksBelow_succ {w : ℕ} (dirty : BitVec w) (b : ℕ) :
    marksBelow dirty (b + 1) = marksBelow dirty b + if dirty.getLsbD b then 1 else 0 :=
  Nat.count_succ _ b

theorem marksBelow_clear (dirty : BitVec cfg.typeBits) {b i : ℕ} (hb : dirty.getLsbD b = true)
    (hi : b < i) :
    marksBelow (dirty &&& ~~~blockBit cfg b) i + 1 = marksBelow dirty i := by
  have hmem : b ∈ (Finset.range i).filter (dirty.getLsbD · = true) := by simp [hb, hi]
  rw [marksBelow, marksBelow, Nat.count_eq_card_filter_range, Nat.count_eq_card_filter_range,
    ← Finset.card_erase_add_one hmem]
  congr 2
  ext j
  simp only [getLsbD_clear, Finset.mem_filter, Finset.mem_range, Finset.mem_erase,
    Bool.and_eq_true, Bool.not_eq_true', decide_eq_false_iff_not]
  tauto

theorem marksBelow_eq_zero_iff {w : ℕ} {dirty : BitVec w} {b : ℕ} :
    marksBelow dirty b = 0 ↔ ∀ i < b, dirty.getLsbD i = false := by
  rw [marksBelow, Nat.count_iff_forall_not]
  simp

theorem eq_zero_of_marksBelow {w : ℕ} {dirty : BitVec w} (h : marksBelow dirty w = 0) :
    dirty = 0 :=
  BitVec.eq_of_getLsbD_eq fun i hi => by simpa using marksBelow_eq_zero_iff.1 h i hi

theorem getLsbD_clear_first {dirty : BitVec cfg.typeBits} {b n i : ℕ} {all : Bool}
    (hb : dirty.getLsbD b = true) (hpassing : Passing cfg b dirty)
    (hn : n < cfg.updateLimit ∨ all = true) :
    ((dirty &&& ~~~blockBit cfg b).getLsbD i && !all &&
        decide (cfg.updateLimit - (n + 1) ≤
          marksBelow (dirty &&& ~~~blockBit cfg b) i)) =
      (dirty.getLsbD i && !all && decide (cfg.updateLimit - n ≤ marksBelow dirty i)) := by
  rw [getLsbD_clear]
  cases all with
  | true => simp
  | false =>
    rcases Nat.lt_trichotomy i b with hlt | rfl | hlt
    · rw [hpassing.below i hlt]
      simp
    · have hzero := marksBelow_eq_zero_iff.2 hpassing.below
      have hpos : ¬cfg.updateLimit - n ≤ 0 := by
        have := hn.resolve_right Bool.false_ne_true
        omega
      simp [hzero, hpos]
    · have hbelow := marksBelow_clear dirty hb hlt
      have hiff : cfg.updateLimit - (n + 1) ≤ marksBelow (dirty &&& ~~~blockBit cfg b) i ↔
          cfg.updateLimit - n ≤ marksBelow dirty i := by omega
      simp [hiff, hlt.ne]

variable (bus : Bus)

/-- On a bus that works, the blocks that stay marked are the ones with enough others before. -/
theorem getLsbD_renderLoop (all : Bool) (fuel updateStart n : ℕ) (s : State cfg)
    (hbus : ∀ m ≥ s.sends, bus m = .ok) (hpassing : Passing cfg updateStart s.dirty)
    (hfuel : marksBelow s.dirty cfg.typeBits ≤ fuel) (i : ℕ) :
    (renderLoop bus all fuel updateStart n s).dirty.getLsbD i =
      (s.dirty.getLsbD i && !all && decide (cfg.updateLimit - n ≤ marksBelow s.dirty i)) := by
  induction fuel generalizing updateStart n s with
  | zero =>
    rw [renderLoop, eq_zero_of_marksBelow (Nat.le_zero.1 hfuel)]
    simp
  | succ fuel ih =>
    rcases renderLoop_cases bus all fuel updateStart n hpassing with
      ⟨hwork, h⟩ | ⟨b, screen, sends, hn, hmark, hnext, hle, -, ⟨-, hfails, -⟩ | ⟨h, -⟩⟩
    · rw [not_and_or, not_not, not_or, not_lt, Bool.not_eq_true] at hwork
      rw [h]
      rcases hwork with hzero | ⟨hn, rfl⟩
      · simp [hzero]
      · simp [Nat.sub_eq_zero_of_le hn]
    · exact absurd hbus hfails
    · have hlast := marksBelow_clear s.dirty hmark
        (hpassing.blocks b hmark |>.trans_le cfg.count_le)
      rw [h, ih b (n + 1) _ (fun m hm => hbus m (hle.trans hm)) hnext.clear (by dsimp only; omega)]
      exact getLsbD_clear_first hmark hnext hn

/-- A block that stays marked and is not sent to the display. -/
structure Waits (b : ℕ) (s t : State cfg) : Prop where
  marked : t.dirty.getLsbD b = true
  screen_eq : ∀ x i, i < 8 → x / cfg.blockSize = b →
    t.screen (cell cfg x i).1 (cell cfg x i).2 = s.screen (cell cfg x i).1 (cell cfg x i).2

theorem Waits.trans {b : ℕ} {s t u : State cfg} (h : Waits b s t) (h' : Waits b t u) :
    Waits b s u where
  marked := h'.marked
  screen_eq x i hi hx := (h'.screen_eq x i hi hx).trans (h.screen_eq x i hi hx)

theorem renderLoop_waits (fuel updateStart n : ℕ) (s : State cfg) {i : ℕ}
    (hpassing : Passing cfg updateStart s.dirty) (hi : s.dirty.getLsbD i = true)
    (hle : cfg.updateLimit - n ≤ marksBelow s.dirty i) :
    Waits i s (renderLoop bus false fuel updateStart n s) := by
  induction fuel generalizing updateStart n s with
  | zero => exact ⟨hi, fun _ _ _ _ => rfl⟩
  | succ fuel ih =>
    rcases renderLoop_cases bus false fuel updateStart n hpassing with
      ⟨-, h⟩ | ⟨b, screen, sends, hn, hmark, hnext, -, hframe, h⟩
    · rw [h]
      exact ⟨hi, fun _ _ _ _ => rfl⟩
    · have hstays := getLsbD_clear_first hmark hnext hn (i := i)
      simp only [hi, hle, Bool.not_false, Bool.and_self, decide_true, Bool.and_true,
        Bool.and_eq_true, decide_eq_true_eq] at hstays
      have hne : b ≠ i := by
        rintro rfl
        have hcleared := hstays.1
        rw [getLsbD_clear, decide_eq_true rfl] at hcleared
        simp at hcleared
      rcases h with ⟨h, -⟩ | ⟨h, -⟩
      · rw [h]
        exact ⟨hi, fun x j hj hx => hframe x j hj (hx ▸ hne.symm)⟩
      · rw [h]
        refine Waits.trans ⟨?_, ?_⟩ (ih b (n + 1) _ hnext.clear hstays.1 hstays.2)
        · exact hstays.1
        · exact fun x j hj hx => hframe x j hj (hx ▸ hne.symm)

theorem marksBelow_mask (dirty : BitVec cfg.typeBits) {b : ℕ} (hb : b ≤ cfg.blockCount) :
    marksBelow (dirty &&& allBlocksMask cfg) b = marksBelow dirty b := by
  induction b with
  | zero => rfl
  | succ b ih =>
    rw [marksBelow_succ, marksBelow_succ, ih (by omega), getLsbD_and_allBlocksMask,
      decide_eq_true (show b < cfg.blockCount by omega), Bool.and_true]

theorem getLsbD_oledRenderDirty (all : Bool) {s : State cfg} (hinit : s.initialized = true)
    (hscroll : s.scrolling = false) (hbus : ∀ m ≥ s.sends, bus m = .ok) {b : ℕ}
    (hb : b < cfg.blockCount) :
    (oledRenderDirty bus all s).dirty.getLsbD b =
      (s.dirty.getLsbD b && !all && decide (cfg.updateLimit ≤ marksBelow s.dirty b)) := by
  have hmask : (s.dirty &&& allBlocksMask cfg).getLsbD b = s.dirty.getLsbD b := by
    rw [getLsbD_and_allBlocksMask, decide_eq_true hb, Bool.and_true]
  rw [oledRenderDirty]
  dsimp only
  split_ifs with hidle
  · rw [hinit, hscroll] at hidle
    have hzero : s.dirty &&& allBlocksMask cfg = 0 := by simpa using hidle
    rw [← hmask, hzero]
    simp
  · have hon := oledOn_renders bus { s with dirty := s.dirty &&& allBlocksMask cfg }
    rw [getLsbD_renderLoop bus _ _ _ _ _ (fun m hm => hbus m (hon.sends_le.trans hm)),
      oledOn_dirty, Nat.sub_zero, hmask, marksBelow_mask _ hb.le]
    · rw [oledOn_dirty]
      exact passing_mask s.dirty
    · exact Nat.count_le _

theorem oledRenderDirty_waits {s : State cfg} {b : ℕ} (hb : b < cfg.blockCount)
    (hmark : s.dirty.getLsbD b = true) (hle : cfg.updateLimit ≤ marksBelow s.dirty b) :
    Waits b s (oledRenderDirty bus false s) := by
  have hmask : (s.dirty &&& allBlocksMask cfg).getLsbD b = true := by
    rw [getLsbD_and_allBlocksMask, hmark, decide_eq_true hb]
    rfl
  rw [oledRenderDirty]
  dsimp only
  split_ifs
  · exact ⟨hmask, fun _ _ _ _ => rfl⟩
  · refine Waits.trans (t := oledOn bus { s with dirty := s.dirty &&& allBlocksMask cfg })
      ⟨?_, ?_⟩ (renderLoop_waits bus _ _ _ _ ?_ ?_ ?_)
    · rw [oledOn_dirty]
      exact hmask
    · rw [oledOn_screen]
      exact fun _ _ _ _ => rfl
    · rw [oledOn_dirty]
      exact passing_mask s.dirty
    · rw [oledOn_dirty]
      exact hmask
    · rw [oledOn_dirty, marksBelow_mask _ hb.le, Nat.sub_zero]
      exact hle

theorem marksBelow_oledRenderDirty {s : State cfg} (hinit : s.initialized = true)
    (hscroll : s.scrolling = false) (hbus : ∀ m ≥ s.sends, bus m = .ok) {b : ℕ}
    (hb : b ≤ cfg.blockCount) :
    marksBelow (oledRenderDirty bus false s).dirty b = marksBelow s.dirty b - cfg.updateLimit := by
  induction b with
  | zero => exact (Nat.zero_sub _).symm
  | succ b ih =>
    rw [marksBelow_succ, marksBelow_succ, ih (by omega),
      getLsbD_oledRenderDirty bus false hinit hscroll hbus (by omega)]
    cases s.dirty.getLsbD b with
    | false => simp
    | true =>
      by_cases hle : cfg.updateLimit ≤ marksBelow s.dirty b
      · simp only [hle, Bool.not_false, Bool.and_self, decide_true, if_true]
        omega
      · simp only [hle, Bool.not_false, Bool.and_self, decide_false, Bool.and_false,
          Bool.false_eq_true, if_false, if_true]
        omega

theorem iterate_renders (k : ℕ) (all : Bool) (s : State cfg) :
    Renders s ((oledRenderDirty bus all)^[k] s) := by
  induction k with
  | zero => exact .refl s
  | succ k ih =>
    rw [Function.iterate_succ_apply']
    exact ih.trans (oledRenderDirty_renders bus all _)

/-- After some rounds the blocks that are left are the ones that had too many others before. -/
theorem getLsbD_iterate (k : ℕ) {s : State cfg} (hinit : s.initialized = true)
    (hscroll : s.scrolling = false) (hbus : ∀ m ≥ s.sends, bus m = .ok) :
    (∀ b ≤ cfg.blockCount, marksBelow ((oledRenderDirty bus false)^[k] s).dirty b =
      marksBelow s.dirty b - k * cfg.updateLimit) ∧
    ∀ b < cfg.blockCount, ((oledRenderDirty bus false)^[k] s).dirty.getLsbD b =
      (s.dirty.getLsbD b && decide (k * cfg.updateLimit ≤ marksBelow s.dirty b)) := by
  induction k with
  | zero => simp
  | succ k ih =>
    obtain ⟨hbelow, hmark⟩ := ih
    have hrenders := iterate_renders bus k false s
    have hinit' := hrenders.initialized_eq.trans hinit
    have hscroll' := hrenders.scrolling_eq.trans hscroll
    have hbus' m (hm : m ≥ ((oledRenderDirty bus false)^[k] s).sends) :=
      hbus m (hrenders.sends_le.trans hm)
    rw [Function.iterate_succ_apply', Nat.succ_mul]
    constructor
    · intro b hb
      rw [marksBelow_oledRenderDirty bus hinit' hscroll' hbus' hb, hbelow b hb, Nat.sub_sub]
    · intro b hb
      rw [getLsbD_oledRenderDirty bus false hinit' hscroll' hbus' hb, hmark b hb, hbelow b hb.le,
        Bool.eq_iff_iff]
      simp only [Bool.and_eq_true, decide_eq_true_eq, Bool.not_false, and_true]
      rw [and_assoc]
      exact and_congr_right fun _ => by omega

end Order

section Results

variable (bus : Bus) {ops : List Op} {s : State cfg}

/-- What has been drawn in a run shows after some rounds in each block that has no mark left. -/
theorem iterate_shows (k : ℕ) (all : Bool) (hs : s.initialized = false)
    (hinit : (run bus ops s).initialized = true) (hscroll : (run bus ops s).scrolling = false)
    {x : ℕ} (hx : x < matrixSize cfg)
    (hdirty : ((oledRenderDirty bus all)^[k] (run bus ops s)).dirty.getLsbD (x / cfg.blockSize) =
      false) :
    Shows cfg ((oledRenderDirty bus all)^[k] (run bus ops s)).screen (run bus ops s).buffer x := by
  have htracks : Tracks s := fun h => by simp [hs] at h
  have hrenders := iterate_renders bus k all (run bus ops s)
  have hcovers := hrenders.covers (run_tracks bus ops htracks hinit hscroll)
  rw [hrenders.buffer_eq] at hcovers
  exact hcovers x hx hdirty

/-- On a bus that works, rounds without drawing send the first blocks that are marked, as many as
the limit in each round, and what they send shows. -/
theorem rounds_in_order (hs : s.initialized = false)
    (hinit : (run bus ops s).initialized = true) (hscroll : (run bus ops s).scrolling = false)
    (hbus : ∀ m ≥ (run bus ops s).sends, bus m = .ok) (k : ℕ) {x : ℕ} (hx : x < matrixSize cfg) :
    (((oledRenderDirty bus false)^[k] (run bus ops s)).dirty.getLsbD (x / cfg.blockSize) = true ↔
      (run bus ops s).dirty.getLsbD (x / cfg.blockSize) = true ∧
        k * cfg.updateLimit ≤ marksBelow (run bus ops s).dirty (x / cfg.blockSize)) ∧
    (((run bus ops s).dirty.getLsbD (x / cfg.blockSize) = true →
        marksBelow (run bus ops s).dirty (x / cfg.blockSize) < k * cfg.updateLimit) →
      Shows cfg ((oledRenderDirty bus false)^[k] (run bus ops s)).screen
        (run bus ops s).buffer x) := by
  have hmark := (getLsbD_iterate bus k hinit hscroll hbus).2 _ ((div_lt_blockCount_iff cfg).2 hx)
  constructor
  · rw [hmark]
    simp
  · intro hfew
    refine iterate_shows bus k false hs hinit hscroll hx ?_
    rw [hmark, Bool.and_eq_false_iff, decide_eq_false_iff_not, Nat.not_le]
    exact or_iff_not_imp_left.2 fun h => hfew (by simpa using h)

/-- A display with some text, of which the first block has been sent. -/
def narrow.drawn : State narrow := run (fun _ => .ok) narrow.ops narrow.blank

theorem rounds_in_order_narrow :
    (((oledRenderDirty (fun _ => .ok) false)^[2] narrow.drawn).dirty.getLsbD
        (100 / narrow.blockSize) = true ↔
      narrow.drawn.dirty.getLsbD (100 / narrow.blockSize) = true ∧
        2 * narrow.updateLimit ≤ marksBelow narrow.drawn.dirty (100 / narrow.blockSize)) ∧
    ((narrow.drawn.dirty.getLsbD (100 / narrow.blockSize) = true →
        marksBelow narrow.drawn.dirty (100 / narrow.blockSize) < 2 * narrow.updateLimit) →
      Shows narrow ((oledRenderDirty (fun _ => .ok) false)^[2] narrow.drawn).screen
        narrow.drawn.buffer 100) :=
  rounds_in_order (fun _ => .ok) rfl (by decide) (by decide) (fun _ _ => rfl) 2 (by decide)

/-- On a bus that works the display catches up with the buffer, in one round of all blocks or in
as many rounds as the limit makes of them. -/
theorem display_catches_up (hs : s.initialized = false)
    (hinit : (run bus ops s).initialized = true) (hscroll : (run bus ops s).scrolling = false)
    (hbus : ∀ m ≥ (run bus ops s).sends, bus m = .ok) {k : ℕ} {all : Bool}
    (hk : all = true ∧ 0 < k ∨ all = false ∧ cfg.blockCount ≤ k * cfg.updateLimit) :
    ((oledRenderDirty bus all)^[k] (run bus ops s)).buffer = (run bus ops s).buffer ∧
      ∀ x < matrixSize cfg,
        Shows cfg ((oledRenderDirty bus all)^[k] (run bus ops s)).screen (run bus ops s).buffer
          x := by
  refine ⟨(iterate_renders bus k all _).buffer_eq, fun x hx => ?_⟩
  refine iterate_shows bus k all hs hinit hscroll hx ?_
  have hb := (div_lt_blockCount_iff cfg).2 hx
  rcases hk with ⟨rfl, hpos⟩ | ⟨rfl, hle⟩
  · obtain ⟨k, rfl⟩ := Nat.exists_eq_succ_of_ne_zero hpos.ne'
    have hrenders := iterate_renders bus k true (run bus ops s)
    rw [Function.iterate_succ_apply', getLsbD_oledRenderDirty bus true
      (hrenders.initialized_eq.trans hinit) (hrenders.scrolling_eq.trans hscroll)
      (fun m hm => hbus m (hrenders.sends_le.trans hm)) hb]
    simp
  · have hfew : marksBelow (run bus ops s).dirty (x / cfg.blockSize) < k * cfg.updateLimit :=
      (Nat.count_le _).trans_lt (hb.trans_le hle)
    rw [(getLsbD_iterate bus k hinit hscroll hbus).2 _ hb, decide_eq_false (Nat.not_le.2 hfew),
      Bool.and_false]

theorem display_catches_up_narrow :
    ((oledRenderDirty (fun _ => .ok) true)^[1] narrow.drawn).buffer = narrow.drawn.buffer ∧
      ∀ x < matrixSize narrow,
        Shows narrow ((oledRenderDirty (fun _ => .ok) true)^[1] narrow.drawn).screen
          narrow.drawn.buffer x :=
  display_catches_up _ rfl (by decide) (by decide) (fun _ _ => rfl) (.inl ⟨rfl, by decide⟩)

/-- Rounds with some drawing before each. -/
def rounds (draws : List (List Draw)) (s : State cfg) : State cfg :=
  draws.foldl (fun s ds => oledRenderDirty bus false (ds.foldl (fun s d => d.apply s) s)) s

theorem draws_waits (ds : List Draw) {b : ℕ} (hb : b < cfg.blockCount)
    (hmark : s.dirty.getLsbD b = true) : Waits b s (ds.foldl (fun s d => d.apply s) s) := by
  have hdraws := Draws.foldl (fun s d => Draw.apply_draws d s) ds s
  refine ⟨?_, fun _ _ _ _ => by rw [hdraws.screen_eq]⟩
  have hblock : cfg.blockSize * b / cfg.blockSize = b := Nat.mul_div_cancel_left _ cfg.blockSize_pos
  by_contra hclear
  have h := (hdraws.unmarked _ (mul_lt_matrixSize cfg hb) (by rw [hblock]; simpa using hclear)).1
  rw [hblock, hmark] at h
  cases h

/-- A block is not sent as long as enough others before it are drawn again for each round, even on
a bus that works. -/
theorem block_waits (draws : List (List Draw)) {b : ℕ} (hb : b < cfg.blockCount)
    (hmark : s.dirty.getLsbD b = true)
    (hbusy : ∀ before ds after, draws = before ++ ds :: after → cfg.updateLimit ≤
      marksBelow (ds.foldl (fun s d => d.apply s) (rounds bus before s)).dirty b) :
    (rounds bus draws s).dirty.getLsbD b = true ∧
      ∀ x i, i < 8 → x / cfg.blockSize = b →
        (rounds bus draws s).screen (cell cfg x i).1 (cell cfg x i).2 =
          s.screen (cell cfg x i).1 (cell cfg x i).2 := by
  suffices h : Waits b s (rounds bus draws s) from ⟨h.marked, h.screen_eq⟩
  induction draws generalizing s with
  | nil => exact ⟨hmark, fun _ _ _ _ => rfl⟩
  | cons ds draws ih =>
    have hdrawn := draws_waits ds hb hmark
    have hround := hdrawn.trans
      (oledRenderDirty_waits bus hb hdrawn.marked (hbusy [] ds draws rfl))
    exact hround.trans (ih hround.marked fun before ds' after h =>
      hbusy (ds :: before) ds' after (by rw [h]; rfl))

theorem block_waits_narrow :
    (rounds (fun _ => .ok) [[.writePixel 0 0 true], [.writePixel 0 0 false]]
        narrow.drawn).dirty.getLsbD 5 = true ∧
      ∀ x i, i < 8 → x / narrow.blockSize = 5 →
        (rounds (fun _ => .ok) [[.writePixel 0 0 true], [.writePixel 0 0 false]]
          narrow.drawn).screen (cell narrow x i).1 (cell narrow x i).2 =
          narrow.drawn.screen (cell narrow x i).1 (cell narrow x i).2 := by
  refine block_waits (fun _ => .ok) _ (by decide) (by decide) fun before ds after h => ?_
  match before, h with
  | [], h =>
    obtain ⟨rfl, -⟩ := List.cons.inj h
    decide
  | [_], h =>
    obtain ⟨rfl, htail⟩ := List.cons.inj h
    obtain ⟨rfl, -⟩ := List.cons.inj htail
    decide
  | _ :: _ :: _, h => simp at h

end Results

end Qmk.Oled
