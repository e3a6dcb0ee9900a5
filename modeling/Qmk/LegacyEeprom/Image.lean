import Qmk.LegacyEeprom.Entries

/-! # Flash images

A flash image is a compacted area and a log of entries, each of which overrides a
half-word of the compacted area that is programmed. The last condition is what
makes direct programming sound: a half-word that is still erased has no entry in
the log, so nothing is replayed over it.
-/

namespace Qmk.LegacyEeprom

variable {cfg : Config}

theorem Config.two_mul_words (cfg : Config) : 2 * cfg.words = cfg.densityBytes := by
  have h := cfg.density_even
  simp only [words]
  omega

theorem Config.half_lt_words (cfg : Config) {x : ℕ} : x / 2 < cfg.words ↔ x < cfg.densityBytes := by
  have h := cfg.two_mul_words
  omega

section Load

/-- The byte at address `x` of the compacted area. -/
def compactedByte (f : Flash) (x : ℕ) : BitVec 8 :=
  if x % 2 = 0 then (~~~f (x / 2)).setWidth 8 else (~~~f (x / 2) >>> 8).setWidth 8

theorem foldl_load (f : Flash) (buf : Mem (BitVec 8)) (n x : ℕ) :
    (List.range n).foldl (fun b i => storeHalfWord b (2 * i) (~~~f i)) buf x =
      if x / 2 < n then compactedByte f x else buf x := by
  induction n with
  | zero => simp
  | succ n ih =>
    rw [List.range_succ, List.foldl_append, List.foldl_cons, List.foldl_nil]
    rcases eq_or_ne (x / 2) n with rfl | hx
    · rw [if_pos (Nat.lt_succ_self _), compactedByte]
      rcases Nat.mod_two_eq_zero_or_one x with h0 | h1
      · rw [if_pos h0, show x = 2 * (x / 2) by omega]
        rw [show 2 * (x / 2) / 2 = x / 2 by omega, storeHalfWord_low]
      · rw [if_neg (by omega), show x = 2 * (x / 2) + 1 by omega]
        rw [show (2 * (x / 2) + 1) / 2 = x / 2 by omega, storeHalfWord_high]
    · rw [storeHalfWord_of_ne _ _ _ (by omega) (by omega), ih]
      split_ifs
      · rfl
      · omega
      · omega
      · rfl

theorem loadCompacted_of_lt (f : Flash) (buf : Mem (BitVec 8)) {x : ℕ} (h : x < cfg.densityBytes) :
    loadCompacted cfg f buf x = compactedByte f x :=
  (foldl_load f buf cfg.words x).trans (if_pos (cfg.half_lt_words.mpr h))

theorem loadCompacted_of_ge (f : Flash) (buf : Mem (BitVec 8)) {x : ℕ} (h : cfg.densityBytes ≤ x) :
    loadCompacted cfg f buf x = buf x :=
  (foldl_load f buf cfg.words x).trans
    (if_neg (mt cfg.half_lt_words.mp (Nat.not_lt.mpr h)))

/-- The compacted area holds the buffer when every half-word is the complement. -/
theorem compactedByte_of_eq {f : Flash} {buf : Mem (BitVec 8)} {x : ℕ}
    (h : f (x / 2) = ~~~halfWord buf (2 * (x / 2))) : compactedByte f x = buf x := by
  rw [compactedByte, h, BitVec.not_not, halfWord]
  rcases Nat.mod_two_eq_zero_or_one x with h0 | h1
  · rw [if_pos h0, bytes_setWidth]
    congr 1
    omega
  · rw [if_neg (by omega), bytes_shift_setWidth]
    congr 1
    omega

theorem compactedByte_of_empty {f : Flash} {x : ℕ} (h : f (x / 2) = feeEmptyWord) :
    compactedByte f x = 0 := by
  rw [compactedByte, h]
  split_ifs
  · rfl
  · rfl

end Load

section Replay

def used (es : List Entry) : ℕ := (es.flatMap Entry.slots).length

@[simp] theorem used_append (es : List Entry) (e : Entry) :
    used (es ++ [e]) = used es + e.slots.length := by
  simp [used]

def replayed (es : List Entry) (buf : Mem (BitVec 8)) : Mem (BitVec 8) := es.foldl Entry.apply buf

@[simp] theorem replayed_append (es : List Entry) (e : Entry) (buf : Mem (BitVec 8)) :
    replayed (es ++ [e]) buf = e.apply (replayed es buf) := by
  simp [replayed]

theorem replayed_congr {buf buf' : Mem (BitVec 8)} {x : ℕ} (es : List Entry)
    (h : buf x = buf' x) : replayed es buf x = replayed es buf' x := by
  induction es generalizing buf buf' with
  | nil => exact h
  | cons e es ih => exact ih (e.apply_congr h)

theorem replayed_of_word_ne {es : List Entry} (hw : ∀ e ∈ es, e.Wf cfg) (buf : Mem (BitVec 8))
    {x : ℕ} (h : ∀ e ∈ es, e.word ≠ some (x / 2)) : replayed es buf x = buf x := by
  induction es generalizing buf with
  | nil => rfl
  | cons e es ih =>
    have he : e.apply buf x = buf x :=
      Entry.apply_of_word_ne (hw e List.mem_cons_self) buf (h e List.mem_cons_self)
    refine (ih (fun d hd => hw d (List.mem_cons_of_mem _ hd)) _
      fun d hd => h d (List.mem_cons_of_mem _ hd)).trans he

theorem replayLog_slots {es : List Entry} (hw : ∀ e ∈ es, e.Wf cfg) (n k : ℕ)
    (buf : Mem (BitVec 8)) :
    replayLog cfg (es.flatMap Entry.slots ++ List.replicate n feeEmptyWord) k buf =
      (k + used es, replayed es buf) := by
  induction es generalizing k buf with
  | nil =>
    cases n with
    | zero => rfl
    | succ n =>
      rw [List.flatMap_nil, List.nil_append, List.replicate_succ, replayLog.eq_def]
      simp only [if_pos]
      rfl
  | cons e es ih =>
    rw [List.flatMap_cons, List.append_assoc, Entry.replay_slots (hw e List.mem_cons_self),
      ih fun d hd => hw d (List.mem_cons_of_mem _ hd)]
    refine Prod.ext ?_ rfl
    simp only [used, List.flatMap_cons, List.length_append]
    omega

end Replay

/-- The flash holds the entries `es` in its log, and nothing after them. -/
structure Image (cfg : Config) (f : Flash) (es : List Entry) : Prop where
  wf : ∀ e ∈ es, e.Wf cfg
  fits : used es ≤ cfg.slots
  log : f.read cfg.words (used es) = es.flatMap Entry.slots
  free : ∀ j, used es ≤ j → j < cfg.slots → f (cfg.words + j) = feeEmptyWord
  programmed : ∀ e ∈ es, ∀ i, e.word = some i → f i ≠ feeEmptyWord

theorem Entry.Wf.word_lt {e : Entry} (h : e.Wf cfg) {i : ℕ} (hi : e.word = some i) :
    i < cfg.words := by
  have hr := cfg.byteRange_le
  have hb : feeByteRange = 128 := rfl
  cases e with
  | byte a v =>
    cases hi
    exact cfg.half_lt_words.mpr (by simp only [Entry.Wf] at h; omega)
  | short a one =>
    cases hi
    exact cfg.half_lt_words.mpr h.2
  | next a w =>
    cases hi
    exact cfg.half_lt_words.mpr h.2.2.1
  | torn a => cases hi

namespace Image

variable {f : Flash} {es : List Entry}

theorem read_log (h : Image cfg f es) : f.read cfg.words cfg.slots =
    es.flatMap Entry.slots ++ List.replicate (cfg.slots - used es) feeEmptyWord := by
  have hfree : f.read (cfg.words + used es) (cfg.slots - used es) =
      List.replicate (cfg.slots - used es) feeEmptyWord := by
    apply List.ext_getElem
    · simp
    · intro j hj hj'
      rw [Mem.getElem_read, List.getElem_replicate, Nat.add_assoc]
      rw [Mem.length_read] at hj
      exact h.free _ (by omega) (by omega)
  have hs : cfg.slots = used es + (cfg.slots - used es) := by
    have := h.fits
    omega
  rw [hs, Mem.read_append, h.log, ← hs, hfree]

theorem nil (h : ∀ j < cfg.slots, f (cfg.words + j) = feeEmptyWord) : Image cfg f [] where
  wf := by simp
  fits := Nat.zero_le _
  log := rfl
  free := fun j _ hj => h j hj
  programmed := by simp

/-- Programming a half-word of the compacted area that is still erased. -/
theorem direct (h : Image cfg f es) {i : ℕ} (hi : i < cfg.words) (he : f i = feeEmptyWord)
    (v : BitVec 16) : Image cfg (f.write i [v]) es where
  wf := h.wf
  fits := h.fits
  log := by
    rw [Mem.read_write_disjoint _ (Or.inr (by change i + 1 ≤ _; omega))]
    exact h.log
  free := by
    intro j hj hs
    rw [Mem.write_of_ge _ _ (by change i + 1 ≤ _; omega)]
    exact h.free j hj hs
  programmed := by
    intro e hm j hj
    have hne : j ≠ i := by
      rintro rfl
      exact h.programmed e hm j hj he
    rcases Nat.lt_or_gt_of_ne hne with hlt | hgt
    · rw [Mem.write_of_lt _ _ hlt]
      exact h.programmed e hm j hj
    · rw [Mem.write_of_ge _ _ (by change i + 1 ≤ _; omega)]
      exact h.programmed e hm j hj

theorem append (h : Image cfg f es) {e : Entry} (hw : e.Wf cfg)
    (hs : used es + e.slots.length ≤ cfg.slots)
    (hp : ∀ i, e.word = some i → f i ≠ feeEmptyWord) :
    Image cfg (f.write (cfg.words + used es) e.slots) (es ++ [e]) where
  wf := by
    intro d hd
    rcases List.mem_append.mp hd with hd | hd
    · exact h.wf d hd
    · rw [List.mem_singleton.mp hd]
      exact hw
  fits := by
    rw [used_append]
    exact hs
  log := by
    rw [used_append, Mem.read_append, Mem.read_write, Mem.read_write_disjoint _ (Or.inl le_rfl),
      h.log]
    simp
  free := by
    intro j hj hjs
    rw [used_append] at hj
    rw [Mem.write_of_ge _ _ (by omega)]
    exact h.free j (by omega) hjs
  programmed := by
    intro d hd i hi
    rcases List.mem_append.mp hd with hd | hd
    · rw [Mem.write_of_lt _ _ (by have := (h.wf d hd).word_lt hi; omega)]
      exact h.programmed d hd i hi
    · rw [List.mem_singleton.mp hd] at hi
      rw [Mem.write_of_lt _ _ (by have := hw.word_lt hi; omega)]
      exact hp i hi

end Image

/-- The flash holds the buffer `buf` in a log of `k` slots. -/
def Holds (cfg : Config) (f : Flash) (k : ℕ) (buf : Mem (BitVec 8)) : Prop :=
  ∃ es, Image cfg f es ∧ used es = k ∧
    ∀ x < cfg.densityBytes, replayed es (compactedByte f) x = buf x

namespace Holds

variable {f : Flash} {k : ℕ} {buf : Mem (BitVec 8)}

theorem slot_le (h : Holds cfg f k buf) : k ≤ cfg.slots := by
  obtain ⟨es, hi, rfl, -⟩ := h
  exact hi.fits

theorem free (h : Holds cfg f k buf) {j : ℕ} (hk : k ≤ j) (hj : j < cfg.slots) :
    f (cfg.words + j) = feeEmptyWord := by
  obtain ⟨es, hi, rfl, -⟩ := h
  exact hi.free j hk hj

theorem congr (h : Holds cfg f k buf) {buf' : Mem (BitVec 8)}
    (hb : ∀ x < cfg.densityBytes, buf x = buf' x) : Holds cfg f k buf' := by
  obtain ⟨es, hi, hu, hc⟩ := h
  exact ⟨es, hi, hu, fun x hx => (hc x hx).trans (hb x hx)⟩

theorem init (h : Holds cfg f k buf) {s : State} (hs : s.flash = f) :
    (eepromInit cfg s).emptySlot = k ∧
    (∀ x < cfg.densityBytes, (eepromInit cfg s).dataBuf x = buf x) ∧
    ∀ x, cfg.densityBytes ≤ x → (eepromInit cfg s).dataBuf x = s.dataBuf x := by
  obtain ⟨es, hi, rfl, hc⟩ := h
  subst hs
  have hr := replayLog_slots hi.wf (cfg.slots - used es) 0 (loadCompacted cfg s.flash s.dataBuf)
  simp only [eepromInit, hi.read_log, hr]
  refine ⟨Nat.zero_add _, ?_, ?_⟩
  · intro x hx
    rw [← hc x hx]
    exact replayed_congr es (loadCompacted_of_lt _ _ hx)
  · intro x hx
    have hne : ∀ e ∈ es, e.word ≠ some (x / 2) := by
      intro e he hw
      have := cfg.half_lt_words.mp ((hi.wf e he).word_lt hw)
      omega
    rw [replayed_of_word_ne hi.wf _ hne]
    exact loadCompacted_of_ge _ _ hx

/-- A half-word that is still erased stands for zero, also after the log. -/
theorem eq_zero_of_empty (h : Holds cfg f k buf) {x : ℕ} (hx : x < cfg.densityBytes)
    (he : f (x / 2) = feeEmptyWord) : buf x = 0 := by
  obtain ⟨es, hi, -, hc⟩ := h
  rw [← hc x hx, replayed_of_word_ne hi.wf _ fun e hm hw => hi.programmed e hm _ hw he]
  exact compactedByte_of_empty he

theorem compacted (hlog : ∀ j < cfg.slots, f (cfg.words + j) = feeEmptyWord)
    (hc : ∀ i < cfg.words, f i = ~~~halfWord buf (2 * i)) : Holds cfg f 0 buf := by
  refine ⟨[], .nil hlog, rfl, ?_⟩
  intro x hx
  exact compactedByte_of_eq (hc _ (cfg.half_lt_words.mpr hx))

theorem erased (h : ∀ i < cfg.words + cfg.slots, f i = feeEmptyWord) :
    Holds cfg f 0 fun _ => 0 := by
  refine .compacted (fun j hj => h _ (by omega)) ?_
  intro i hi
  rw [h i (by omega)]
  exact (not_eq_empty.mpr (bytes_eq_zero.mpr ⟨rfl, rfl⟩)).symm

/-- Programming an erased half-word with the complement of its new contents. -/
theorem direct (h : Holds cfg f k buf) {i : ℕ} (hi : i < cfg.words) (he : f i = feeEmptyWord)
    {buf' : Mem (BitVec 8)} (hb : ∀ x, x / 2 ≠ i → buf' x = buf x) :
    Holds cfg (f.write i [~~~halfWord buf' (2 * i)]) k buf' := by
  obtain ⟨es, him, hu, hc⟩ := h
  refine ⟨es, him.direct hi he _, hu, ?_⟩
  intro x hx
  rcases eq_or_ne (x / 2) i with rfl | hne
  · rw [replayed_of_word_ne him.wf _ fun e hm hw => him.programmed e hm _ hw he]
    exact compactedByte_of_eq (Mem.write_add f (i := 0) (by simp))
  · have hf : f.write i [~~~halfWord buf' (2 * i)] (x / 2) = f (x / 2) := by
      rcases Nat.lt_or_gt_of_ne hne with hlt | hgt
      · exact Mem.write_of_lt _ _ hlt
      · exact Mem.write_of_ge _ _ (by change i + 1 ≤ _; omega)
    rw [hb x hne, ← hc x hx]
    apply replayed_congr
    simp only [compactedByte, hf]

theorem append (h : Holds cfg f k buf) {e : Entry} (hw : e.Wf cfg)
    (hs : k + e.slots.length ≤ cfg.slots) (hp : ∀ i, e.word = some i → f i ≠ feeEmptyWord) :
    Holds cfg (f.write (cfg.words + k) e.slots) (k + e.slots.length) (e.apply buf) := by
  obtain ⟨es, hi, rfl, hc⟩ := h
  refine ⟨es ++ [e], hi.append hw hs hp, used_append es e, ?_⟩
  intro x hx
  rw [replayed_append]
  apply e.apply_congr
  rw [← hc x hx]
  apply replayed_congr
  have hf : f.write (cfg.words + used es) e.slots (x / 2) = f (x / 2) := by
    have := cfg.half_lt_words.mpr hx
    exact Mem.write_of_lt _ _ (by omega)
  simp only [compactedByte, hf]

end Holds

end Qmk.LegacyEeprom
