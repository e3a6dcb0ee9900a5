import Qmk.Combos.Fates

/-! # Combos and the keys that are down

The bits of a combo that is not active are those of the presses in the key buffer,
and the bits of an active one are those of the presses it has consumed. A flush
keeps this, and so does the loop over the table on the release of a key.
-/

namespace Qmk.Combos

variable {cfg : Config} {α : Type*}

section Invariant

abbrev Held (α : Type*) := List (α × ℕ)

def Record.entry (r : Record α) : α × ℕ := (r.key, r.keycode)

def InTable (cfg : Config) (keycode : ℕ) : Prop := ∃ c ∈ cfg.table, keycode ∈ c.keys

instance (keycode : ℕ) : Decidable (InTable cfg keycode) :=
  inferInstanceAs (Decidable (∃ c ∈ cfg.table, keycode ∈ c.keys))

theorem inTable_of_findKeyIndex {j c i : ℕ} (hj : j < cfg.table.length) (hc : c ≠ 0)
    (h : findKeyIndex (cfg.combo j).keys c = some i) : InTable cfg c := by
  have hcombo : cfg.combo j = cfg.table[j] := List.getD_eq_getElem _ _ hj
  refine ⟨cfg.table[j], List.getElem_mem hj, ?_⟩
  rw [← hcombo]
  exact mem_of_findKeyIndex hc h

/-- The keys that are down differ, and so do their keycodes as far as the table has them. -/
structure HeldOk (cfg : Config) (h : Held α) : Prop where
  coded : ∀ p ∈ h, p.2 ≠ 0
  keys : ∀ p ∈ h, ∀ p' ∈ h, p.1 = p'.1 → p = p'
  codes : ∀ p ∈ h, ∀ p' ∈ h, p.2 = p'.2 → InTable cfg p.2 → p = p'

/-- Two keys that are down and have the same place in a combo are the same. -/
theorem HeldOk.eq_of_index {h : Held α} (hh : HeldOk cfg h) {p p' : α × ℕ} (hp : p ∈ h)
    (hp' : p' ∈ h) {j i : ℕ} (hj : j < cfg.table.length)
    (hi : findKeyIndex (cfg.combo j).keys p.2 = some i)
    (hi' : findKeyIndex (cfg.combo j).keys p'.2 = some i) : p = p' :=
  hh.codes p hp p' hp' (findKeyIndex_inj (hh.coded p hp) (hh.coded p' hp') hi hi')
    (inTable_of_findKeyIndex hj (hh.coded p hp) hi)

/-- The bit of a key of combo `j`. -/
def Bit (s : State cfg α) (j i : ℕ) : Prop := (s.combos j).state.getLsbD i = true

/-- The bits of combo `j` are those of the presses in `buf` whose keys are down. Of a combo that
is disabled some may be missing. -/
structure Mirrors (s : State cfg α) (h : Held α) (buf : List (QueuedRecord α)) (j : ℕ) : Prop where
  bits : (s.combos j).active = false → ∀ i, Bit s j i → ∃ q ∈ buf, q.record.entry ∈ h ∧
    findKeyIndex (cfg.combo j).keys q.record.keycode = some i
  covered : (s.combos j).disabled = false → ∀ q ∈ buf, q.record.entry ∈ h → ∀ i,
    findKeyIndex (cfg.combo j).keys q.record.keycode = some i → i < cfg.stateBits → Bit s j i

/-- What holds of the waiting combos and of the active ones, which have the bits of the presses
that they have consumed. -/
structure Sound (s : State cfg α) (h : Held α) (f : α → Fate) : Prop where
  nodup : s.comboBuffer.Nodup
  ring : ∀ j ∈ s.comboBuffer, j < cfg.table.length ∧ (cfg.combo j).keys ≠ []
  off : s.enabled = false → s.comboBuffer = []
  active : ∀ j, (s.combos j).active = true → (s.combos j).disabled = true
  consumed : ∀ j < cfg.table.length, (s.combos j).active = true → ∀ i, Bit s j i →
    ∃ p ∈ h, findKeyIndex (cfg.combo j).keys p.2 = some i ∧ (f p.1).consumed = true
  active_of : ∀ p ∈ h, (f p.1).consumed = true → ∃ j < cfg.table.length,
    (s.combos j).active = true ∧ ∃ i, findKeyIndex (cfg.combo j).keys p.2 = some i ∧ Bit s j i
  once : ∀ k, (f k).consumed = true → (f k).through = false

/-- The presses in the key buffer: nothing has become of them yet, and they differ in their
keycodes and keys. -/
structure Buffered (h : Held α) (f : α → Fate) (buf : List (QueuedRecord α)) : Prop where
  coded : Coded buf
  codes : (buf.map fun q => q.record.keycode).Nodup
  pending : ∀ q ∈ buf, f q.record.key = ⟨false, false⟩
  matched : ∀ q ∈ buf, ∀ p ∈ h, p.1 = q.record.key → p = q.record.entry
  same : ∀ q ∈ buf, ∀ q' ∈ buf, q.record.key = q'.record.key →
    q.record.keycode = q'.record.keycode

/-- What a flush needs to know of the presses `buf` it finds and of the keys `h` that stay down. -/
structure Ready (s : State cfg α) (h : Held α) (f : α → Fate) (buf : List (QueuedRecord α)) :
    Prop where
  heldOk : HeldOk cfg h
  sound : Sound s h f
  buffered : Buffered h f buf
  mirrors : ∀ j < cfg.table.length, Mirrors s h buf j

/-- A combo that the presses cover is waiting, unless it is disabled. -/
def Waits (s : State cfg α) (buf : List (QueuedRecord α)) (j : ℕ) : Prop :=
  (s.combos j).disabled = false → (cfg.combo j).keys ≠ [] →
    Covers (cfg.combo j).keys cfg.stateBits buf → j ∈ s.comboBuffer

/-- Between calls: the presses in the key buffer are of keys that are down, and the combos that
they cover are waiting. -/
structure Tracked (s : State cfg α) (h : Held α) (f : α → Fate) (buf : List (QueuedRecord α)) :
    Prop extends Ready s h f buf where
  held : ∀ q ∈ buf, q.record.entry ∈ h
  waiting : ∀ j < cfg.table.length, Waits s buf j
  empty : s.enabled = false → buf = []

variable {s t : State cfg α} {h : Held α} {f : α → Fate} {buf : List (QueuedRecord α)}

theorem Sound.inactive (hs : Sound s h f) {j : ℕ} (hd : (s.combos j).disabled = false) :
    (s.combos j).active = false := by
  rw [Bool.eq_false_iff]
  intro ha
  rw [hs.active j ha] at hd
  cases hd

/-- All bits are set exactly when the presses cover the combo. -/
theorem Mirrors.full_iff {j : ℕ} (hm : Mirrors s h buf j) (hc : Coded buf)
    (hheld : ∀ q ∈ buf, q.record.entry ∈ h) (hd : (s.combos j).disabled = false)
    (ha : (s.combos j).active = false) :
    allComboKeysAreDown (s.combos j).state (cfg.combo j).keys.length ↔
      Covers (cfg.combo j).keys cfg.stateBits buf := by
  rw [allComboKeysAreDown_iff]
  constructor
  · rintro ⟨hw, hall⟩
    refine ⟨hw, fun i hi => ?_⟩
    obtain ⟨q, hq, -, hqi⟩ := hm.bits ha i ((hall i).mpr hi)
    exact ⟨q, hq, hqi⟩
  · rintro ⟨hw, hall⟩
    refine ⟨hw, fun i => ⟨fun hi => ?_, fun hi => ?_⟩⟩
    · obtain ⟨q, hq, -, hqi⟩ := hm.bits ha i hi
      exact findKeyIndex_lt (hc q hq) hqi
    · obtain ⟨q, hq, hqi⟩ := hall i hi
      exact hm.covered hd q hq (hheld q hq) i hqi (by omega)

/-- The states of the combos, the combo buffer and the switch are all that counts. -/
theorem Tracked.congr (ht : Tracked s h f buf) (hc : t.combos = s.combos)
    (hb : t.comboBuffer = s.comboBuffer) (he : t.enabled = s.enabled) : Tracked t h f buf := by
  obtain ⟨⟨h1, ⟨h2, h3, h4, h5, h6, h7, h8⟩, h9, h10⟩, h11, h12, h13⟩ := ht
  refine ⟨⟨h1, ⟨?_, ?_, ?_, ?_, ?_, ?_, h8⟩, h9, fun j hj => ⟨?_, ?_⟩⟩, h11, ?_, ?_⟩
  · rwa [hb]
  · rwa [hb]
  · rwa [hb, he]
  · rwa [hc]
  · simpa only [Bit, hc] using h6
  · simpa only [Bit, hc] using h7
  · simpa only [Bit, hc] using (h10 j hj).bits
  · simpa only [Bit, hc] using (h10 j hj).covered
  · simpa only [Waits, hc, hb] using h12
  · rwa [he]

end Invariant

section Flush

variable [DecidableEq α] {s : State cfg α} {h : Held α} {f : α → Fate}

structure Settled (s t : State cfg α) (h : Held α) (f : α → Fate) : Prop where
  keyBuffer : t.keyBuffer = []
  trace : ∃ es, t.trace = s.trace ++ es ∧ (∀ e ∈ es, e.NoAnswer) ∧
    Tracked t h ((fateRules α).after f es) [] ∧
    ∀ k, ((fateRules α).after f es k).consumed = true ↔ (f k).consumed = true ∨
      ∃ j ∈ s.comboBuffer, Fires s j ∧ HasPress s j k

omit [DecidableEq α] in
theorem dumpRecord_noAnswer (cfg : Config) (buf : List (QueuedRecord α)) :
    ∀ e ∈ buf.flatMap (dumpRecord cfg), e.NoAnswer := by
  intro e he
  obtain ⟨q, -, hq⟩ := List.mem_flatMap.mp he
  rcases hk : q.kind with _ | _ | idx <;> simp only [dumpRecord, hk] at hq
  · rw [List.mem_singleton.mp hq]
    trivial
  · cases hq
  · rw [List.mem_singleton.mp hq]
    trivial

theorem Ready.once_dump (hr : Ready s h f s.keyBuffer) {u : State cfg α} {es : List (Effect α)}
    (ha : Applied s u s.comboBuffer)
    (hes : ∀ k, ((fateRules α).after f es k).through = (f k).through ∧
      (((fateRules α).after f es k).consumed = true ↔ (f k).consumed = true ∨
        ∃ l ∈ s.comboBuffer, Fires s l ∧ HasPress s l k)) (k : α)
    (hc : ((fateRules α).after f (es ++ u.keyBuffer.flatMap (dumpRecord cfg)) k).consumed = true) :
    ((fateRules α).after f (es ++ u.keyBuffer.flatMap (dumpRecord cfg)) k).through = false := by
  rw [Monitor.after_append] at hc ⊢
  obtain ⟨hdump, hthrough⟩ := after_dump cfg u.keyBuffer ((fateRules α).after f es) k
  rw [hdump] at hc
  rw [Bool.eq_false_iff]
  intro ht
  obtain ⟨hsame, hcons⟩ := hes k
  rw [hsame] at hthrough
  rcases hcons.mp hc with hold | ⟨l, hl, hf, q, hq, rfl, i, hi⟩
  · -- the press has left the key buffer before
    rcases hthrough ht with hthr | ⟨q, hq, hkind, rfl⟩
    · rw [hr.sound.once k hold] at hthr
      cases hthr
    · rw [hr.buffered.pending q (ha.key q hq hkind).1] at hold
      cases hold
  · rcases hthrough ht with hthr | ⟨q', hq', hkind, hkey⟩
    · rw [hr.buffered.pending q hq] at hthr
      cases hthr
    · obtain ⟨hmem, hnone⟩ := ha.key q' hq' hkind
      rw [← hr.buffered.same q' hmem q hq hkey, hnone l hl hf] at hi
      cases hi

/-- After the waiting combos have been applied, the key buffer is dumped and the combos that are
not active are cleared. -/
theorem Ready.settle (hr : Ready s h f s.keyBuffer) {u t : State cfg α}
    (ha : Applied s u s.comboBuffer) (hk : t.keyBuffer = [])
    (ht : t.trace = u.trace ++ u.keyBuffer.flatMap (dumpRecord cfg))
    (hb : t.comboBuffer = u.comboBuffer) (he : t.enabled = u.enabled)
    (hc : t.combos = (clearCombos u).combos) : Settled s t h f := by
  obtain ⟨es, hes, hno, hfate⟩ := ha.trace
  have hclear : ∀ j < cfg.table.length, (u.combos j).active = false →
      t.combos j = { u.combos j with disabled := false, state := 0 } := by
    intro j hj hact
    rw [hc]
    exact if_pos ⟨hj, hact⟩
  have hkeep : ∀ j, (u.combos j).active = true → t.combos j = u.combos j := by
    intro j hact
    rw [hc]
    exact if_neg fun h => by simp [hact] at h
  have hactive : ∀ j, (t.combos j).active = (u.combos j).active := by
    intro j
    rw [hc, clearCombos]
    dsimp only
    split_ifs <;> rfl
  have hring : t.comboBuffer.Sublist s.comboBuffer := hb ▸ ha.comboBuffer
  -- the fates after the combos and the dump
  have hcons : ∀ k, ((fateRules α).after f (es ++ u.keyBuffer.flatMap (dumpRecord cfg)) k).consumed
      = true ↔ (f k).consumed = true ∨ ∃ j ∈ s.comboBuffer, Fires s j ∧ HasPress s j k := by
    intro k
    rw [Monitor.after_append, (after_dump cfg u.keyBuffer _ k).1]
    exact (hfate f k).2
  refine ⟨hk, es ++ u.keyBuffer.flatMap (dumpRecord cfg), ?_, ?_, ⟨⟨hr.heldOk,
    ⟨?_, ?_, ?_, ?_, ?_, ?_, hr.once_dump ha (hfate f)⟩, ?_, fun j hj => ⟨?_, ?_⟩⟩, ?_, ?_, ?_⟩,
    hcons⟩
  · rw [ht, hes, List.append_assoc]
  · intro e hm
    rcases List.mem_append.mp hm with hm | hm
    · exact hno e hm
    · exact dumpRecord_noAnswer cfg _ e hm
  · exact hr.sound.nodup.sublist hring
  · exact fun j hj => hr.sound.ring j (hring.subset hj)
  · intro hoff
    rw [he, ha.enabled] at hoff
    refine List.eq_nil_of_subset_nil ?_
    rw [← hr.sound.off hoff]
    exact hring.subset
  · intro j hj
    rw [hactive] at hj
    rw [hkeep j hj, ha.disabled]
    rcases (ha.active j).mp hj with hj | ⟨hj, -⟩
    · exact Or.inl (hr.sound.active j hj)
    · exact Or.inr hj
  · -- the bits of an active combo
    intro j hj hact i hi
    rw [hactive] at hact
    rw [Bit, hkeep j hact, ha.state] at hi
    cases hold : (s.combos j).active with
    | true =>
      obtain ⟨p, hp, hpi, hpc⟩ := hr.sound.consumed j hj hold i hi
      exact ⟨p, hp, hpi, (hcons p.1).mpr (Or.inl hpc)⟩
    | false =>
      obtain ⟨q, hq, hqh, hqi⟩ := (hr.mirrors j hj).bits hold i hi
      have hf := ((ha.active j).mp hact).resolve_left (by simp [hold])
      exact ⟨_, hqh, hqi, (hcons _).mpr (Or.inr ⟨j, hf.1, hf.2, q, hq, rfl, i, hqi⟩)⟩
  · -- a consumed press has its bit
    intro p hp hpc
    rcases (hcons p.1).mp hpc with hpc | ⟨j, hj, hf, q, hq, hqk, i, hqi⟩
    · obtain ⟨j, hj, hact, i, hpi, hbit⟩ := hr.sound.active_of p hp hpc
      have hu := (ha.active j).mpr (Or.inl hact)
      refine ⟨j, hj, (hactive j).trans hu, i, hpi, ?_⟩
      rw [Bit, hkeep j hu, ha.state]
      exact hbit
    · have hu := (ha.active j).mpr (Or.inr ⟨hj, hf⟩)
      have hjl := (hr.sound.ring j hj).1
      obtain rfl := hr.buffered.matched q hq p hp hqk.symm
      have hlt := findKeyIndex_lt (hr.buffered.coded q hq) hqi
      refine ⟨j, hjl, (hactive j).trans hu, i, hqi, ?_⟩
      rw [Bit, hkeep j hu, ha.state]
      exact (hr.mirrors j hjl).covered hf.1 q hq hp i hqi (Nat.lt_of_lt_of_le hlt hf.2.1)
  · exact ⟨by simp [Coded], by simp, by simp, by simp, by simp⟩
  · intro hact i hi
    rw [hactive] at hact
    rw [Bit, hclear j hj hact] at hi
    simp at hi
  · simp
  · simp
  · intro j hj hd hkeys hcov
    obtain ⟨q, hq, -⟩ := hcov.2 0 (List.length_pos_iff.mpr hkeys)
    cases hq
  · exact fun _ => rfl

theorem Ready.applied (hr : Ready s h f s.keyBuffer) :
    Applied s (s.comboBuffer.foldl (fun s idx => applyCombo idx s) s) s.comboBuffer :=
  applied_foldl hr.sound.nodup (fun _ hl => hl) hr.sound.nodup
    (fun l hl => (hr.sound.ring l hl).2) hr.buffered.coded hr.buffered.codes

theorem Ready.applied_nil (hb : s.comboBuffer = []) : Applied s s s.comboBuffer := by
  rw [hb]
  exact Combos.applied_nil s

theorem Ready.flush (hr : Ready s h f s.keyBuffer) : Settled s (flush s) h f := by
  rw [Combos.flush]
  split_ifs with hb
  · exact hr.settle hr.applied rfl rfl rfl rfl rfl
  · exact hr.settle (applied_nil (not_not.mp hb)) rfl rfl rfl rfl rfl

end Flush

section Release

variable {s t : State cfg α} {h : Held α} {f : α → Fate} {idx i c : ℕ}

/-- What `chordRelease` leaves of the state of its combo. -/
def ComboState.up {w : ℕ} (st : ComboState w) (i : ℕ) : ComboState w where
  state := keyStateUp st.state i
  active := st.active && !(decide (onlyOneKeyIsDown st.state) && keyNotYetReleased st.state i)
  disabled := st.disabled

def lifted (cfg : Config) (c j : ℕ) (st : ComboState cfg.stateBits) : ComboState cfg.stateBits :=
  match findKeyIndex (cfg.combo j).keys c with
  | none => st
  | some i => st.up i

/-- Combo `j` takes the release of a key with the keycode `c` as its own. -/
def Swallows (s : State cfg α) (c j : ℕ) : Prop :=
  ∃ i, findKeyIndex (cfg.combo j).keys c = some i ∧
    ((s.combos j).active = true ∧ Bit s j i ∨
      (s.combos j).active = false ∧ (s.combos j).disabled = false ∧ s.enabled = true ∧
        allComboKeysAreDown (s.combos j).state (cfg.combo j).keys.length)

theorem chordRelease_self (idx i : ℕ) (s : State cfg α) :
    (chordRelease idx i s).2.combos idx = (s.combos idx).up i := by
  rcases hst : s.combos idx with ⟨x, active, disabled⟩
  simp only [chordRelease, hst, ComboState.up]
  split_ifs with hfull hd hone hbit
  · obtain ⟨rfl, -⟩ := hfull
    obtain rfl : disabled = true := hd
    simp only [dropComboFromBuffer]
    split_ifs <;> simp [disableCombo, State.modify, hst]
  · obtain ⟨rfl, -⟩ := hfull
    simp [hst]
  · obtain ⟨rfl, hone, hbit⟩ := hone
    simp [releaseCombo, State.modify, State.emit, hst, hone, hbit]
  · obtain ⟨rfl, hbit⟩ := hbit
    have hone' : ¬ onlyOneKeyIsDown x := fun ho => hone ⟨rfl, ho, hbit⟩
    simp [hst, hone']
  · cases active with
    | false => simp [hst]
    | true =>
      have hbit' : keyNotYetReleased x i = false := by
        rw [Bool.eq_false_iff]
        exact fun hb => hbit ⟨rfl, hb⟩
      simp [hst, hbit']

theorem chordRelease_of_ne {j : ℕ} (hj : j ≠ idx) :
    (chordRelease idx i s).2.combos j = s.combos j := by
  simp only [chordRelease]
  split_ifs
  · rw [modify_of_ne _ hj]
    simp only [dropComboFromBuffer]
    split_ifs
    · exact disableCombo_of_ne s hj
    · exact disableCombo_of_ne s hj
    · rfl
  · exact modify_of_ne _ hj
  · rw [modify_of_ne _ hj]
    change (releaseCombo idx s).combos j = s.combos j
    rw [releaseCombo, modify_of_ne _ hj]
    rfl
  · exact modify_of_ne _ hj
  · exact modify_of_ne _ hj

theorem chordRelease_swallows (hi : findKeyIndex (cfg.combo idx).keys c = some i) :
    (chordRelease idx i s).1 = true ↔ Swallows s c idx := by
  have hiff : Swallows s c idx ↔ ((s.combos idx).active = true ∧ Bit s idx i ∨
      (s.combos idx).active = false ∧ (s.combos idx).disabled = false ∧ s.enabled = true ∧
        allComboKeysAreDown (s.combos idx).state (cfg.combo idx).keys.length) := by
    rw [Swallows]
    constructor
    · rintro ⟨i', hi', h⟩
      rw [hi] at hi'
      cases hi'
      exact h
    · exact fun h => ⟨i, hi, h⟩
  rw [hiff]
  simp only [chordRelease]
  split_ifs with hfull hd hone hbit
  · simp [hd, hfull.1]
  · simp [hd, hfull.1, hfull.2]
  · exact iff_of_true rfl (Or.inl ⟨hone.1, hone.2.2⟩)
  · exact iff_of_true rfl (Or.inl hbit)
  · simp only [false_iff]
    rintro (hact | ⟨hact, -, -, hall⟩)
    · exact hbit hact
    · exact hfull ⟨hact, hall⟩

theorem chordRelease_ring (idx i : ℕ) (s : State cfg α) :
    (chordRelease idx i s).2.comboBuffer.Sublist s.comboBuffer ∧
    ∀ j ∈ s.comboBuffer, (s.combos j).disabled = false →
      j ∈ (chordRelease idx i s).2.comboBuffer := by
  simp only [chordRelease]
  split_ifs with hfull hd
  · rw [modify_comboBuffer]
    simp only [dropComboFromBuffer]
    split_ifs with hm hh
    · refine ⟨List.tail_sublist _, fun j hj hjd => ?_⟩
      obtain ⟨rest, hrest⟩ := List.head?_eq_some_iff.mp hh
      have hrest : s.comboBuffer = idx :: rest := hrest
      change j ∈ s.comboBuffer.tail
      rw [hrest] at hj ⊢
      rcases List.mem_cons.mp hj with rfl | hj
      · rw [hd] at hjd
        cases hjd
      · exact hj
    · exact ⟨.refl _, fun j hj _ => hj⟩
    · exact ⟨.refl _, fun j hj _ => hj⟩
  · exact ⟨.refl _, fun j hj _ => hj⟩
  · exact ⟨.refl _, fun j hj _ => hj⟩
  · exact ⟨.refl _, fun j hj _ => hj⟩
  · exact ⟨.refl _, fun j hj _ => hj⟩

/-- The release of the keycode `c` has been run against the combos `idxs`. -/
structure LetGo (s t : State cfg α) (c : ℕ) (idxs : List ℕ) : Prop where
  mem : ∀ j ∈ idxs, t.combos j = lifted cfg c j (s.combos j)
  other : ∀ j ∉ idxs, t.combos j = s.combos j
  ring : t.comboBuffer.Sublist s.comboBuffer
  stay : ∀ j ∈ s.comboBuffer, (s.combos j).disabled = false → j ∈ t.comboBuffer

theorem lifted_disabled (c j : ℕ) (st : ComboState cfg.stateBits) :
    (lifted cfg c j st).disabled = st.disabled := by
  rw [lifted]
  cases findKeyIndex (cfg.combo j).keys c <;> rfl

theorem letGo_single {r : Record α} (hp : r.pressed = false) (now : BitVec 16) (idx : ℕ)
    (s : State cfg α) :
    LetGo s (processSingleCombo r now idx s).2 r.keycode [idx] ∧
    ((processSingleCombo r now idx s).1 = true ↔ Swallows s r.keycode idx) := by
  rcases hi : findKeyIndex (cfg.combo idx).keys r.keycode with _ | i
  · rw [processSingleCombo_none now hi]
    refine ⟨⟨?_, fun _ _ => rfl, .refl _, fun j hj _ => hj⟩, ?_⟩
    · intro j hj
      rw [List.mem_singleton.mp hj]
      simp only [lifted, hi]
    · simp [Swallows, hi]
  · rw [processSingleCombo_release now hi (by simp [hp])]
    obtain ⟨hring, hstay⟩ := chordRelease_ring idx i s
    refine ⟨⟨?_, ?_, hring, hstay⟩, chordRelease_swallows hi⟩
    · intro j hj
      rw [List.mem_singleton.mp hj, chordRelease_self]
      simp only [lifted, hi]
    · intro j hj
      exact chordRelease_of_ne (mt List.mem_singleton.mpr hj)

/-- The loop over the table on a release: every combo is judged by its own state. -/
theorem letGo_loop {r : Record α} (hp : r.pressed = false) (now : BitVec 16) {idxs : List ℕ}
    (hn : idxs.Nodup) (s : State cfg α) (b : Bool) :
    LetGo s (processCombos r now idxs (b, s)).2 r.keycode idxs ∧
    ((processCombos r now idxs (b, s)).1 = true ↔
      b = true ∨ ∃ j ∈ idxs, Swallows s r.keycode j) := by
  induction idxs generalizing s b with
  | nil => exact ⟨⟨by simp, fun _ _ => rfl, .refl _, fun j hj _ => hj⟩, by simp [processCombos]⟩
  | cons idx idxs ih =>
    obtain ⟨hidx, hn⟩ := List.nodup_cons.mp hn
    obtain ⟨hone, hans⟩ := letGo_single hp now idx s
    obtain ⟨hrest, hans'⟩ := ih hn (processSingleCombo r now idx s).2
      (b || (processSingleCombo r now idx s).1)
    have henabled := (quiet_processSingleCombo r now idx s).enabled
    set u := (processSingleCombo r now idx s).2
    have hsame : ∀ j ∈ idxs, u.combos j = s.combos j := by
      intro j hj
      refine hone.other j (mt List.mem_singleton.mp ?_)
      rintro rfl
      exact hidx hj
    refine ⟨⟨?_, ?_, hrest.ring.trans hone.ring, ?_⟩, ?_⟩
    · intro j hj
      rcases List.mem_cons.mp hj with rfl | hj
      · exact (hrest.other j hidx).trans (hone.mem j (List.mem_singleton_self _))
      · exact (hrest.mem j hj).trans (congrArg _ (hsame j hj))
    · intro j hj
      obtain ⟨hne, hj⟩ := not_or.mp (mt List.mem_cons.mpr hj)
      exact (hrest.other j hj).trans (hone.other j (mt List.mem_singleton.mp hne))
    · intro j hj hd
      refine hrest.stay j (hone.stay j hj hd) ?_
      rcases eq_or_ne j idx with rfl | hne
      · rw [hone.mem j (List.mem_singleton_self _), lifted_disabled]
        exact hd
      · rw [hone.other j (mt List.mem_singleton.mp hne)]
        exact hd
    · have hswallows : ∀ j ∈ idxs, Swallows u r.keycode j ↔ Swallows s r.keycode j := by
        intro j hj
        simp only [Swallows, Bit, hsame j hj, henabled]
      change (processCombos r now idxs _).1 = true ↔ _
      rw [hans', Bool.or_eq_true, hans, or_assoc]
      refine or_congr_right ?_
      constructor
      · rintro (hs | ⟨j, hj, hs⟩)
        · exact ⟨idx, List.mem_cons_self, hs⟩
        · exact ⟨j, List.mem_cons_of_mem _ hj, (hswallows j hj).mp hs⟩
      · rintro ⟨j, hj, hs⟩
        rcases List.mem_cons.mp hj with rfl | hj
        · exact Or.inl hs
        · exact Or.inr ⟨j, hj, (hswallows j hj).mpr hs⟩

section Lifted

variable {j : ℕ} {idxs : List ℕ} (hg : LetGo s t c idxs) (hj : j ∈ idxs)

include hg hj

theorem LetGo.disabled : (t.combos j).disabled = (s.combos j).disabled := by
  rw [hg.mem j hj, lifted_disabled]

theorem LetGo.bit_iff : Bit t j i ↔ Bit s j i ∧ findKeyIndex (cfg.combo j).keys c ≠ some i := by
  rw [Bit, hg.mem j hj, lifted]
  rcases findKeyIndex (cfg.combo j).keys c with _ | i'
  · simp [Bit]
  · change (keyStateUp (s.combos j).state i').getLsbD i = true ↔ _
    rw [keyStateUp_bit, Ne, Ne, Option.some_inj]
    exact Iff.rfl

theorem LetGo.active_of (ha : (t.combos j).active = true) : (s.combos j).active = true := by
  rw [hg.mem j hj, lifted] at ha
  rcases hi : findKeyIndex (cfg.combo j).keys c with _ | i'
  · simpa only [hi] using ha
  · simp only [hi, ComboState.up] at ha
    exact (Bool.and_eq_true_iff.mp ha).1

theorem LetGo.active (hb : Bit t j i) (ha : (s.combos j).active = true) :
    (t.combos j).active = true := by
  obtain ⟨hb, hne⟩ := (hg.bit_iff hj).mp hb
  rw [hg.mem j hj, lifted]
  rcases hi : findKeyIndex (cfg.combo j).keys c with _ | i'
  · exact ha
  · refine Bool.and_eq_true_iff.mpr ⟨ha, ?_⟩
    rw [Bool.not_eq_true', Bool.eq_false_iff]
    intro hone
    obtain ⟨hone, hbit⟩ := Bool.and_eq_true_iff.mp hone
    obtain rfl := onlyOne_bit (of_decide_eq_true hone) hbit hb
    exact hne hi

end Lifted

theorem Tracked.letGo [DecidableEq α] {buf : List (QueuedRecord α)} (ht : Tracked s h f buf)
    {r : Record α} (hr : r.entry ∈ h) (hg : LetGo s t r.keycode (List.range cfg.table.length))
    (he : t.enabled = s.enabled) : Ready t (h.filter (·.1 ≠ r.key)) f buf := by
  have hmem : ∀ p, p ∈ h.filter (·.1 ≠ r.key) ↔ p ∈ h ∧ p.1 ≠ r.key := by simp
  have hlt : ∀ {j}, j < cfg.table.length → j ∈ List.range cfg.table.length :=
    fun hj => List.mem_range.mpr hj
  -- a bit that is left is the bit of another key
  have hother : ∀ {j i p}, j < cfg.table.length → Bit t j i → p ∈ h →
      findKeyIndex (cfg.combo j).keys p.2 = some i → p ∈ h.filter (·.1 ≠ r.key) := by
    intro j i p hj hb hp hi
    refine (hmem p).mpr ⟨hp, fun hk => ?_⟩
    obtain rfl := ht.heldOk.keys p hp _ hr hk
    exact ((hg.bit_iff (hlt hj)).mp hb).2 hi
  -- and another key keeps its bit
  have hkeep : ∀ {j i p}, j < cfg.table.length → Bit s j i → p ∈ h.filter (·.1 ≠ r.key) →
      findKeyIndex (cfg.combo j).keys p.2 = some i → Bit t j i := by
    intro j i p hj hb hp hi
    obtain ⟨hp, hk⟩ := (hmem p).mp hp
    refine (hg.bit_iff (hlt hj)).mpr ⟨hb, fun hri => hk ?_⟩
    rw [ht.heldOk.eq_of_index hp hr hj hi hri]
    rfl
  refine ⟨⟨?_, ?_, ?_⟩, ⟨?_, ?_, ?_, ?_, ?_, ?_, ht.sound.once⟩, ⟨ht.buffered.coded,
    ht.buffered.codes, ht.buffered.pending, ?_, ht.buffered.same⟩, fun j hj => ⟨?_, ?_⟩⟩
  · exact fun p hp => ht.heldOk.coded p ((hmem p).mp hp).1
  · exact fun p hp p' hp' => ht.heldOk.keys p ((hmem p).mp hp).1 p' ((hmem p').mp hp').1
  · exact fun p hp p' hp' => ht.heldOk.codes p ((hmem p).mp hp).1 p' ((hmem p').mp hp').1
  · exact ht.sound.nodup.sublist hg.ring
  · exact fun j hj => ht.sound.ring j (hg.ring.subset hj)
  · intro hoff
    rw [he] at hoff
    refine List.eq_nil_of_subset_nil ?_
    rw [← ht.sound.off hoff]
    exact hg.ring.subset
  · intro j ha
    rcases Nat.lt_or_ge j cfg.table.length with hj | hj
    · rw [hg.disabled (hlt hj)]
      exact ht.sound.active j (hg.active_of (hlt hj) ha)
    · rw [hg.other j (by simpa using hj)] at ha ⊢
      exact ht.sound.active j ha
  · intro j hj ha i hi
    obtain ⟨p, hp, hpi, hpc⟩ := ht.sound.consumed j hj (hg.active_of (hlt hj) ha) i
      ((hg.bit_iff (hlt hj)).mp hi).1
    exact ⟨p, hother hj hi hp hpi, hpi, hpc⟩
  · intro p hp hpc
    obtain ⟨j, hj, ha, i, hpi, hb⟩ := ht.sound.active_of p ((hmem p).mp hp).1 hpc
    have hb' := hkeep hj hb hp hpi
    exact ⟨j, hj, hg.active (hlt hj) hb' ha, i, hpi, hb'⟩
  · exact fun q hq p hp => ht.buffered.matched q hq p ((hmem p).mp hp).1
  · intro ha i hi
    obtain ⟨hb, hne⟩ := (hg.bit_iff (hlt hj)).mp hi
    -- an active combo that has a bit left is still active
    have ha' : (s.combos j).active = false := by
      rw [Bool.eq_false_iff]
      intro hact
      rw [hg.active (hlt hj) hi hact] at ha
      cases ha
    obtain ⟨q, hq, hqh, hqi⟩ := (ht.mirrors j hj).bits ha' i hb
    exact ⟨q, hq, hother hj hi hqh hqi, hqi⟩
  · intro hd q hq hqh i hqi hi
    rw [hg.disabled (hlt hj)] at hd
    exact hkeep hj ((ht.mirrors j hj).covered hd q hq ((hmem _).mp hqh).1 i hqi hi) hqh hqi

/-- The release is swallowed exactly when the press has been consumed, or is consumed by the
flush that follows. -/
theorem Tracked.swallows_iff {buf : List (QueuedRecord α)} (ht : Tracked s h f buf) {r : Record α}
    (hr : r.entry ∈ h) (hg : LetGo s t r.keycode (List.range cfg.table.length))
    (hk : t.keyBuffer = buf) :
    (∃ j ∈ List.range cfg.table.length, Swallows s r.keycode j) ↔
      (f r.key).consumed = true ∨ ∃ j ∈ t.comboBuffer, Fires t j ∧ HasPress t j r.key := by
  constructor
  · rintro ⟨j, hj, i, hi, ⟨ha, hb⟩ | ⟨ha, hd, -, hfull⟩⟩
    · obtain ⟨p, hp, hpi, hpc⟩ := ht.sound.consumed j (List.mem_range.mp hj) ha i hb
      obtain rfl := ht.heldOk.eq_of_index hp hr (List.mem_range.mp hj) hpi hi
      exact Or.inl hpc
    · have hm := ht.mirrors j (List.mem_range.mp hj)
      have hcov := (hm.full_iff ht.buffered.coded ht.held hd ha).mp hfull
      have hkeys : (cfg.combo j).keys ≠ [] :=
        List.ne_nil_of_mem (mem_of_findKeyIndex (ht.heldOk.coded _ hr) hi)
      have hwait := ht.waiting j (List.mem_range.mp hj) hd hkeys hcov
      have hlt : i < (cfg.combo j).keys.length := findKeyIndex_lt (ht.heldOk.coded _ hr) hi
      obtain ⟨q, hq, hqi⟩ := hcov.2 i hlt
      have hqr : q.record.entry = r.entry :=
        ht.heldOk.eq_of_index (ht.held q hq) hr (List.mem_range.mp hj) hqi hi
      refine Or.inr ⟨j, hg.stay j hwait hd, ⟨?_, by rwa [hk]⟩, q, by rwa [hk], ?_, i, hqi⟩
      · rw [hg.disabled hj]
        exact hd
      · exact congrArg Prod.fst hqr
  · rintro (hc | ⟨j, hj, ⟨hd, hcov⟩, q, hq, hqk, i, hqi⟩)
    · obtain ⟨j, hj, ha, i, hi, hb⟩ := ht.sound.active_of _ hr hc
      exact ⟨j, List.mem_range.mpr hj, i, hi, Or.inl ⟨ha, hb⟩⟩
    · rw [hk] at hcov hq
      have hjs := hg.ring.subset hj
      have hjl := List.mem_range.mpr (ht.sound.ring j hjs).1
      rw [hg.disabled hjl] at hd
      have ha := ht.sound.inactive hd
      have hqr : q.record.entry = r.entry := ht.heldOk.keys _ (ht.held q hq) _ hr hqk
      refine ⟨j, hjl, i, ?_, Or.inr ⟨ha, hd, ?_, ?_⟩⟩
      · have hcode : q.record.keycode = r.keycode := congrArg Prod.snd hqr
        rwa [← hcode]
      · by_contra hoff
        rw [ht.sound.off (by simpa using hoff)] at hjs
        cases hjs
      · have hm := ht.mirrors j (List.mem_range.mp hjl)
        exact (hm.full_iff ht.buffered.coded ht.held hd ha).mpr hcov

end Release

end Qmk.Combos
