import Qmk.Debounce.Keys

/-! # Symmetric per-key debounce, deferred

`sym_defer_pk.c`: a key whose raw bit differs from its cooked bit starts a
counter, and the raw bit is taken over when the counter has elapsed without the
raw bit having returned.
-/

namespace Qmk.Debounce.SymDeferPk

variable {rows cols w t : ℕ}

/-- One turn of the loop of `update_debounce_counters_and_transfer_if_expired`. -/
def updateKey (raw : Rows rows w) (elapsedTime : BitVec 8) (row : Fin rows)
    (s : Debouncer (Counters (BitVec 8) rows cols) rows w t) (col : Fin cols) :
    Debouncer (Counters (BitVec 8) rows cols) rows w t :=
  let counter := s.counters row col
  if counter ≠ 0#8 then
    if counter ≤ elapsedTime then
      let cookedNext := spliceBit (s.cooked row) (raw row) col
      { (s.setCounter row col 0#8).setRow row cookedNext with
        cookedChanged := s.cookedChanged || decide (s.cooked row ^^^ cookedNext ≠ 0) }
    else { s.setCounter row col (counter - elapsedTime) with countersNeedUpdate := true }
  else s

/-- One turn of the loop of `start_debounce_counters`. -/
def startKey (D : ℕ) (delta : BitVec w) (row : Fin rows)
    (s : Debouncer (Counters (BitVec 8) rows cols) rows w t) (col : Fin cols) :
    Debouncer (Counters (BitVec 8) rows cols) rows w t :=
  if delta &&& bitMask w col ≠ 0 then
    if s.counters row col = 0#8 then
      { s.setCounter row col (BitVec.ofNat 8 D) with countersNeedUpdate := true }
    else s
  else s.setCounter row col 0#8

/-- The loops of `sym_defer_pk.c`, for `DEBOUNCE` equal to `D`. The file has no
`matrix_need_update`, so nothing here raises it. -/
def loops (D : ℕ) : Loops (Counters (BitVec 8) rows cols) rows w t where
  update raw elapsedTime s :=
    forKeys (fun _ _ => ()) (fun _ => updateKey raw elapsedTime)
      { s with countersNeedUpdate := false, matrixNeedUpdate := false }
  transfer raw s :=
    forKeys (fun s row => raw row ^^^ s.cooked row) (startKey D)
      { s with matrixNeedUpdate := false }

/-! ### The passes -/

def passes (D : ℕ) : KeyPasses (BitVec 8) where
  update e r g :=
    if g.1 ≠ 0#8 then
      if g.1 ≤ e then { counter := 0#8, bit := r, changed := decide (g.2 ≠ r) }
      else { counter := g.1 - e, bit := g.2, counters := true }
    else { counter := g.1, bit := g.2 }
  transfer r g :=
    if r ≠ g.2 then
      if g.1 = 0#8 then { counter := BitVec.ofNat 8 D, bit := g.2, counters := true }
      else { counter := g.1, bit := g.2 }
    else { counter := 0#8, bit := g.2 }
  Running k := k ≠ 0#8

theorem updateKey_visited (hw : cols ≤ w) (D : ℕ) (raw : Rows rows w) (e : BitVec 8)
    (row : Fin rows) (s : Debouncer (Counters (BitVec 8) rows cols) rows w t) (col : Fin cols) :
    Visited s (updateKey raw e row s col) row col
      ((passes D).update e (keyReading raw (row, col)) (s.at keyCell (row, col))) := by
  have hc : (col : ℕ) < w := by omega
  simp only [passes, Debouncer.at, keyCell, keyReading, updateKey]
  split_ifs with h0 he
  · exact visited_splice s raw row hc 0#8
  · constructor <;> simp [Debouncer.setCounter]
  · constructor <;> simp

theorem startKey_visited (hw : cols ≤ w) (D : ℕ) (delta : BitVec w)
    (row : Fin rows) (s : Debouncer (Counters (BitVec 8) rows cols) rows w t) (col : Fin cols) :
    Visited s (startKey D delta row s col) row col
      ((passes D).transfer (delta.getLsbD col ^^ (s.at keyCell (row, col)).2)
        (s.at keyCell (row, col))) := by
  have hc : (col : ℕ) < w := by omega
  have hd : (delta &&& bitMask w col ≠ 0) =
      ((delta.getLsbD col ^^ (s.cooked row).getLsbD col) ≠ (s.cooked row).getLsbD col) := by
    rw [eq_iff_iff, and_bitMask_ne_zero hc]
    cases delta.getLsbD col <;> simp
  simp only [passes, Debouncer.at, keyCell, startKey, hd]
  split_ifs with h0 he
  · constructor <;> simp [Debouncer.setCounter]
  · constructor <;> simp
  · constructor <;> simp [Debouncer.setCounter]

theorem passes_sound (D : ℕ) : (passes D).Sound := by
  constructor
  · intro e r g
    simp only [passes]
    split_ifs <;> simp [ne_comm]
  · intro e r g
    simp only [passes]
    split_ifs with h0
    · simp
    · simp
    · exact fun hr => absurd hr h0
  · intro r g
    simp only [passes]
    split_ifs <;> simp
  · intro r g
    simp only [passes]
    split_ifs with h0 he
    · simp
    · exact .inl
    · simp
  · intro r g
    simp only [passes]
    split_ifs <;> rfl

theorem loops_implement (hw : cols ≤ w) (D : ℕ) :
    (loops D : Loops (Counters (BitVec 8) rows cols) rows w t).Implements
      (passes D).cellLoops keyCell keyReading := by
  refine (passes_sound D).implements (fun raw e s => ?_) (fun raw s => ?_)
  · exact swept_forKeys (fun _ _ => ())
      (fun _ row col => (passes D).update e (keyReading raw (row, col)))
      (fun _ row s col => updateKey_visited hw D raw e row s col) (fun _ _ _ => rfl) _
  · refine swept_forKeys _
      (fun delta _ col g => (passes D).transfer (delta.getLsbD col ^^ g.2) g)
      (fun delta row s col => startKey_visited hw D delta row s col) (fun s row col => ?_) _
    simp [keyReading, Debouncer.at, keyCell]

theorem passes_lawful {D : ℕ} (h1 : 1 ≤ D) (h2 : D ≤ 255) : (passes D).cellLoops.Lawful := by
  have hD : BitVec.ofNat 8 D ≠ 0#8 := ofNat_ne_zero h1 (by omega)
  constructor
  · rintro e r ⟨k, b⟩ hk
    have hk : k = 0#8 := by simpa [KeyPasses.cellLoops, passes] using hk
    simp [KeyPasses.cellLoops, passes, hk]
  · rintro e r ⟨k, b⟩
    simp only [KeyPasses.cellLoops, passes]
    split_ifs <;> simp
  · rintro r ⟨k, b⟩
    simp only [KeyPasses.cellLoops, passes]
    split_ifs with h0 he <;> simp
    exact absurd (by simpa using he) h0
  · rintro r ⟨k, b⟩
    simp only [KeyPasses.cellLoops, passes]
    split_ifs <;> simp
  · rintro r ⟨k, b⟩
    simp only [KeyPasses.cellLoops, passes]
    split_ifs <;> simp_all
  · rintro e r ⟨k, b⟩
    have hsub : ¬ k ≤ e → k - e ≠ 0#8 := by bv_omega
    simp only [KeyPasses.cellLoops, passes]
    split_ifs <;> simp_all
    intro hk
    exact absurd hk.symm ‹_›
  · rintro e r ⟨k, b⟩
    simp only [KeyPasses.cellLoops, passes]
    split_ifs <;> simp_all

/-! ### The automaton of one key -/

structure DeferredKey where
  cooked : Bool
  /-- The time counted so far, while the raw bit is seen to differ. -/
  counting : Option ℕ := none

namespace DeferredKey

/-- Counting starts when the raw bit differs, is given up when it returns, and ends with the new
bit once `D` milliseconds have been counted. -/
def step (D : ℕ) (k : DeferredKey) (x : Bool × ℕ) : DeferredKey :=
  if x.1 = k.cooked then { cooked := k.cooked }
  else match k.counting with
    | none => { cooked := k.cooked, counting := some 0 }
    | some a =>
      if D ≤ a + x.2 then { cooked := x.1 } else { cooked := k.cooked, counting := some (a + x.2) }

def run (D : ℕ) (k : DeferredKey) (xs : List (Bool × ℕ)) : DeferredKey := xs.foldl (step D) k

/-- The milliseconds left to count. -/
def remaining (D : ℕ) (k : DeferredKey) : ℕ :=
  match k.counting with
  | none => 0
  | some a => D - a

/-- A key with its counter shows the state of the automaton. -/
structure Shown (D : ℕ) (k : DeferredKey) (g : BitVec 8 × Bool) : Prop where
  counter : g.1.toNat = k.remaining D
  bit : g.2 = k.cooked
  counting : ∀ a ∈ k.counting, a < D

end DeferredKey

theorem cellStep_eq {D : ℕ} (n : BitVec 8) (b r : Bool) (e : BitVec t) :
    (passes D).cellLoops.step (n, b) (r, e) =
      if r = b then (0#8, b)
      else if n = 0#8 then (BitVec.ofNat 8 D, b)
      else if n ≤ clampElapsed e then (0#8, r) else (n - clampElapsed e, b) := by
  have hsub : ¬ n ≤ clampElapsed e → n - clampElapsed e ≠ 0#8 := by bv_omega
  simp only [CellLoops.step, KeyPasses.cellLoops, passes]
  split_ifs <;> simp_all

theorem step_shown {D : ℕ} (h1 : 1 ≤ D) (h2 : D ≤ 255) (k : DeferredKey) (g : BitVec 8 × Bool)
    (x : Bool × BitVec t) (h : DeferredKey.Shown D k g) :
    DeferredKey.Shown D (k.step D (x.1, x.2.toNat)) ((passes D).cellLoops.step g x) := by
  obtain ⟨n, b⟩ := g
  obtain ⟨cooked, counting⟩ := k
  obtain ⟨r, e⟩ := x
  obtain ⟨hn, hb, hlt⟩ := h
  simp only at hn hb hlt
  subst hb
  have hclamp := toNat_clampElapsed e
  rw [cellStep_eq, DeferredKey.step]
  by_cases hr : r = b
  · simp only [hr, if_true]
    exact ⟨rfl, rfl, by simp⟩
  · simp only [hr, if_false]
    cases counting with
    | none =>
      have h0 : n = 0#8 := BitVec.eq_of_toNat_eq hn
      simp only [h0, if_true]
      refine ⟨?_, rfl, by simp; omega⟩
      simp [DeferredKey.remaining]
      omega
    | some a =>
      have ha : a < D := hlt a rfl
      simp only [DeferredKey.remaining] at hn
      have h0 : n ≠ 0#8 := by
        rintro rfl
        simp at hn
        omega
      simp only [h0, if_false, BitVec.le_def]
      by_cases he : D ≤ a + e.toNat
      · have hle : n.toNat ≤ (clampElapsed e).toNat := by omega
        simp only [he, hle, if_true]
        exact ⟨rfl, rfl, by simp⟩
      · have hle : ¬ n.toNat ≤ (clampElapsed e).toNat := by omega
        simp only [he, hle, if_false]
        refine ⟨?_, rfl, by simp; omega⟩
        rw [BitVec.toNat_sub_of_le (by rw [BitVec.le_def]; omega)]
        simp only [DeferredKey.remaining]
        omega

/-- The scanner after a sequence of scans, begun with the matrix `m`. -/
def runs (D cols : ℕ) (m : Rows rows w) (cs : List (Scan rows w t)) :
    Scanner (Counters (BitVec 8) rows cols) rows w t :=
  (loops D).run (.start (fun _ _ => 0#8) m) cs

theorem start_invariant (D : ℕ) (m : Rows rows w) :
    Loops.Implements.Invariant (passes D).cellLoops keyCell keyReading
      (.start (fun _ _ => 0#8) m : Scanner (Counters (BitVec 8) rows cols) rows w t) := by
  refine .start _ m (fun i => ?_) (fun i => ?_)
  · simp [KeyPasses.cellLoops, passes, keyCell]
  · simp [KeyPasses.cellLoops, passes, keyCell, keyReading]

/-- Every cooked bit, and every counter, is that of the key's own automaton, and `debounce`
reports a change exactly when the cooked matrix has changed. -/
theorem debounce_refines_deferred_keys {D : ℕ} (h1 : 1 ≤ D) (h2 : D ≤ 255) (hw : cols ≤ w)
    (m : Rows rows w) (cs : List (Scan rows w t)) :
    (∀ (row : Fin rows) (col : Fin cols),
      ((runs D cols m cs).debouncer.cooked row).getLsbD col =
        (DeferredKey.run D { cooked := (m row).getLsbD col } (keyInputs cs row col)).cooked ∧
      ((runs D cols m cs).debouncer.counters row col).toNat =
        (DeferredKey.run D { cooked := (m row).getLsbD col }
          (keyInputs cs row col)).remaining D) ∧
      ∀ c, (runs D cols m (cs ++ [c])).debouncer.cookedChanged = true ↔
        (runs D cols m (cs ++ [c])).debouncer.cooked ≠ (runs D cols m cs).debouncer.cooked := by
  have himp : (loops D : Loops (Counters (BitVec 8) rows cols) rows w t).Implements _ _ _ :=
    loops_implement hw D
  have hlaw := passes_lawful h1 h2
  constructor
  · intro row col
    have hshown := himp.simulates hlaw (start_invariant D m) (step_shown h1 h2) (row, col)
      (a := { cooked := (m row).getLsbD col }) ⟨rfl, rfl, by simp⟩ cs
    exact ⟨hshown.bit, hshown.counter⟩
  · intro c
    rw [runs, Loops.run_append]
    exact (himp.debounce hlaw ((start_invariant D m).run himp hlaw cs) c).changed

theorem debounce_refines_deferred_keys_press :
    ((runs 5 1 (fun _ => 0#8) [⟨fun _ => 1#8, 3#16⟩, ⟨fun _ => 1#8, 2#16⟩,
      ⟨fun _ => 1#8, 3#16⟩]).debouncer.cooked (0 : Fin 1)).getLsbD 0 = true :=
  ((debounce_refines_deferred_keys (by decide) (by decide) (by decide) _ _).1 0 0).1.trans
    (by decide)

end Qmk.Debounce.SymDeferPk
