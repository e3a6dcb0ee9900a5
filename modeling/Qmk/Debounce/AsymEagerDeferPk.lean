import Qmk.Debounce.Keys

/-! # Asymmetric per-key debounce

`asym_eager_defer_pk.c`: a press is taken over at once and locks the key for a
while, a release is taken over when the raw bit has not returned for as long.
-/

namespace Qmk.Debounce.AsymEagerDeferPk

variable {rows cols w t : ℕ}

/-- `debounce_counter_t`: the direction of the change and seven bits of time. -/
structure Counter where
  pressed : Bool
  time : BitVec 7
  deriving DecidableEq

/-- One turn of the loop of `update_debounce_counters_and_transfer_if_expired`. -/
def updateKey (raw : Rows rows w) (elapsedTime : BitVec 8) (row : Fin rows)
    (s : Debouncer (Counters Counter rows cols) rows w t) (col : Fin cols) :
    Debouncer (Counters Counter rows cols) rows w t :=
  let counter := s.counters row col
  if counter.time ≠ 0#7 then
    if counter.time.toNat ≤ elapsedTime.toNat then
      if counter.pressed then
        -- key-down: eager
        { s.setCounter row col { counter with time := 0#7 } with matrixNeedUpdate := true }
      else
        -- key-up: defer
        let cookedNext := spliceBit (s.cooked row) (raw row) col
        { (s.setCounter row col { counter with time := 0#7 }).setRow row cookedNext with
          cookedChanged := s.cookedChanged || decide (cookedNext ^^^ s.cooked row ≠ 0) }
    else
      { s.setCounter row col
          { counter with time := counter.time - elapsedTime.setWidth 7 } with
        countersNeedUpdate := true }
  else s

/-- The counter of a key is started, and a press is taken over at once. -/
def startKey (D : ℕ) (pressed : Bool) (row : Fin rows)
    (s : Debouncer (Counters Counter rows cols) rows w t) (col : Fin cols) :
    Debouncer (Counters Counter rows cols) rows w t :=
  let s' := { s.setCounter row col { pressed, time := BitVec.ofNat 7 D } with
    countersNeedUpdate := true }
  if pressed then
    -- key-down: eager
    { s'.setRow row (s.cooked row ^^^ bitMask w col) with cookedChanged := true }
  else s'

/-- One turn of the loop of `transfer_matrix_values`. -/
def transferKey (D : ℕ) (raw : Rows rows w) (delta : BitVec w) (row : Fin rows)
    (s : Debouncer (Counters Counter rows cols) rows w t) (col : Fin cols) :
    Debouncer (Counters Counter rows cols) rows w t :=
  let counter := s.counters row col
  if delta &&& bitMask w col ≠ 0 then
    if counter.time = 0#7 then startKey D (raw row &&& bitMask w col ≠ 0) row s col
    else s
  else if counter.time ≠ 0#7 then
    -- key-up: defer
    if !counter.pressed then s.setCounter row col { counter with time := 0#7 } else s
  else s

/-- The loops of `asym_eager_defer_pk.c`, for `DEBOUNCE` equal to `D`. -/
def loops (D : ℕ) : Loops (Counters Counter rows cols) rows w t where
  update raw elapsedTime s :=
    forKeys (fun _ _ => ()) (fun _ => updateKey raw elapsedTime)
      { s with countersNeedUpdate := false, matrixNeedUpdate := false }
  transfer raw s :=
    forKeys (fun s row => raw row ^^^ s.cooked row) (transferKey D raw)
      { s with matrixNeedUpdate := false }

/-! ### The passes -/

def updatePass (e : BitVec 8) (r : Bool) : Counter × Bool → KeyPass Counter
  | (k, b) =>
    if k.time ≠ 0#7 then
      if k.time.toNat ≤ e.toNat then
        if k.pressed then { counter := { k with time := 0#7 }, bit := b, matrix := true }
        else { counter := { k with time := 0#7 }, bit := r, changed := decide (b ≠ r) }
      else
        { counter := { k with time := k.time - e.setWidth 7 }, bit := b, counters := true }
    else { counter := k, bit := b }

/-- The comparison of one key, whose raw bit is `r` and which `differs` at the head of its row. -/
def comparePass (D : ℕ) (differs r : Bool) : Counter × Bool → KeyPass Counter
  | (k, b) =>
    if differs then
      if k.time = 0#7 then
        { counter := { pressed := r, time := BitVec.ofNat 7 D }
          bit := if r then !b else b
          counters := true
          changed := r }
      else { counter := k, bit := b }
    else if k.time ≠ 0#7 ∧ k.pressed = false then { counter := { k with time := 0#7 }, bit := b }
    else { counter := k, bit := b }

def passes (D : ℕ) : KeyPasses Counter where
  update := updatePass
  transfer r g := comparePass D (r ^^ g.2) r g
  Running k := k.time ≠ 0#7

theorem updateKey_visited (hw : cols ≤ w) (D : ℕ) (raw : Rows rows w) (e : BitVec 8)
    (row : Fin rows) (s : Debouncer (Counters Counter rows cols) rows w t) (col : Fin cols) :
    Visited s (updateKey raw e row s col) row col
      ((passes D).update e (keyReading raw (row, col)) (s.at keyCell (row, col))) := by
  have hc : (col : ℕ) < w := by omega
  change Visited s _ row col (updatePass e _ (s.counters row col, (s.cooked row).getLsbD col))
  simp only [updatePass, updateKey]
  split_ifs with h0 he hp
  · constructor <;> simp [Debouncer.setCounter]
  · have := visited_splice s raw row hc { s.counters row col with time := 0#7 }
    rwa [BitVec.xor_comm] at this
  · constructor <;> simp [Debouncer.setCounter]
  · constructor <;> simp

theorem startKey_visited {col : Fin cols} (hc : (col : ℕ) < w) (D : ℕ) (pressed : Bool)
    (row : Fin rows) (s : Debouncer (Counters Counter rows cols) rows w t) :
    Visited s (startKey D pressed row s col) row col
      { counter := { pressed, time := BitVec.ofNat 7 D }
        bit := if pressed then !(s.cooked row).getLsbD col else (s.cooked row).getLsbD col
        counters := true
        changed := pressed } := by
  cases pressed with
  | true => exact visited_flip s row hc ⟨true, BitVec.ofNat 7 D⟩
  | false => constructor <;> simp [startKey, Debouncer.setCounter]

theorem transferKey_eq {col : Fin cols} (hc : (col : ℕ) < w) (D : ℕ) (raw : Rows rows w)
    (delta : BitVec w) (row : Fin rows) (s : Debouncer (Counters Counter rows cols) rows w t) :
    transferKey D raw delta row s col =
      if delta.getLsbD col then
        if (s.counters row col).time = 0#7 then startKey D ((raw row).getLsbD col) row s col else s
      else if (s.counters row col).time ≠ 0#7 ∧ (s.counters row col).pressed = false then
        s.setCounter row col { s.counters row col with time := 0#7 }
      else s := by
  have hr : decide (raw row &&& bitMask w col ≠ 0) = (raw row).getLsbD col := by
    rw [Bool.eq_iff_iff, decide_eq_true_iff, and_bitMask_ne_zero hc]
  have hd := and_bitMask_ne_zero hc delta
  simp only [transferKey, hr]
  by_cases h : delta.getLsbD col = true
  · rw [if_pos (hd.mpr h), if_pos h]
  · rw [if_neg (mt hd.mp h), if_neg h]
    by_cases h0 : (s.counters row col).time = 0#7 <;> simp [h0]

theorem transferKey_visited (hw : cols ≤ w) (D : ℕ) (raw : Rows rows w) (delta : BitVec w)
    (row : Fin rows) (s : Debouncer (Counters Counter rows cols) rows w t) (col : Fin cols) :
    Visited s (transferKey D raw delta row s col) row col
      (comparePass D (delta.getLsbD col) (keyReading raw (row, col))
        (s.at keyCell (row, col))) := by
  have hc : (col : ℕ) < w := by omega
  change Visited s _ row col
    (comparePass D _ _ (s.counters row col, (s.cooked row).getLsbD col))
  rw [transferKey_eq hc, comparePass]
  by_cases hd : delta.getLsbD col = true
  · rw [if_pos hd, if_pos hd]
    by_cases h0 : (s.counters row col).time = 0#7
    · rw [if_pos h0, if_pos h0]
      exact startKey_visited hc D _ row s
    · rw [if_neg h0, if_neg h0]
      constructor <;> simp
  · rw [if_neg hd, if_neg hd]
    split_ifs
    · constructor <;> simp [Debouncer.setCounter]
    · constructor <;> simp

theorem passes_sound (D : ℕ) : (passes D).Sound := by
  constructor
  · rintro e r ⟨k, b⟩
    simp only [passes, updatePass]
    split_ifs <;> simp [ne_comm]
  · rintro e r ⟨k, b⟩
    simp only [passes, updatePass]
    split_ifs with h0
    · simp
    · simp
    · simp
    · exact fun hr => absurd hr h0
  · rintro r ⟨k, b⟩
    simp only [passes, comparePass]
    cases r <;> cases b <;> simp <;> split_ifs <;> simp
  · rintro r ⟨k, b⟩
    simp only [passes, comparePass]
    split_ifs <;> simp
  · rintro r ⟨k, b⟩
    simp only [passes, comparePass]
    split_ifs <;> rfl

theorem loops_implement (hw : cols ≤ w) (D : ℕ) :
    (loops D : Loops (Counters Counter rows cols) rows w t).Implements
      (passes D).cellLoops keyCell keyReading := by
  refine (passes_sound D).implements (fun raw e s => ?_) (fun raw s => ?_)
  · exact swept_forKeys (fun _ _ => ())
      (fun _ row col => (passes D).update e (keyReading raw (row, col)))
      (fun _ row s col => updateKey_visited hw D raw e row s col) (fun _ _ _ => rfl) _
  · refine swept_forKeys _
      (fun delta row col => comparePass D (delta.getLsbD col) (keyReading raw (row, col)))
      (fun delta row s col => transferKey_visited hw D raw delta row s col)
      (fun s row col => ?_) _
    simp [passes, keyReading, Debouncer.at, keyCell]


theorem passes_lawful {D : ℕ} (h1 : 1 ≤ D) (h2 : D ≤ 127) : (passes D).cellLoops.Lawful := by
  have hD : BitVec.ofNat 7 D ≠ 0#7 := ofNat_ne_zero h1 (by omega)
  constructor
  · rintro e r ⟨⟨p, n⟩, b⟩ hk
    have hk : n = 0#7 := by simpa [KeyPasses.cellLoops, passes] using hk
    simp [KeyPasses.cellLoops, passes, updatePass, hk]
  · rintro e r ⟨⟨p, n⟩, b⟩
    simp only [KeyPasses.cellLoops, passes, updatePass]
    split_ifs <;> simp_all
  · rintro r ⟨⟨p, n⟩, b⟩
    have h0 : n ≠ 0#7 → ¬ n.toNat ≤ 0 := by bv_omega
    simp only [KeyPasses.cellLoops, passes, updatePass]
    split_ifs <;> simp_all
  · rintro r ⟨⟨p, n⟩, b⟩
    have h0 : n ≠ 0#7 → ¬ n.toNat ≤ 0 := by bv_omega
    simp only [KeyPasses.cellLoops, passes, updatePass]
    split_ifs <;> simp_all
  · rintro r ⟨⟨p, n⟩, b⟩
    simp only [KeyPasses.cellLoops, passes]
    cases r <;> cases b <;> by_cases h0 : n = 0#7 <;> cases p <;> simp [comparePass, h0, hD]
  · rintro e r ⟨⟨p, n⟩, b⟩
    have hsub : ¬ n.toNat ≤ e.toNat → n - e.setWidth 7 ≠ 0#7 := by bv_omega
    simp only [KeyPasses.cellLoops, passes]
    by_cases h0 : n = 0#7
    · simp [updatePass, h0]
    · by_cases he : n.toNat ≤ e.toNat
      · cases p <;> simp [updatePass, comparePass, h0, he]
      · cases r <;> cases b <;> cases p <;> simp [updatePass, comparePass, h0, he, hsub he]
        all_goals exact fun h => absurd h.symm h0
  · rintro e r ⟨⟨p, n⟩, b⟩
    simp only [KeyPasses.cellLoops, passes, updatePass]
    split_ifs <;> simp [comparePass]

/-! ### The automaton of one key -/

/-- An asymmetrically debounced key by itself. -/
inductive AsymKey where
  | released
  /-- Just pressed, for so many milliseconds; the raw bit is not looked at. -/
  | locked (a : ℕ)
  | down
  /-- The raw bit has been seen released for so many milliseconds. -/
  | deferring (a : ℕ)
  deriving DecidableEq

namespace AsymKey

def step (D : ℕ) : AsymKey → Bool × ℕ → AsymKey
  | released, (raw, _) => if raw then locked 0 else released
  | locked a, (raw, elapsed) =>
    if a + elapsed < D then locked (a + elapsed) else if raw then down else deferring 0
  | down, (raw, _) => if raw then down else deferring 0
  | deferring a, (raw, elapsed) =>
    if raw then down else if a + elapsed < D then deferring (a + elapsed) else released

def run (D : ℕ) (k : AsymKey) (xs : List (Bool × ℕ)) : AsymKey := xs.foldl (step D) k

/-- What the key shows. -/
def cooked : AsymKey → Bool
  | released => false
  | _ => true

/-- The milliseconds left to count. -/
def remaining (D : ℕ) : AsymKey → ℕ
  | locked a | deferring a => D - a
  | _ => 0

/-- A key that shows a bit and has no counter running. -/
def settled (b : Bool) : AsymKey := if b then down else released

/-- A key with its counter shows the state of the automaton. -/
inductive Shown (D : ℕ) : AsymKey → Counter × Bool → Prop
  | released (p : Bool) : Shown D released (⟨p, 0#7⟩, false)
  | down (p : Bool) : Shown D down (⟨p, 0#7⟩, true)
  | locked {a : ℕ} {n : BitVec 7} (ha : a < D) (hn : n.toNat = D - a) :
    Shown D (locked a) (⟨true, n⟩, true)
  | deferring {a : ℕ} {n : BitVec 7} (ha : a < D) (hn : n.toNat = D - a) :
    Shown D (deferring a) (⟨false, n⟩, true)

theorem Shown.counter {D : ℕ} {k : AsymKey} {g : Counter × Bool} (h : Shown D k g) :
    g.1.time.toNat = k.remaining D := by
  cases h with
  | released | down => rfl
  | locked _ hn | deferring _ hn => exact hn

theorem Shown.bit {D : ℕ} {k : AsymKey} {g : Counter × Bool} (h : Shown D k g) :
    g.2 = k.cooked := by
  cases h <;> rfl

end AsymKey

theorem step_shown {D : ℕ} (h1 : 1 ≤ D) (h2 : D ≤ 127) (k : AsymKey) (g : Counter × Bool)
    (x : Bool × BitVec t) (h : AsymKey.Shown D k g) :
    AsymKey.Shown D (k.step D (x.1, x.2.toNat)) ((passes D).cellLoops.step g x) := by
  obtain ⟨r, e⟩ := x
  have hD : BitVec.ofNat 7 D ≠ 0#7 := ofNat_ne_zero h1 (by omega)
  have hDn : (BitVec.ofNat 7 D).toNat = D - 0 := by simp; omega
  have hclamp := toNat_clampElapsed e
  have hstep : ∀ g, (passes D).cellLoops.step g (r, e) =
      (passes D).cellLoops.transfer r ((passes D).cellLoops.update (clampElapsed e) r g) :=
    fun _ => rfl
  rw [hstep]
  generalize clampElapsed e = e' at hclamp ⊢
  cases h with
  | released p =>
    cases r with
    | false => simpa [KeyPasses.cellLoops, passes, updatePass, comparePass] using .released p
    | true => simpa [KeyPasses.cellLoops, passes, updatePass, comparePass] using .locked h1 hDn
  | down p =>
    cases r with
    | false => simpa [KeyPasses.cellLoops, passes, updatePass, comparePass] using .deferring h1 hDn
    | true => simpa [KeyPasses.cellLoops, passes, updatePass, comparePass] using .down p
  | @locked a n ha hn =>
    have h0 : n ≠ 0#7 := by bv_omega
    by_cases he : n.toNat ≤ e'.toNat
    · have hlt : ¬ a + e.toNat < D := by omega
      cases r with
      | false =>
        simpa [KeyPasses.cellLoops, passes, updatePass, comparePass, AsymKey.step, h0, he, hlt]
          using .deferring h1 hDn
      | true =>
        simpa [KeyPasses.cellLoops, passes, updatePass, comparePass, AsymKey.step, h0, he, hlt]
          using .down true
    · have hlt : a + e.toNat < D := by omega
      have hsub : (n - e'.setWidth 7).toNat = D - (a + e.toNat) := by bv_omega
      have hne : n - e'.setWidth 7 ≠ 0#7 := by bv_omega
      simpa [KeyPasses.cellLoops, passes, updatePass, comparePass, AsymKey.step, h0, he, hlt, hne]
        using .locked hlt hsub
  | @deferring a n ha hn =>
    have h0 : n ≠ 0#7 := by bv_omega
    by_cases he : n.toNat ≤ e'.toNat
    · have hlt : ¬ a + e.toNat < D := by omega
      cases r with
      | false =>
        simpa [KeyPasses.cellLoops, passes, updatePass, comparePass, AsymKey.step, h0, he, hlt]
          using .released false
      | true =>
        simpa [KeyPasses.cellLoops, passes, updatePass, comparePass, AsymKey.step, h0, he, hlt]
          using .down false
    · have hlt : a + e.toNat < D := by omega
      have hsub : (n - e'.setWidth 7).toNat = D - (a + e.toNat) := by bv_omega
      have hne : n - e'.setWidth 7 ≠ 0#7 := by bv_omega
      cases r with
      | false =>
        simpa [KeyPasses.cellLoops, passes, updatePass, comparePass, AsymKey.step, h0, he, hlt, hne]
          using .deferring hlt hsub
      | true =>
        simpa [KeyPasses.cellLoops, passes, updatePass, comparePass, AsymKey.step, h0, he, hlt, hne]
          using .down false

/-- The scanner after a sequence of scans, begun with the matrix `m`. `debounce_init` clears the
times only, so the directions `p` are those found in memory. -/
def runs (D cols : ℕ) (p : Fin rows → Fin cols → Bool) (m : Rows rows w)
    (cs : List (Scan rows w t)) : Scanner (Counters Counter rows cols) rows w t :=
  (loops D).run (.start (fun row col => ⟨p row col, 0#7⟩) m) cs

theorem start_invariant (D : ℕ) (p : Fin rows → Fin cols → Bool) (m : Rows rows w) :
    Loops.Implements.Invariant (passes D).cellLoops keyCell keyReading
      (.start (fun row col => ⟨p row col, 0#7⟩) m :
        Scanner (Counters Counter rows cols) rows w t) := by
  refine .start _ m (fun i => ?_) (fun i => ?_)
  · simp [KeyPasses.cellLoops, passes, keyCell]
  · simp [KeyPasses.cellLoops, passes, comparePass, keyCell, keyReading]

/-- Every cooked bit, and the time of every counter, is that of the key's own automaton, and
`debounce` reports a change exactly when the cooked matrix has changed. -/
theorem debounce_refines_asym_keys {D : ℕ} (h1 : 1 ≤ D) (h2 : D ≤ 127) (hw : cols ≤ w)
    (p : Fin rows → Fin cols → Bool) (m : Rows rows w) (cs : List (Scan rows w t)) :
    (∀ (row : Fin rows) (col : Fin cols),
      ((runs D cols p m cs).debouncer.cooked row).getLsbD col =
        (AsymKey.run D (.settled ((m row).getLsbD col)) (keyInputs cs row col)).cooked ∧
      ((runs D cols p m cs).debouncer.counters row col).time.toNat =
        (AsymKey.run D (.settled ((m row).getLsbD col)) (keyInputs cs row col)).remaining D) ∧
      ∀ c, (runs D cols p m (cs ++ [c])).debouncer.cookedChanged = true ↔
        (runs D cols p m (cs ++ [c])).debouncer.cooked ≠
          (runs D cols p m cs).debouncer.cooked := by
  have himp : (loops D : Loops (Counters Counter rows cols) rows w t).Implements _ _ _ :=
    loops_implement hw D
  have hlaw := passes_lawful h1 h2
  constructor
  · intro row col
    have hstart : AsymKey.Shown D (.settled ((m row).getLsbD col))
        (⟨p row col, 0#7⟩, (m row).getLsbD col) := by
      cases (m row).getLsbD col
      · exact .released _
      · exact .down _
    have hshown := himp.simulates hlaw (start_invariant D p m) (step_shown h1 h2) (row, col)
      hstart cs
    exact ⟨hshown.bit, hshown.counter⟩
  · intro c
    rw [runs, Loops.run_append]
    exact (himp.debounce hlaw ((start_invariant D p m).run himp hlaw cs) c).changed

theorem debounce_refines_asym_keys_press :
    ((runs 5 1 (fun _ _ => false) (fun _ => 0#8)
      [⟨fun _ => 1#8, 3#16⟩]).debouncer.cooked (0 : Fin 1)).getLsbD 0 = true :=
  ((debounce_refines_asym_keys (by decide) (by decide) (by decide) _ _ _).1 0 0).1.trans
    (by decide)

end Qmk.Debounce.AsymEagerDeferPk
