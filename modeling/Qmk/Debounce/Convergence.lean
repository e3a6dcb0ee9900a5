import Qmk.Debounce.AsymEagerDeferPk
import Qmk.Debounce.SymDefer
import Qmk.Debounce.SymDeferPk
import Qmk.Debounce.SymEager

/-! # Convergence of the debounce algorithms

Once the raw matrix stays as it is, the cooked matrix becomes equal to it. The algorithms are built
with a debounce time that is cut off at what their counters hold, and without one they all hand the
raw matrix through, but for `sym_defer_pr.c`, which has no such case.
-/

namespace Qmk.Debounce

variable {rows cols w t : ℕ}

/-- The files of `quantum/debounce`. -/
inductive Algorithm
  | symDeferG
  | symDeferPk
  | symDeferPr
  | symEagerPk
  | symEagerPr
  | asymEagerDeferPk
  deriving DecidableEq

/-- The raw matrix is shown in the end if it stays as it is. The scans go on with pauses of at most
`G`, which together with the debounce time are within what the timer can tell. -/
def Converges {σ ι R : Type} (run : List (Scan rows w t) → σ) (raw cooked : σ → Rows rows w)
    (reading : Rows rows w → ι → R) : Prop :=
  ∀ G, G + 255 < 2 ^ t → ∃ T, ∀ cs ds,
    (∀ d ∈ ds, d.raw = raw (run cs) ∧ d.elapsed.toNat ≤ G) →
      T ≤ (ds.map fun d => d.elapsed.toNat).sum →
        ∀ i, reading (cooked (run (cs ++ ds))) i = reading (raw (run cs)) i

def ScannedConverges {δ : Type} (debounce : Rows rows w → BitVec t → Bool → δ → δ)
    (cooked : δ → Rows rows w) (s : Scanned δ rows w t) : Prop :=
  Converges (s.run debounce) Scanned.raw (fun s => cooked s.debouncer) fun m row => m row

def LoopsConverge {κ ι R : Type} (l : Loops κ rows w t) (k : κ) (reading : Rows rows w → ι → R) :
    Prop :=
  ∀ m, Converges (l.run (.start k m)) Scanner.raw (fun s => s.debouncer.cooked) reading

/-- `none.c`, which the files include for a `DEBOUNCE` of 0. -/
def NoneConverges (rows w t : ℕ) : Prop :=
  ∀ m : Rows rows w, ScannedConverges (t := t) None.debounce None.Debouncer.cooked
    { raw := m, debouncer := { cooked := m } }

/-- An algorithm, built for `DEBOUNCE` equal to `D`, converges. -/
def Algorithm.Converges (rows cols w t D : ℕ) : Algorithm → Prop
  | symDeferG =>
    if D = 0 then NoneConverges rows w t
    else ∀ m : Rows rows w, ScannedConverges (t := t) (SymDeferG.debounce (min D 255))
      SymDeferG.Debouncer.cooked { raw := m, debouncer := { cooked := m } }
  | symDeferPk =>
    if D = 0 then NoneConverges rows w t
    else LoopsConverge (w := w) (t := t) (SymDeferPk.loops (min D 255))
      (fun _ (_ : Fin cols) => 0#8) fun m (i : Fin rows × Fin cols) => keyReading m i
  | symDeferPr =>
    ScannedConverges (SymDeferPr.debounce D) SymDeferPr.Debouncer.cooked
      (SymDeferPr.init : Scanned _ rows w 16)
  | symEagerPk =>
    if D = 0 then NoneConverges rows w t
    else LoopsConverge (w := w) (t := t) (SymEagerPk.loops (min D 255))
      (fun _ (_ : Fin cols) => 0#8) fun m (i : Fin rows × Fin cols) => keyReading m i
  | symEagerPr =>
    if D = 0 then NoneConverges rows w t
    else LoopsConverge (w := w) (t := t) (SymEagerPr.loops (min D 255)) (fun _ => 0#8)
      fun m (row : Fin rows) => m row
  | asymEagerDeferPk =>
    if D = 0 then NoneConverges rows w t
    else ∀ p : Fin rows → Fin cols → Bool, LoopsConverge (w := w) (t := t)
      (AsymEagerDeferPk.loops (min D 127)) (fun row col => ⟨p row col, 0#7⟩)
      fun m (i : Fin rows × Fin cols) => keyReading m i

section Rules

theorem scannedConverges {δ : Type} {debounce : Rows rows w → BitVec t → Bool → δ → δ}
    {cooked : δ → Rows rows w} {s : Scanned δ rows w t} (p : Scanned δ rows w t → Prop)
    (hstart : p s) (hscan : ∀ s c, p s → p (s.scan debounce c)) (T : ℕ)
    (hp : ∀ s ds, p s → (∀ d ∈ ds, d.raw = s.raw ∧ 255 + d.elapsed.toNat ≤ 2 ^ t) →
      T ≤ (ds.map fun d => d.elapsed.toNat).sum →
        ∀ row, cooked (s.run debounce ds).debouncer row = s.raw row) :
    ScannedConverges debounce cooked s := by
  intro G hG
  refine ⟨T, fun cs ds hds hsum row => ?_⟩
  have hgap (d : Scan rows w t) (hd : d ∈ ds) : 255 + d.elapsed.toNat ≤ 2 ^ t := by
    have := (hds d hd).2
    omega
  rw [Scanned.run_append]
  exact hp _ ds (Scanned.run_inv hscan hstart cs) (fun d hd => ⟨(hds d hd).1, hgap d hd⟩) hsum row

/-- Cells that show a reading that stays after the time `T G`, if the pauses are at most `G`. -/
theorem Loops.Implements.converges {κ γ ι R : Type} {l : Loops κ rows w t} {c : CellLoops R γ}
    {cell : κ → Rows rows w → ι → γ} {reading : Rows rows w → ι → R}
    (h : l.Implements c cell reading) (hc : c.Lawful) {k : κ}
    (hstart : ∀ m, Implements.Invariant c cell reading (.start k m : Scanner κ rows w t))
    (T : ℕ → ℕ)
    (hcell : ∀ g r (es : List (BitVec t)) G, c.transfer r g = g → (∀ e ∈ es, e.toNat ≤ G) →
      T G ≤ (es.map BitVec.toNat).sum → c.value (c.run g (es.map fun e => (r, e))) = r) :
    LoopsConverge l k reading := by
  intro m G _
  refine ⟨T G, fun cs ds hds hsum i => ?_⟩
  have inv := (hstart m).run h hc cs
  have hrun := Implements.run h hc inv ds i
  have hsame : (ds.map fun d => (reading d.raw i, d.elapsed)) =
      (ds.map Scan.elapsed).map fun e => (reading (l.run (.start k m) cs).raw i, e) := by
    rw [List.map_map]
    exact List.map_congr_left fun d hd => by simp [(hds d hd).1]
  have hvalue := hcell ((l.run (.start k m) cs).debouncer.at cell i)
    (reading (l.run (.start k m) cs).raw i) (ds.map Scan.elapsed) G (inv.settled i)
    (fun e he => by
      obtain ⟨d, hd, rfl⟩ := List.mem_map.mp he
      exact (hds d hd).2)
    (by rw [List.map_map]; exact hsum)
  rw [← hsame, ← hrun, Debouncer.at, h.value_cell] at hvalue
  rw [Loops.run_append]
  exact hvalue

end Rules

section Scanned

theorem None.converges : NoneConverges rows w t := by
  intro m
  refine scannedConverges (fun s => s.debouncer.cooked = s.raw) rfl
    (fun s c h => None.scan_cooked h c) 0 fun s ds hs hds _ => ?_
  induction ds generalizing s with
  | nil => exact fun row => congrFun hs row
  | cons d ds ih =>
    obtain ⟨hd, hds⟩ := List.forall_mem_cons.mp hds
    have hraw : (s.scan None.debounce d).raw = s.raw := hd.1
    have hrest := ih (s.scan None.debounce d) (None.scan_cooked hs d) (by rwa [hraw])
      (Nat.zero_le _)
    rwa [hraw] at hrest

theorem SymDeferG.converges {D : ℕ} (h1 : 1 ≤ D) (h2 : D ≤ 255) (m : Rows rows w) :
    ScannedConverges (t := t) (SymDeferG.debounce D) SymDeferG.Debouncer.cooked
      { raw := m, debouncer := { cooked := m } } := by
  refine scannedConverges (SymDeferG.Invariant D) ⟨fun _ => rfl, fun h => by cases h⟩
    (fun s c h => h.scan h1 c) D fun s ds hs hds hsum row => ?_
  refine congrFun (hs.converges h1 (fun d hd => ⟨(hds d hd).1, ?_⟩) fun _ => ?_) row
  · have := (hds d hd).2
    omega
  · omega

theorem SymDeferPr.converges {D : ℕ} (h1 : 1 ≤ D) (h2 : D ≤ 255) :
    ScannedConverges (SymDeferPr.debounce D) SymDeferPr.Debouncer.cooked
      (SymDeferPr.init : Scanned _ rows w 16) := by
  refine scannedConverges SymDeferPr.Invariant SymDeferPr.init_invariant
    (fun s c h => h.scan h1 h2 c) 255 fun s ds hs hds hsum row => ?_
  have hk := (s.debouncer.countdowns row).isLt
  exact hs.converges h1 h2 (fun d hd => (hds d hd).1) (by omega)

/-- Without a debounce time, `sym_defer_pr.c` shows nothing of a key that is pressed. -/
theorem SymDeferPr.not_converges (hrows : 0 < rows) (hw : 0 < w) :
    ¬ ScannedConverges (SymDeferPr.debounce 0) SymDeferPr.Debouncer.cooked
      (SymDeferPr.init : Scanned _ rows w 16) := by
  intro h
  obtain ⟨T, hT⟩ := h 1 (by decide)
  let pressed : Scan rows w 16 := ⟨fun _ => BitVec.allOnes w, 1⟩
  let p (s : Scanned (SymDeferPr.Debouncer rows w) rows w 16) : Prop :=
    s.debouncer.countdowns = (fun _ => 0) ∧ s.debouncer.cooked = fun _ => 0
  have hinv : p (SymDeferPr.init.run (SymDeferPr.debounce 0)
      ([pressed] ++ List.replicate T pressed)) := by
    refine Scanned.run_inv (fun s c hs => ?_) ⟨rfl, rfl⟩ _
    obtain ⟨hk, hcooked⟩ := SymDeferPr.scan_zero hs.1 c
    exact ⟨hk, hcooked.trans hs.2⟩
  have hshown := hT [pressed] (List.replicate T pressed) (fun d hd => by
      obtain rfl := List.eq_of_mem_replicate hd
      exact ⟨rfl, le_rfl⟩)
    (by simp [pressed]) ⟨0, hrows⟩
  dsimp only at hshown
  rw [hinv.2] at hshown
  have hbit := congrArg (fun x : BitVec w => x.getLsbD 0) hshown
  simp [Scanned.run, Scanned.scan, pressed, hw] at hbit

end Scanned

section Cells

/-- A deferred key that differs counts, and its bit is taken over when the counter has elapsed. -/
theorem SymDeferPk.cell_converges {D : ℕ} (h1 : 1 ≤ D) (h2 : D ≤ 255) (r : Bool)
    (es : List (BitVec t)) {g : BitVec 8 × Bool}
    (hg : (SymDeferPk.passes D).cellLoops.transfer r g = g)
    (hsum : g.1.toNat ≤ (es.map BitVec.toNat).sum) :
    ((SymDeferPk.passes D).cellLoops.run g (es.map fun e => (r, e))).2 = r := by
  have hD : BitVec.ofNat 8 D ≠ 0#8 := ofNat_ne_zero h1 (by omega)
  have hcounting (g : BitVec 8 × Bool)
      (hg : (SymDeferPk.passes D).cellLoops.transfer r g = g) (hne : r ≠ g.2) : g.1 ≠ 0#8 := by
    intro h0
    simp only [KeyPasses.cellLoops, SymDeferPk.passes, hne, h0, ne_eq, not_false_eq_true,
      if_true] at hg
    exact hD ((congrArg Prod.fst hg).trans h0)
  induction es generalizing g with
  | nil =>
    by_contra hne
    exact hcounting g hg (Ne.symm hne) (BitVec.eq_of_toNat_eq (Nat.le_zero.mp hsum))
  | cons e es ih =>
    have hlaw := SymDeferPk.passes_lawful h1 h2
    have hnext : (SymDeferPk.passes D).cellLoops.transfer r
        ((SymDeferPk.passes D).cellLoops.step g (r, e)) =
          (SymDeferPk.passes D).cellLoops.step g (r, e) :=
      hlaw.transfer_transfer r _
    rw [List.map_cons, List.sum_cons] at hsum
    refine ih hnext ?_
    obtain ⟨n, b⟩ := g
    have hclamp := toNat_clampElapsed e
    have hn := n.isLt
    rw [SymDeferPk.cellStep_eq]
    split_ifs with hr h0 hle
    · exact Nat.zero_le _
    · exact absurd h0 (hcounting _ hg hr)
    · exact Nat.zero_le _
    · have hsub := BitVec.toNat_sub_of_le (BitVec.le_of_lt (BitVec.not_le.mp hle))
      have hlt := BitVec.lt_def.mp (BitVec.not_le.mp hle)
      dsimp only at hsum ⊢
      omega

/-- An eager cell that differs is locked, and its reading is taken over when the lock ends. -/
theorem eagerCell_converges {R : Type} [DecidableEq R] {D : ℕ} (h1 : 1 ≤ D) (h2 : D ≤ 255) (r : R)
    (es : List (BitVec t)) {g : BitVec 8 × R} (hg : (eagerCell D R).transfer r g = g)
    (hsum : g.1.toNat ≤ (es.map BitVec.toNat).sum) :
    ((eagerCell D R).run g (es.map fun e => (r, e))).2 = r := by
  by_cases hv : g.2 = r
  · exact eagerCell_stays es hv
  · exact eagerCell_transfers es (eagerCell_settled h1 h2 hg hv) hsum

namespace AsymEagerDeferPk

theorem cell_stays (D : ℕ) (r : Bool) (es : List (BitVec t)) {g : Counter × Bool} (h : g.2 = r) :
    ((passes D).cellLoops.run g (es.map fun e => (r, e))).2 = r := by
  induction es generalizing g with
  | nil => exact h
  | cons e es ih =>
    refine ih (g := (passes D).cellLoops.step g (r, e)) ?_
    obtain ⟨⟨p, n⟩, b⟩ := g
    subst h
    simp only [CellLoops.step, KeyPasses.cellLoops, passes, updatePass, comparePass]
    split_ifs <;> simp_all

/-- A key that differs and is deferring takes its bit over when the time has elapsed. -/
theorem deferring_converges (D : ℕ) (r : Bool) (es : List (BitVec t)) {n : BitVec 7} {b : Bool}
    (h0 : n ≠ 0#7) (hsum : n.toNat ≤ (es.map BitVec.toNat).sum) :
    ((passes D).cellLoops.run (⟨false, n⟩, b) (es.map fun e => (r, e))).2 = r := by
  by_cases hb : b = r
  · exact cell_stays D r es hb
  induction es generalizing n with
  | nil => exact absurd (BitVec.eq_of_toNat_eq (Nat.le_zero.mp hsum)) h0
  | cons e es ih =>
    have hclamp := toNat_clampElapsed e
    have hn := n.isLt
    rw [List.map_cons, List.sum_cons] at hsum
    change ((passes D).cellLoops.run ((passes D).cellLoops.step _ (r, e)) _).2 = r
    by_cases hle : n.toNat ≤ (clampElapsed e).toNat
    · refine cell_stays D r es ?_
      simp [CellLoops.step, KeyPasses.cellLoops, passes, updatePass, comparePass, h0, hle]
    · have hsub : (n - (clampElapsed e).setWidth 7).toNat = n.toNat - e.toNat := by bv_omega
      have hne : n - (clampElapsed e).setWidth 7 ≠ 0#7 := by
        intro hz
        rw [hz, BitVec.toNat_zero] at hsub
        omega
      have hstep : (passes D).cellLoops.step (⟨false, n⟩, b) (r, e) =
          (⟨false, n - (clampElapsed e).setWidth 7⟩, b) := by
        simp [CellLoops.step, KeyPasses.cellLoops, passes, updatePass, comparePass, h0, hle,
          hne, Ne.symm hb]
      rw [hstep]
      exact ih hne (by omega)

theorem locked_converges {D : ℕ} (h1 : 1 ≤ D) (h2 : D ≤ 127) (r : Bool) (es : List (BitVec t))
    {G : ℕ} (hes : ∀ e ∈ es, e.toNat ≤ G) {n : BitVec 7} {b : Bool} (h0 : n ≠ 0#7)
    (hsum : n.toNat + G + D ≤ (es.map BitVec.toNat).sum) :
    ((passes D).cellLoops.run (⟨true, n⟩, b) (es.map fun e => (r, e))).2 = r := by
  have hD : BitVec.ofNat 7 D ≠ 0#7 := ofNat_ne_zero h1 (by omega)
  by_cases hb : b = r
  · exact cell_stays D r es hb
  induction es generalizing n with
  | nil =>
    simp only [List.map_nil, List.sum_nil] at hsum
    omega
  | cons e es ih =>
    obtain ⟨he, hes⟩ := List.forall_mem_cons.mp hes
    have hclamp := toNat_clampElapsed e
    have hn := n.isLt
    rw [List.map_cons, List.sum_cons] at hsum
    change ((passes D).cellLoops.run ((passes D).cellLoops.step _ (r, e)) _).2 = r
    by_cases hle : n.toNat ≤ (clampElapsed e).toNat
    · have hstep : (passes D).cellLoops.step (⟨true, n⟩, b) (r, e) =
          (⟨r, BitVec.ofNat 7 D⟩, if r then !b else b) := by
        simp [CellLoops.step, KeyPasses.cellLoops, passes, updatePass, comparePass, h0, hle,
          Ne.symm hb]
      rw [hstep]
      cases r with
      | true =>
        refine cell_stays D true es ?_
        simpa using hb
      | false =>
        refine deferring_converges D false es hD ?_
        rw [BitVec.toNat_ofNat, Nat.mod_eq_of_lt (by omega)]
        omega
    · have hsub : (n - (clampElapsed e).setWidth 7).toNat = n.toNat - e.toNat := by bv_omega
      have hne : n - (clampElapsed e).setWidth 7 ≠ 0#7 := by
        intro hz
        rw [hz, BitVec.toNat_zero] at hsub
        omega
      have hstep : (passes D).cellLoops.step (⟨true, n⟩, b) (r, e) =
          (⟨true, n - (clampElapsed e).setWidth 7⟩, b) := by
        simp [CellLoops.step, KeyPasses.cellLoops, passes, updatePass, comparePass, h0, hle,
          hne, Ne.symm hb]
      rw [hstep]
      exact ih hes hne (by omega)

theorem cell_converges {D : ℕ} (h1 : 1 ≤ D) (h2 : D ≤ 127) (r : Bool) (es : List (BitVec t))
    {G : ℕ} (hes : ∀ e ∈ es, e.toNat ≤ G) {g : Counter × Bool}
    (hg : (passes D).cellLoops.transfer r g = g)
    (hsum : 127 + G + D ≤ (es.map BitVec.toNat).sum) :
    ((passes D).cellLoops.run g (es.map fun e => (r, e))).2 = r := by
  have hD : BitVec.ofNat 7 D ≠ 0#7 := ofNat_ne_zero h1 (by omega)
  obtain ⟨⟨p, n⟩, b⟩ := g
  have hn := n.isLt
  by_cases hb : b = r
  · exact cell_stays D r es hb
  have h0 : n ≠ 0#7 := by
    intro h0
    have hxor : (r ^^ b) = true := by cases r <;> cases b <;> simp_all
    simp only [KeyPasses.cellLoops, passes, comparePass, hxor, h0, if_true, Prod.mk.injEq,
      Counter.mk.injEq] at hg
    exact hD hg.1.2
  cases p with
  | false => exact deferring_converges D r es h0 (by omega)
  | true => exact locked_converges h1 h2 r es hes h0 (by omega)

end AsymEagerDeferPk

theorem SymEagerPk.start_invariant (D : ℕ) (m : Rows rows w) :
    Loops.Implements.Invariant (eagerCell D Bool) keyCell
      (fun m (i : Fin rows × Fin cols) => keyReading m i)
      (.start (fun _ _ => 0#8) m : Scanner (Counters (BitVec 8) rows cols) rows w t) := by
  refine .start _ m (fun i => ?_) (fun i => ?_)
  · simp [eagerCell, keyCell]
  · simp [eagerCell, keyCell, keyReading]

theorem SymEagerPr.start_invariant (D : ℕ) (m : Rows rows w) :
    Loops.Implements.Invariant (eagerCell D (BitVec w)) rowCell (fun m row => m row)
      (.start (fun _ => 0#8) m : Scanner (Fin rows → BitVec 8) rows w t) := by
  refine .start _ m (fun i => ?_) (fun i => ?_)
  · simp [eagerCell, rowCell]
  · simp [eagerCell, rowCell]

end Cells

/-- Every algorithm converges for every debounce time, but `sym_defer_pr.c` for none. -/
theorem Algorithm.converges_iff (a : Algorithm) (hrows : 0 < rows) (hcols : 0 < cols)
    (hw : cols ≤ w) {D : ℕ} (hD : D ≤ 255) :
    a.Converges rows cols w t D ↔ ¬ (a = .symDeferPr ∧ D = 0) := by
  have hmin : min D 255 = D := by omega
  by_cases h0 : D = 0
  · subst h0
    cases a with
    | symDeferG | symDeferPk | symEagerPk | symEagerPr | asymEagerDeferPk =>
      exact ⟨fun _ h => (by cases h.1), fun _ => None.converges⟩
    | symDeferPr =>
      refine ⟨fun h => absurd h (SymDeferPr.not_converges hrows (by omega)), fun h => ?_⟩
      exact absurd ⟨rfl, rfl⟩ h
  · have h1 : 1 ≤ D := by omega
    refine ⟨fun _ h => h0 h.2, fun _ => ?_⟩
    cases a with
    | symDeferG =>
      rw [Algorithm.Converges, if_neg h0, hmin]
      exact fun m => SymDeferG.converges h1 hD m
    | symDeferPk =>
      rw [Algorithm.Converges, if_neg h0, hmin]
      refine (SymDeferPk.loops_implement hw D).converges (SymDeferPk.passes_lawful h1 hD)
        (SymDeferPk.start_invariant D) (fun _ => 255) fun g r es _ hg _ hsum => ?_
      have hk := g.1.isLt
      exact SymDeferPk.cell_converges h1 hD r es hg (by omega)
    | symDeferPr => exact SymDeferPr.converges h1 hD
    | symEagerPk =>
      rw [Algorithm.Converges, if_neg h0, hmin]
      refine (SymEagerPk.loops_implement hw D).converges (eagerCell_lawful h1 hD)
        (SymEagerPk.start_invariant D) (fun _ => 255) fun g r es _ hg _ hsum => ?_
      have hk := g.1.isLt
      exact eagerCell_converges h1 hD r es hg (by omega)
    | symEagerPr =>
      rw [Algorithm.Converges, if_neg h0, hmin]
      refine (SymEagerPr.loops_implement D).converges (eagerCell_lawful h1 hD)
        (SymEagerPr.start_invariant D) (fun _ => 255) fun g r es _ hg _ hsum => ?_
      have hk := g.1.isLt
      exact eagerCell_converges h1 hD r es hg (by omega)
    | asymEagerDeferPk =>
      rw [Algorithm.Converges, if_neg h0]
      have h1' : 1 ≤ min D 127 := by omega
      have h2' : min D 127 ≤ 127 := by omega
      intro p
      refine (AsymEagerDeferPk.loops_implement hw (min D 127)).converges
        (AsymEagerDeferPk.passes_lawful h1' h2') (AsymEagerDeferPk.start_invariant _ p)
        (fun G => 127 + G + min D 127) fun g r es G hg hes hsum => ?_
      exact AsymEagerDeferPk.cell_converges h1' h2' r es hes hg hsum

/-- `sym_eager_pr.c` on a matrix of one key. -/
theorem converges_symEagerPr : Algorithm.symEagerPr.Converges 1 1 8 16 255 :=
  (Algorithm.converges_iff .symEagerPr (by decide) (by decide) (by decide) le_rfl).mpr (by decide)

theorem symDeferPr_not_converges : ¬ Algorithm.symDeferPr.Converges 1 1 8 16 0 :=
  SymDeferPr.not_converges (by decide) (by decide)

end Qmk.Debounce
