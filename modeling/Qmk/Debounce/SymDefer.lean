import Mathlib.Algebra.GroupWithZero.Nat
import Qmk.Debounce.Scan

/-! # Deferred debounce without counters for keys

`sym_defer_g.c` has one timer for the whole matrix, `sym_defer_pr.c` a countdown for each row, and
`none.c` stands in for the algorithms that are built with a debounce time of zero.
-/

namespace Qmk.Debounce

variable {rows w t : ℕ}

/-- A matrix as it is scanned: the raw matrix of the previous scan, the timer, and the variables
`δ` of an algorithm with the cooked matrix. -/
structure Scanned (δ : Type) (rows w t : ℕ) where
  raw : Rows rows w
  clock : BitVec t := 0
  debouncer : δ

/-- `matrix_scan`, around a `debounce` with the raw matrix, the time, and whether it changed. -/
def Scanned.scan {δ : Type} (debounce : Rows rows w → BitVec t → Bool → δ → δ)
    (s : Scanned δ rows w t) (c : Scan rows w t) : Scanned δ rows w t :=
  let now := s.clock + c.elapsed
  { raw := c.raw
    clock := now
    debouncer := debounce c.raw now (c.raw ≠ s.raw) s.debouncer }

namespace None

/-- The cooked matrix, and the result of the last call. -/
structure Debouncer (rows w : ℕ) where
  cooked : Rows rows w
  cookedChanged : Bool := false

def debounce (raw : Rows rows w) (_now : BitVec t) (changed : Bool) (s : Debouncer rows w) :
    Debouncer rows w :=
  if changed then
    if s.cooked ≠ raw then { cooked := raw, cookedChanged := true }
    else { s with cookedChanged := false }
  else { s with cookedChanged := false }

end None

namespace SymDeferG

/-- The static variables of `sym_defer_g.c`, with the cooked matrix and the result of the last
call. -/
structure Debouncer (rows w t : ℕ) where
  cooked : Rows rows w
  debouncing : Bool := false
  debouncingTime : BitVec t := 0
  cookedChanged : Bool := false

/-- `debounce` of `sym_defer_g.c`, for `DEBOUNCE` equal to `D`. -/
def debounce (D : ℕ) (raw : Rows rows w) (now : BitVec t) (changed : Bool)
    (s : Debouncer rows w t) : Debouncer rows w t :=
  let s := { s with cookedChanged := false }
  if changed then { s with debouncing := true, debouncingTime := now }
  else if s.debouncing ∧ D ≤ (now - s.debouncingTime).toNat then
    if s.cooked ≠ raw then { s with cooked := raw, cookedChanged := true, debouncing := false }
    else { s with debouncing := false }
  else s

end SymDeferG

namespace SymDeferPr

/-- The static variables of `sym_defer_pr.c`, with the cooked matrix and the result of the last
call. The timer has 16 bits. -/
structure Debouncer (rows w : ℕ) where
  cooked : Rows rows w
  countdowns : Fin rows → BitVec 8
  lastRaw : Rows rows w
  lastTime : BitVec 16 := 0
  cookedChanged : Bool := false

def debounceRow (D : ℕ) (raw : Rows rows w) (elapsed : BitVec 8) (s : Debouncer rows w)
    (row : Fin rows) : Debouncer rows w :=
  let rawRow := raw row
  if rawRow ≠ s.lastRaw row then
    { s with
      countdowns := Function.update s.countdowns row (BitVec.ofNat 8 D)
      lastRaw := Function.update s.lastRaw row rawRow }
  else if elapsed < s.countdowns row then
    { s with countdowns := Function.update s.countdowns row (s.countdowns row - elapsed) }
  else if s.countdowns row ≠ 0 then
    { s with
      cookedChanged := s.cookedChanged || decide (s.cooked row ^^^ rawRow ≠ 0)
      cooked := Function.update s.cooked row rawRow
      countdowns := Function.update s.countdowns row 0 }
  else s

/-- `debounce` of `sym_defer_pr.c`, for `DEBOUNCE` equal to `D`. -/
def debounce (D : ℕ) (raw : Rows rows w) (now : BitVec 16) (_changed : Bool)
    (s : Debouncer rows w) : Debouncer rows w :=
  let elapsed16 := now - s.lastTime
  (List.finRange rows).foldl (debounceRow D raw (clampElapsed elapsed16))
    { s with lastTime := now, cookedChanged := false }

def init : Scanned (Debouncer rows w) rows w 16 where
  raw _ := 0
  debouncer := { cooked := fun _ => 0, countdowns := fun _ => 0, lastRaw := fun _ => 0 }

end SymDeferPr

/-! ### What a scan leaves behind -/

section Scans

variable {δ : Type} {debounce : Rows rows w → BitVec t → Bool → δ → δ}

/-- The state after a sequence of scans. -/
def Scanned.run (debounce : Rows rows w → BitVec t → Bool → δ → δ) (s : Scanned δ rows w t)
    (cs : List (Scan rows w t)) : Scanned δ rows w t :=
  cs.foldl (Scanned.scan debounce) s

@[simp] theorem Scanned.run_nil (s : Scanned δ rows w t) : s.run debounce [] = s := rfl

@[simp] theorem Scanned.run_cons (s : Scanned δ rows w t) (c : Scan rows w t)
    (cs : List (Scan rows w t)) : s.run debounce (c :: cs) = (s.scan debounce c).run debounce cs :=
  rfl

@[simp] theorem Scanned.run_append (s : Scanned δ rows w t) (cs ds : List (Scan rows w t)) :
    s.run debounce (cs ++ ds) = (s.run debounce cs).run debounce ds :=
  List.foldl_append

theorem Scanned.run_inv {p : Scanned δ rows w t → Prop} (hp : ∀ s c, p s → p (s.scan debounce c))
    {s : Scanned δ rows w t} (h : p s) (cs : List (Scan rows w t)) : p (s.run debounce cs) := by
  induction cs generalizing s with
  | nil => exact h
  | cons c cs ih => exact ih (hp s c h)

end Scans

namespace None

theorem scan_cooked {s : Scanned (Debouncer rows w) rows w t} (h : s.debouncer.cooked = s.raw)
    (c : Scan rows w t) : (s.scan debounce c).debouncer.cooked = (s.scan debounce c).raw := by
  simp only [Scanned.scan, debounce, h]
  split_ifs with hchanged hraw
  · rfl
  · exact not_not.mp hraw
  · exact (by simpa using hchanged : c.raw = s.raw).symm

end None

namespace SymDeferG

/-- The time since debouncing began, as far as the timer can tell. -/
def since (s : Scanned (Debouncer rows w t) rows w t) : ℕ :=
  (s.clock - s.debouncer.debouncingTime).toNat

/-- Between two scans the matrices agree or debouncing goes on, for less than the debounce time. -/
structure Invariant (D : ℕ) (s : Scanned (Debouncer rows w t) rows w t) : Prop where
  cooked : s.debouncer.debouncing = false → s.debouncer.cooked = s.raw
  since : s.debouncer.debouncing = true → SymDeferG.since s < D

theorem since_scan (s : Scanned (Debouncer rows w t) rows w t) (e : BitVec t) :
    (s.clock + e - s.debouncer.debouncingTime).toNat = (since s + e.toNat) % 2 ^ t := by
  rw [since, ← BitVec.toNat_add, BitVec.sub_eq_add_neg, BitVec.sub_eq_add_neg, BitVec.add_assoc,
    BitVec.add_comm e, ← BitVec.add_assoc]

theorem scan_changed {D : ℕ} {s : Scanned (Debouncer rows w t) rows w t} {c : Scan rows w t}
    (h : c.raw ≠ s.raw) :
    (s.scan (debounce D) c).debouncer =
      { s.debouncer with
        cookedChanged := false, debouncing := true, debouncingTime := s.clock + c.elapsed } := by
  simp [Scanned.scan, debounce, h]

theorem scan_done {D : ℕ} {s : Scanned (Debouncer rows w t) rows w t} {c : Scan rows w t}
    (h : c.raw = s.raw) (hd : s.debouncer.debouncing = true)
    (he : D ≤ (since s + c.elapsed.toNat) % 2 ^ t) :
    (s.scan (debounce D) c).debouncer.debouncing = false ∧
      (s.scan (debounce D) c).debouncer.cooked = s.raw := by
  rw [← since_scan] at he
  simp only [Scanned.scan, debounce, h, ne_eq, not_true_eq_false, decide_false, Bool.false_eq_true,
    if_false, hd, he, and_self, if_true]
  split_ifs with hraw
  · exact ⟨rfl, hraw⟩
  · exact ⟨rfl, rfl⟩

theorem scan_waits {D : ℕ} {s : Scanned (Debouncer rows w t) rows w t} {c : Scan rows w t}
    (h : c.raw = s.raw)
    (hd : ¬ (s.debouncer.debouncing = true ∧ D ≤ (since s + c.elapsed.toNat) % 2 ^ t)) :
    (s.scan (debounce D) c).debouncer = { s.debouncer with cookedChanged := false } := by
  rw [← since_scan] at hd
  simp only [Scanned.scan, debounce, h, ne_eq, not_true_eq_false, decide_false, Bool.false_eq_true,
    if_false, if_neg hd]

theorem since_waits {D : ℕ} {s : Scanned (Debouncer rows w t) rows w t} {c : Scan rows w t}
    (h : (s.scan (debounce D) c).debouncer = { s.debouncer with cookedChanged := false }) :
    since (s.scan (debounce D) c) = (since s + c.elapsed.toNat) % 2 ^ t := by
  rw [← since_scan, since, h]
  rfl

theorem Invariant.scan {D : ℕ} (h1 : 1 ≤ D) {s : Scanned (Debouncer rows w t) rows w t}
    (inv : Invariant D s) (c : Scan rows w t) : Invariant D (s.scan (debounce D) c) := by
  by_cases hraw : c.raw = s.raw
  · by_cases hd : s.debouncer.debouncing = true ∧
        D ≤ (SymDeferG.since s + c.elapsed.toNat) % 2 ^ t
    · obtain ⟨hdebouncing, hcooked⟩ := scan_done hraw hd.1 hd.2
      refine ⟨fun _ => hcooked.trans hraw.symm, fun h => ?_⟩
      rw [hdebouncing] at h
      cases h
    · have hscan := scan_waits hraw hd
      constructor
      · intro h
        rw [hscan] at h ⊢
        exact (inv.cooked h).trans hraw.symm
      · intro h
        rw [since_waits hscan]
        rw [hscan] at h
        exact Nat.lt_of_not_le fun hle => hd ⟨h, hle⟩
  · have hscan := scan_changed (D := D) hraw
    constructor
    · intro h
      rw [hscan] at h
      cases h
    · intro _
      have hzero : SymDeferG.since (s.scan (debounce D) c) = 0 := by
        rw [SymDeferG.since, hscan]
        change (s.clock + c.elapsed - (s.clock + c.elapsed)).toNat = 0
        simp
      omega

/-- A matrix that stays is taken over once the debounce time has passed. -/
theorem Invariant.converges {D : ℕ} (h1 : 1 ≤ D) {s : Scanned (Debouncer rows w t) rows w t}
    (inv : Invariant D s) {ds : List (Scan rows w t)}
    (hds : ∀ d ∈ ds, d.raw = s.raw ∧ D + d.elapsed.toNat ≤ 2 ^ t)
    (hsum : s.debouncer.debouncing = true →
      D ≤ SymDeferG.since s + (ds.map fun d => d.elapsed.toNat).sum) :
    (s.run (debounce D) ds).debouncer.cooked = s.raw := by
  induction ds generalizing s with
  | nil =>
    refine inv.cooked ?_
    by_contra hd
    rw [Bool.not_eq_false] at hd
    have hlt := inv.since hd
    have hle := hsum hd
    simp only [List.map_nil, List.sum_nil] at hle
    omega
  | cons d ds ih =>
    obtain ⟨⟨hraw, hgap⟩, hds⟩ := List.forall_mem_cons.mp hds
    have hraw' : (s.scan (debounce D) d).raw = s.raw := hraw
    rw [Scanned.run_cons, ← hraw']
    refine ih (inv.scan h1 d) (by rwa [hraw']) fun hd => ?_
    by_cases hdone : s.debouncer.debouncing = true ∧
        D ≤ (SymDeferG.since s + d.elapsed.toNat) % 2 ^ t
    · rw [(scan_done hraw hdone.1 hdone.2).1] at hd
      cases hd
    · have hscan := scan_waits hraw hdone
      have hd' : s.debouncer.debouncing = true := by
        rw [hscan] at hd
        exact hd
      have hlt := inv.since hd'
      have hle := hsum hd'
      -- The timer has not come round since debouncing began.
      have hmod := Nat.mod_eq_of_lt (show SymDeferG.since s + d.elapsed.toNat < 2 ^ t by omega)
      rw [since_waits hscan, hmod]
      rw [List.map_cons, List.sum_cons] at hle
      omega

end SymDeferG

namespace SymDeferPr

/-- The countdown of a row, with the row of the last raw matrix and of the cooked one. -/
def rowCell (s : Debouncer rows w) (row : Fin rows) : BitVec 8 × BitVec w × BitVec w :=
  (s.countdowns row, s.lastRaw row, s.cooked row)

def rowPass (D : ℕ) (elapsed : BitVec 8) (rawRow : BitVec w) :
    BitVec 8 × BitVec w × BitVec w → BitVec 8 × BitVec w × BitVec w
  | (countdown, lastRaw, cooked) =>
    if rawRow ≠ lastRaw then (BitVec.ofNat 8 D, rawRow, cooked)
    else if elapsed < countdown then (countdown - elapsed, lastRaw, cooked)
    else if countdown ≠ 0 then (0, lastRaw, rawRow)
    else (countdown, lastRaw, cooked)

theorem rowPass_cases (D : ℕ) (elapsed : BitVec 8) (rawRow : BitVec w) (k : BitVec 8)
    (lastRaw cooked : BitVec w) :
    (rawRow ≠ lastRaw ∧
        rowPass D elapsed rawRow (k, lastRaw, cooked) = (BitVec.ofNat 8 D, rawRow, cooked)) ∨
      (rawRow = lastRaw ∧ elapsed < k ∧
        rowPass D elapsed rawRow (k, lastRaw, cooked) = (k - elapsed, rawRow, cooked)) ∨
      (rawRow = lastRaw ∧ k ≤ elapsed ∧ k ≠ 0 ∧
        rowPass D elapsed rawRow (k, lastRaw, cooked) = (0, rawRow, rawRow)) ∨
      (rawRow = lastRaw ∧ k = 0 ∧
        rowPass D elapsed rawRow (k, lastRaw, cooked) = (0, rawRow, cooked)) := by
  rw [rowPass]
  split_ifs with hraw hlt hzero
  · exact .inl ⟨hraw, rfl⟩
  · have hraw := not_not.mp hraw
    exact .inr (.inl ⟨hraw, hlt, by rw [hraw]⟩)
  · have hraw := not_not.mp hraw
    exact .inr (.inr (.inl ⟨hraw, BitVec.not_lt.mp hlt, hzero, by rw [hraw]⟩))
  · have hraw := not_not.mp hraw
    have hzero := not_not.mp hzero
    exact .inr (.inr (.inr ⟨hraw, hzero, by rw [hraw, hzero]⟩))

theorem sweeps_debounceRow (D : ℕ) (raw : Rows rows w) (elapsed : BitVec 8) :
    Sweeps (debounceRow D raw elapsed) rowCell (fun row => rowPass D elapsed (raw row)) := by
  constructor
  · intro s row
    simp only [debounceRow, rowCell, rowPass]
    split_ifs <;> simp_all
  · intro s row j hj
    simp only [debounceRow, rowCell]
    split_ifs <;> simp [Function.update_of_ne hj]

/-- Between two scans every row has been compared, and a row that differs counts down. -/
structure Invariant (s : Scanned (Debouncer rows w) rows w 16) : Prop where
  lastTime : s.debouncer.lastTime = s.clock
  lastRaw : ∀ row, s.debouncer.lastRaw row = s.raw row
  countdown : ∀ row, s.debouncer.cooked row ≠ s.raw row → s.debouncer.countdowns row ≠ 0

theorem init_invariant : Invariant (init : Scanned (Debouncer rows w) rows w 16) :=
  ⟨rfl, fun _ => rfl, fun _ h => absurd rfl h⟩

theorem scan_lastTime (D : ℕ) (s : Scanned (Debouncer rows w) rows w 16) (c : Scan rows w 16) :
    (s.scan (debounce D) c).debouncer.lastTime = (s.scan (debounce D) c).clock := by
  refine foldl_keeps (p := Debouncer.lastTime) (fun s row => ?_) _ _
  simp only [debounceRow]
  split_ifs <;> rfl

theorem scan_row (D : ℕ) {s : Scanned (Debouncer rows w) rows w 16}
    (h : s.debouncer.lastTime = s.clock) (c : Scan rows w 16) (row : Fin rows) :
    rowCell (s.scan (debounce D) c).debouncer row =
      rowPass D (clampElapsed c.elapsed) (c.raw row) (rowCell s.debouncer row) := by
  have helapsed : s.clock + c.elapsed - s.debouncer.lastTime = c.elapsed := by
    rw [h, BitVec.add_comm, BitVec.add_sub_cancel]
  simp only [Scanned.scan, debounce, helapsed]
  exact (sweeps_debounceRow D c.raw (clampElapsed c.elapsed)).foldl_of_mem
    (List.nodup_finRange rows) (List.mem_finRange row) _

theorem scan_cases (D : ℕ) {s : Scanned (Debouncer rows w) rows w 16} (inv : Invariant s)
    (c : Scan rows w 16) (row : Fin rows) :
    let s' := (s.scan (debounce D) c).debouncer
    s'.lastRaw row = c.raw row ∧
      ((c.raw row ≠ s.raw row ∧ s'.countdowns row = BitVec.ofNat 8 D ∧
          s'.cooked row = s.debouncer.cooked row) ∨
        (c.raw row = s.raw row ∧ clampElapsed c.elapsed < s.debouncer.countdowns row ∧
          s'.countdowns row = s.debouncer.countdowns row - clampElapsed c.elapsed ∧
          s'.cooked row = s.debouncer.cooked row) ∨
        (c.raw row = s.raw row ∧ s.debouncer.countdowns row ≤ clampElapsed c.elapsed ∧
          s.debouncer.countdowns row ≠ 0 ∧ s'.countdowns row = 0 ∧ s'.cooked row = c.raw row) ∨
        (c.raw row = s.raw row ∧ s.debouncer.countdowns row = 0 ∧ s'.countdowns row = 0 ∧
          s'.cooked row = s.debouncer.cooked row)) := by
  intro s'
  have hrow := scan_row D inv.lastTime c row
  rw [rowCell, rowCell, inv.lastRaw] at hrow
  obtain ⟨hraw, h⟩ | ⟨hraw, hlt, h⟩ | ⟨hraw, hle, hne, h⟩ | ⟨hraw, hzero, h⟩ :=
    rowPass_cases D (clampElapsed c.elapsed) (c.raw row) (s.debouncer.countdowns row) (s.raw row)
      (s.debouncer.cooked row) <;> rw [h, Prod.mk.injEq, Prod.mk.injEq] at hrow <;>
    obtain ⟨hk, hlast, hcooked⟩ := hrow
  · exact ⟨hlast, .inl ⟨hraw, hk, hcooked⟩⟩
  · exact ⟨hlast, .inr (.inl ⟨hraw, hlt, hk, hcooked⟩)⟩
  · exact ⟨hlast, .inr (.inr (.inl ⟨hraw, hle, hne, hk, hcooked⟩))⟩
  · exact ⟨hlast, .inr (.inr (.inr ⟨hraw, hzero, hk, hcooked⟩))⟩

theorem Invariant.scan {D : ℕ} (h1 : 1 ≤ D) (h2 : D ≤ 255)
    {s : Scanned (Debouncer rows w) rows w 16} (inv : Invariant s) (c : Scan rows w 16) :
    Invariant (s.scan (debounce D) c) := by
  have hD : BitVec.ofNat 8 D ≠ 0 := ofNat_ne_zero h1 (by omega)
  refine ⟨scan_lastTime D s c, fun row => (scan_cases D inv c row).1, fun row hne => ?_⟩
  change (s.scan (debounce D) c).debouncer.cooked row ≠ c.raw row at hne
  obtain ⟨-, ⟨hraw, hk, hcooked⟩ | ⟨hraw, hlt, hk, hcooked⟩ | ⟨hraw, hle, hpos, hk, hcooked⟩ |
    ⟨hraw, hzero, hk, hcooked⟩⟩ := scan_cases D inv c row
  · rw [hk]
    exact hD
  · rw [hk]
    bv_omega
  · exact absurd hcooked hne
  · rw [hcooked, hraw] at hne
    exact absurd hzero (inv.countdown row hne)

/-- A row that stays is taken over once its countdown has elapsed. -/
theorem Invariant.converges {D : ℕ} (h1 : 1 ≤ D) (h2 : D ≤ 255)
    {s : Scanned (Debouncer rows w) rows w 16} (inv : Invariant s) {ds : List (Scan rows w 16)}
    (hds : ∀ d ∈ ds, d.raw = s.raw) {row : Fin rows}
    (hsum : (s.debouncer.countdowns row).toNat ≤ (ds.map fun d => d.elapsed.toNat).sum) :
    (s.run (debounce D) ds).debouncer.cooked row = s.raw row := by
  induction ds generalizing s with
  | nil =>
    by_contra hne
    exact inv.countdown row hne (BitVec.eq_of_toNat_eq (Nat.le_zero.mp hsum))
  | cons d ds ih =>
    obtain ⟨hraw, hds⟩ := List.forall_mem_cons.mp hds
    have hraw' : (s.scan (debounce D) d).raw = s.raw := hraw
    have hclamp := toNat_clampElapsed d.elapsed
    rw [Scanned.run_cons, ← hraw']
    refine ih (inv.scan h1 h2 d) (by rwa [hraw']) ?_
    rw [List.map_cons, List.sum_cons] at hsum
    obtain ⟨-, ⟨hne, -⟩ | ⟨-, hlt, hk, -⟩ | ⟨-, -, -, hk, -⟩ | ⟨-, -, hk, -⟩⟩ :=
      scan_cases D inv d row
    · exact absurd (congrFun hraw row) hne
    · have hsub := BitVec.toNat_sub_of_le (BitVec.le_of_lt hlt)
      rw [hk, hsub]
      omega
    · rw [hk]
      exact Nat.zero_le _
    · rw [hk]
      exact Nat.zero_le _

/-- With a debounce time of zero, no row ever counts down and no row is taken over. -/
theorem scan_zero {s : Scanned (Debouncer rows w) rows w 16}
    (h : s.debouncer.countdowns = fun _ => 0) (c : Scan rows w 16) :
    (s.scan (debounce 0) c).debouncer.countdowns = (fun _ => 0) ∧
      (s.scan (debounce 0) c).debouncer.cooked = s.debouncer.cooked := by
  let p (s' : Debouncer rows w) : Prop :=
    s'.countdowns = (fun _ => 0) ∧ s'.cooked = s.debouncer.cooked
  have hstep (e : BitVec 8) (s' : Debouncer rows w) (row : Fin rows) (hs : p s') :
      p (debounceRow 0 c.raw e s' row) := by
    obtain ⟨hk, hcooked⟩ := hs
    have hlt : ¬ e < s'.countdowns row := by
      rw [hk]
      bv_omega
    have hzero : ¬ s'.countdowns row ≠ 0 := by simp [hk]
    simp only [debounceRow]
    rw [if_neg hlt, if_neg hzero]
    split_ifs
    · refine ⟨?_, hcooked⟩
      rw [hk]
      exact Function.update_eq_self row _
    · exact ⟨hk, hcooked⟩
  have hfold (e : BitVec 8) (l : List (Fin rows)) (s' : Debouncer rows w) (hs : p s') :
      p (l.foldl (debounceRow 0 c.raw e) s') := by
    induction l generalizing s' with
    | nil => exact hs
    | cons row l ih => exact ih _ (hstep e s' row hs)
  exact hfold _ _ _ ⟨h, rfl⟩

end SymDeferPr

end Qmk.Debounce
