import Mathlib.Algebra.Group.Nat.Defs
import Mathlib.Data.BitVec
import Mathlib.Data.List.DropRight
import Qmk.Throttle

/-! # The matrix of the other half

The master takes the other half for lost after `SPLIT_MAX_CONNECTION_ERRORS` failures in a row and
releases its keys. From then on it tries again every `SPLIT_CONNECTION_CHECK_TIMEOUT` milliseconds.
-/

namespace Qmk.Split

open Throttle

section Model

/-- The two settings of `split_util.c`. -/
structure ConnectionConfig where
  maxConnectionErrors : ℕ
  connectionCheckTimeout : ℕ

/-- `connection_errors`, `connection_check_timer`, `last_connected`, and the rows of the other half
in `matrix`. -/
structure OtherHalf (M : Type*) where
  connectionErrors : UInt8 := 0
  connectionCheckTimer : UInt16 := 0
  lastConnected : Bool := false
  thatHand : M

/-- A scan of the master: the times before and after `transport_master`, what that returns if it is
called, and the matrix that it delivers. -/
structure Scan (M : Type*) where
  now : ℕ
  done : ℕ
  okay : Bool
  slaveMatrix : M

variable {M : Type*} [Zero M] (cfg : ConnectionConfig)

def isTransportConnected (errors : UInt8) : Bool := errors.toNat < cfg.maxConnectionErrors

/-- Whether the build has the throttle. -/
def Throttles : Prop := 0 < cfg.maxConnectionErrors ∧ 0 < cfg.connectionCheckTimeout

instance : Decidable (Throttles cfg) := inferInstanceAs (Decidable (_ ∧ _))

/-- `timer_elapsed(connection_check_timer) < SPLIT_CONNECTION_CHECK_TIMEOUT` while disconnected. -/
def Blocked (now : ℕ) (s : OtherHalf M) : Prop :=
  Throttles cfg ∧ isTransportConnected cfg s.connectionErrors = false ∧
    (UInt16.ofNat now - s.connectionCheckTimer).toNat < cfg.connectionCheckTimeout

instance (now : ℕ) (s : OtherHalf M) : Decidable (Blocked cfg now s) :=
  inferInstanceAs (Decidable (_ ∧ _ ∧ _))

def transportMasterIfConnected (scan : Scan M) (s : OtherHalf M) : Bool × M × OtherHalf M :=
  if Blocked cfg scan.now s then (false, 0, s)
  else if cfg.maxConnectionErrors = 0 then (true, scan.slaveMatrix, s)
  else if scan.okay then (true, scan.slaveMatrix, { s with connectionErrors := 0 })
  else
    let errors := s.connectionErrors
    let errors := if errors < 255 then errors + 1 else errors
    if cfg.connectionCheckTimeout = 0 then
      -- the count does not outlive the failure
      (true, scan.slaveMatrix, { s with connectionErrors := 0 })
    else
      let connected := isTransportConnected cfg errors
      let timer := if connected then s.connectionCheckTimer else .ofNat scan.done
      (connected, scan.slaveMatrix,
        { s with connectionErrors := errors, connectionCheckTimer := timer })

/-- `matrix_post_scan` on the master, which returns whether the matrix has changed. -/
def matrixPostScan [DecidableEq M] (scan : Scan M) (s : OtherHalf M) : Bool × OtherHalf M :=
  let (connected, slaveMatrix, s) := transportMasterIfConnected cfg scan s
  if connected then
    let changed := s.thatHand ≠ slaveMatrix
    let s := { s with lastConnected := true }
    (changed, if changed then { s with thatHand := slaveMatrix } else s)
  else if s.lastConnected then (true, { s with lastConnected := false, thatHand := 0 })
  else (false, s)

variable [DecidableEq M]

def runPostScans (s : OtherHalf M) (scans : List (Scan M)) : OtherHalf M :=
  scans.foldl (fun s scan => (matrixPostScan cfg scan s).2) s

/-- The scans in which the master calls `transport_master`. -/
def attempts (s : OtherHalf M) : List (Scan M) → List (Scan M)
  | [] => []
  | scan :: scans =>
    let rest := attempts (matrixPostScan cfg scan s).2 scans
    if Blocked cfg scan.now s then rest else scan :: rest

def failures (tried : List (Scan M)) : ℕ := (tried.rtakeWhile fun scan => !scan.okay).length

def LostAfter (tried : List (Scan M)) : Prop :=
  Throttles cfg ∧ cfg.maxConnectionErrors ≤ min 255 (failures tried)

instance (tried : List (Scan M)) : Decidable (LostAfter cfg tried) :=
  inferInstanceAs (Decidable (_ ∧ _))

/-- The keys of a half that is lost are up, and those of the other one as in the last attempt. -/
def shown (tried : List (Scan M)) : M :=
  if LostAfter cfg tried then 0 else (tried.getLast?.map (·.slaveMatrix)).getD 0

end Model

section Shown

variable {M : Type*} {cfg : ConnectionConfig} {s : OtherHalf M} {tried : List (Scan M)}
  {scan : Scan M}

theorem failures_concat : failures (tried ++ [scan]) =
    if scan.okay then 0 else failures tried + 1 := by
  rw [failures, List.rtakeWhile_concat]
  cases scan.okay
  · simp [failures]
  · rfl

def triedAfter (cfg : ConnectionConfig) (s : OtherHalf M) (tried : List (Scan M))
    (scan : Scan M) : List (Scan M) :=
  if Blocked cfg scan.now s then tried else tried ++ [scan]

def Counts (cfg : ConnectionConfig) (tried : List (Scan M)) (errors : UInt8) : Prop :=
  Throttles cfg → errors.toNat = min 255 (failures tried)

theorem Counts.lost_iff {errors : UInt8} (h : Counts cfg tried errors)
    (hthrottles : Throttles cfg) :
    LostAfter cfg tried ↔ isTransportConnected cfg errors = false := by
  rw [LostAfter, isTransportConnected, h hthrottles, decide_eq_false_iff_not, not_lt]
  exact and_iff_right hthrottles

def nextErrors (okay : Bool) (errors : UInt8) : UInt8 :=
  if okay then 0 else if errors < 255 then errors + 1 else errors

theorem Counts.next {errors : UInt8} (h : Counts cfg tried errors) :
    Counts cfg (tried ++ [scan]) (nextErrors scan.okay errors) := by
  intro hthrottles
  have herrors := h hthrottles
  have hlast : (255 : UInt8).toNat = 255 := rfl
  rw [failures_concat, nextErrors]
  cases scan.okay with
  | true => rfl
  | false =>
    simp only [Bool.false_eq_true, if_false]
    split_ifs with hlt
    · rw [UInt8.lt_iff_toNat_lt, hlast] at hlt
      rw [UInt8.toNat_add, UInt8.toNat_one, Nat.mod_eq_of_lt (by omega)]
      omega
    · rw [UInt8.lt_iff_toNat_lt, hlast] at hlt
      omega

variable [Zero M]

/-- An attempt delivers the matrix, and says whether the half is lost. -/
theorem transport_of_not_blocked (h : ¬ Blocked cfg scan.now s) :
    ∃ connected errors timer, transportMasterIfConnected cfg scan s =
        (connected, scan.slaveMatrix,
          { s with connectionErrors := errors, connectionCheckTimer := timer }) ∧
      (connected = false ↔ Throttles cfg ∧ isTransportConnected cfg errors = false) ∧
      (Throttles cfg → errors = nextErrors scan.okay s.connectionErrors) := by
  rw [transportMasterIfConnected, if_neg h]
  by_cases hmax : cfg.maxConnectionErrors = 0
  · have hnot : ¬ Throttles cfg := fun h => h.1.ne' hmax
    rw [if_pos hmax]
    exact ⟨true, s.connectionErrors, s.connectionCheckTimer, rfl, by simp [hnot],
      fun h => (hnot h).elim⟩
  · rw [if_neg hmax, nextErrors]
    cases scan.okay with
    | true =>
      have hzero : isTransportConnected cfg 0 = true :=
        decide_eq_true (Nat.pos_of_ne_zero hmax)
      exact ⟨true, 0, s.connectionCheckTimer, rfl, by simp [hzero], fun _ => rfl⟩
    | false =>
      by_cases htimeout : cfg.connectionCheckTimeout = 0
      · have hnot : ¬ Throttles cfg := fun h => h.2.ne' htimeout
        simp only [htimeout, if_true, Bool.false_eq_true, if_false]
        exact ⟨true, 0, s.connectionCheckTimer, rfl, by simp [hnot], fun h => (hnot h).elim⟩
      · have hthrottles : Throttles cfg :=
          ⟨Nat.pos_of_ne_zero hmax, Nat.pos_of_ne_zero htimeout⟩
        simp only [htimeout, Bool.false_eq_true, if_false]
        exact ⟨_, _, _, rfl, by simp [hthrottles], fun _ => rfl⟩

structure Agrees (cfg : ConnectionConfig) (tried : List (Scan M)) (s : OtherHalf M) : Prop where
  counts : Counts cfg tried s.connectionErrors
  thatHand : s.thatHand = shown cfg tried
  lastConnected : s.lastConnected = false → tried = [] ∨ LostAfter cfg tried

theorem Agrees.zero (h : Agrees cfg tried s) (hlast : s.lastConnected = false) :
    s.thatHand = 0 := by
  rw [h.thatHand, shown]
  obtain rfl | hlost := h.lastConnected hlast
  · split_ifs <;> rfl
  · rw [if_pos hlost]

theorem shown_concat (h : ¬ LostAfter cfg (tried ++ [scan])) :
    shown cfg (tried ++ [scan]) = scan.slaveMatrix := by
  rw [shown, if_neg h, List.getLast?_concat]
  rfl

/-- After boot, with all keys up. -/
def OtherHalf.boot : OtherHalf M := { thatHand := 0 }

theorem agrees_boot : Agrees cfg [] (.boot : OtherHalf M) where
  counts _ := rfl
  thatHand := by
    rw [shown]
    split_ifs <;> rfl
  lastConnected _ := .inl rfl

variable [DecidableEq M] {t : OtherHalf M} {slaveMatrix : M}

theorem postScan_of_connected
    (h : transportMasterIfConnected cfg scan s = (true, slaveMatrix, t)) :
    (matrixPostScan cfg scan s).2 = { t with lastConnected := true, thatHand := slaveMatrix } := by
  rw [matrixPostScan, h]
  simp only [if_true]
  split_ifs with hchanged
  · rfl
  · rw [← not_not.1 hchanged]

theorem postScan_of_lost (h : transportMasterIfConnected cfg scan s = (false, slaveMatrix, t)) :
    (matrixPostScan cfg scan s).2 =
      { t with lastConnected := false, thatHand := if t.lastConnected then 0 else t.thatHand } := by
  rw [matrixPostScan, h]
  obtain ⟨errors, timer, lastConnected, thatHand⟩ := t
  cases lastConnected <;> rfl

theorem Agrees.postScan (h : Agrees cfg tried s) (scan : Scan M) :
    Agrees cfg (triedAfter cfg s tried scan) (matrixPostScan cfg scan s).2 := by
  have hzero : (if s.lastConnected then 0 else s.thatHand) = 0 := by
    cases hlast : s.lastConnected with
    | true => rfl
    | false => exact h.zero hlast
  rw [triedAfter]
  by_cases hblocked : Blocked cfg scan.now s
  · have hlost := (h.counts.lost_iff hblocked.1).2 hblocked.2.1
    have htransport : transportMasterIfConnected cfg scan s = (false, 0, s) := if_pos hblocked
    rw [if_pos hblocked, postScan_of_lost htransport, hzero]
    exact ⟨h.counts, (if_pos hlost).symm, fun _ => .inr hlost⟩
  · obtain ⟨connected, errors, timer, htransport, hconnected, herrors⟩ :=
      transport_of_not_blocked hblocked
    have hcounts : Counts cfg (tried ++ [scan]) errors := fun hthrottles => by
      rw [herrors hthrottles]
      exact h.counts.next hthrottles
    have hlost : connected = false ↔ LostAfter cfg (tried ++ [scan]) := by
      rw [hconnected]
      constructor
      · rintro ⟨hthrottles, herrors⟩
        exact (hcounts.lost_iff hthrottles).2 herrors
      · intro hlost
        exact ⟨hlost.1, (hcounts.lost_iff hlost.1).1 hlost⟩
    rw [if_neg hblocked]
    cases connected with
    | true =>
      have hnot : ¬ LostAfter cfg (tried ++ [scan]) := fun h => Bool.noConfusion (hlost.2 h)
      rw [postScan_of_connected htransport]
      exact ⟨hcounts, (shown_concat hnot).symm, fun h => Bool.noConfusion h⟩
    | false =>
      have hlost := hlost.1 rfl
      rw [postScan_of_lost htransport]
      exact ⟨hcounts, hzero.trans (if_pos hlost).symm, fun _ => .inr hlost⟩

theorem Agrees.runPostScans (h : Agrees cfg tried s) (scans : List (Scan M)) :
    Agrees cfg (tried ++ attempts cfg s scans) (runPostScans cfg s scans) := by
  induction scans generalizing s tried with
  | nil => rwa [attempts, List.append_nil]
  | cons scan scans ih =>
    have hrest := ih (h.postScan scan)
    rw [triedAfter] at hrest
    rw [attempts]
    split_ifs at hrest ⊢ with hblocked
    · exact hrest
    · rwa [List.append_assoc] at hrest

/-- In each run the keys of the other half are up once it is lost, and as in the last attempt
otherwise. -/
theorem thatHand_eq (scans : List (Scan M)) :
    (runPostScans cfg .boot scans).thatHand = shown cfg (attempts cfg .boot scans) :=
  (agrees_boot.runPostScans scans).thatHand

theorem Agrees.le_failures {scans : List (Scan M)} (h : Agrees cfg tried s)
    (hfail : ∀ scan ∈ scans, scan.okay = false) :
    min cfg.maxConnectionErrors (failures tried + scans.length) ≤
      failures (tried ++ attempts cfg s scans) := by
  induction scans generalizing s tried with
  | nil =>
    rw [attempts, List.append_nil]
    exact min_le_right _ _
  | cons scan scans ih =>
    obtain ⟨hscan, hfail⟩ := List.forall_mem_cons.1 hfail
    have hrest := ih (h.postScan scan) hfail
    rw [triedAfter] at hrest
    rw [attempts, List.length_cons]
    split_ifs at hrest ⊢ with hblocked
    · have hlost := ((h.counts.lost_iff hblocked.1).2 hblocked.2.1).2
      omega
    · have hfailures : failures (tried ++ [scan]) = failures tried + 1 := by
        rw [failures_concat, if_neg (by simp [hscan])]
      rw [List.append_assoc, hfailures] at hrest
      rwa [← Nat.add_assoc, Nat.add_right_comm]

/-- No key of the other half stays down when it does not answer any more. -/
theorem thatHand_released {before scans : List (Scan M)} (hthrottles : Throttles cfg)
    (hmax : cfg.maxConnectionErrors ≤ 255) (hfail : ∀ scan ∈ scans, scan.okay = false)
    (hlong : cfg.maxConnectionErrors ≤ scans.length) :
    (Split.runPostScans cfg .boot (before ++ scans)).thatHand = 0 := by
  have hbefore : Agrees cfg _ (Split.runPostScans cfg .boot before) :=
    agrees_boot.runPostScans before
  have hlost : LostAfter cfg ([] ++ attempts cfg .boot before ++
      attempts cfg (Split.runPostScans cfg .boot before) scans) := by
    have hle := hbefore.le_failures hfail
    exact ⟨hthrottles, by omega⟩
  have hend := (hbefore.runPostScans scans).thatHand
  rw [shown, if_pos hlost] at hend
  rwa [Split.runPostScans, List.foldl_append]

/-- A key is down when the half is lost. Without a timeout the half is never taken for lost. -/
theorem thatHand_released_unplugged :
    let scan (now : ℕ) (okay : Bool) : Scan (BitVec 8) := ⟨now, now + 1, okay, 4⟩
    let scans := [scan 10 true] ++ [scan 20 false, scan 30 false]
    (Split.runPostScans ⟨2, 500⟩ .boot scans).thatHand = 0 ∧
      (Split.runPostScans ⟨2, 0⟩ .boot scans).thatHand = 4 :=
  ⟨thatHand_released (by decide) (by decide) (by decide) (by decide), by decide⟩

end Shown

section Returns

variable {M : Type*} {cfg : ConnectionConfig} {s : OtherHalf M} {scan first last : Scan M}
  {scans : List (Scan M)}

/-- The master does not wait to try again. -/
def Connected (cfg : ConnectionConfig) (s : OtherHalf M) : Prop :=
  ¬ (Throttles cfg ∧ isTransportConnected cfg s.connectionErrors = false)

theorem blocked_iff : Blocked cfg scan.now s ↔ ¬ Connected cfg s ∧
    ¬ Late (2 ^ 16) cfg.connectionCheckTimeout scan.now s.connectionCheckTimer.toNat := by
  rw [Blocked, Connected, not_not, and_assoc, Late, not_le, UInt16.toNat_sub,
    UInt16.toNat_ofNat']

variable [Zero M] [DecidableEq M]

theorem postScan_of_blocked (h : Blocked cfg scan.now s) :
    (matrixPostScan cfg scan s).2 =
      { s with lastConnected := false, thatHand := if s.lastConnected then 0 else s.thatHand } :=
  postScan_of_lost (if_pos h)

theorem postScan_of_okay (h : ¬ Blocked cfg scan.now s) (hokay : scan.okay = true) :
    Connected cfg (matrixPostScan cfg scan s).2 ∧
      (matrixPostScan cfg scan s).2.thatHand = scan.slaveMatrix := by
  obtain ⟨connected, errors, timer, htransport, hconnected, herrors⟩ := transport_of_not_blocked h
  have hnot : ¬ (Throttles cfg ∧ isTransportConnected cfg errors = false) := by
    rintro ⟨hthrottles, hdisconnected⟩
    rw [herrors hthrottles, hokay, isTransportConnected] at hdisconnected
    exact of_decide_eq_false hdisconnected hthrottles.1
  cases connected with
  | true =>
    rw [postScan_of_connected htransport]
    exact ⟨hnot, rfl⟩
  | false => exact absurd (hconnected.1 rfl) hnot

variable (M cfg) in
theorem throttled_postScan : Throttled (2 ^ 16) cfg.connectionCheckTimeout (fun _ => True)
    (fun scan : Scan M => scan.okay = true) (fun s scan => (matrixPostScan cfg scan s).2)
    (fun scan => scan.now) (fun s => s.connectionCheckTimer.toNat) (Connected cfg) where
  inv_poll _ _ := trivial
  done_of_late := by
    intro s scan _ hokay hlate
    exact (postScan_of_okay (fun h => (blocked_iff.1 h).2 hlate) hokay).1
  done_poll := by
    intro s scan _ hokay hdone
    exact (postScan_of_okay (fun h => (blocked_iff.1 h).1 hdone) hokay).1
  done_or_last := by
    intro s scan _ hokay
    by_cases hblocked : Blocked cfg scan.now s
    · rw [postScan_of_blocked hblocked]
      exact .inr rfl
    · exact .inl (postScan_of_okay hblocked hokay).1

/-- Whatever has happened before, the keys of a half that answers again are shown when the timeout
has elapsed. -/
theorem thatHand_returns (hokay : ∀ scan ∈ first :: (scans ++ [last]), scan.okay = true)
    (htimes : (first :: (scans ++ [last])).IsChain fun c d =>
      Soon (2 ^ 16) cfg.connectionCheckTimeout c.now d.now)
    (hlate : first.now + cfg.connectionCheckTimeout ≤ last.now) :
    (runPostScans cfg s (first :: (scans ++ [last]))).thatHand = last.slaveMatrix := by
  have hdone := (throttled_postScan M cfg).done_foldl (s := s) trivial hokay htimes hlate
  rw [runPostScans]
  rw [← List.cons_append, List.foldl_append] at hdone ⊢
  have hopen : ¬ Blocked cfg last.now
      ((first :: scans).foldl (fun s scan => (matrixPostScan cfg scan s).2) s) := by
    intro hblocked
    refine (blocked_iff.1 hblocked).1 ?_
    have hsame := postScan_of_blocked hblocked
    rw [List.foldl_cons, List.foldl_nil, hsame] at hdone
    exact hdone
  exact (postScan_of_okay hopen (hokay last (by simp))).2

theorem thatHand_returns_plugged :
    let lost : OtherHalf (BitVec 8) := ⟨10, 100, false, 0⟩
    let scan (now : ℕ) : Scan (BitVec 8) := ⟨now, now + 1, true, 4⟩
    (runPostScans ⟨10, 500⟩ lost [scan 200, scan 500]).thatHand = 0 ∧
      (runPostScans ⟨10, 500⟩ lost [scan 200, scan 500, scan 700]).thatHand = 4 := by
  refine ⟨by decide, ?_⟩
  exact @thatHand_returns _ ⟨10, 500⟩ _ ⟨200, 201, true, 4⟩ ⟨700, 701, true, 4⟩
    [⟨500, 501, true, 4⟩] _ _ (by decide) (by decide) (by decide)

end Returns

end Qmk.Split
