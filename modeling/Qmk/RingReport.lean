import Mathlib.Data.Fintype.Pi
import Mathlib.Data.List.DropRight
import Mathlib.Data.List.FinRange
import Mathlib.Tactic.IntervalCases
import Qmk.RingBuffer

/-! # Reports that keep the keys in a ring

With `RING_BUFFERED_6KRO_REPORT_ENABLE` the six places of a report are a ring in the order of the
presses. A key that is released leaves a hole, which is closed when the ring is full. The report is
a queue of the held keys, as long as it is not cleared while it holds one.
-/

namespace Qmk.RingReport

open Qmk.Ring (move walk listFrom)

abbrev reportKeys : ℕ := 6

/-- A place of the report, and the values of `cb_head` and `cb_tail`. -/
abbrev Place := Fin reportKeys

/-- The keys of the report, with `cb_head`, `cb_tail` and `cb_count`. -/
structure State where
  keys : Place → UInt8 := fun _ => 0
  head : Place := ⟨0, by decide⟩
  tail : Place := ⟨0, by decide⟩
  count : Int8 := 0
  deriving DecidableEq

def roInc (a : Place) : Place := a + 1

def roDec (a : Place) : Place := a - 1

def roSub (a : Place) (b : ℕ) : Place := a - Fin.ofNat reportKeys b

/-- The places that a loop `do ... i = RO_INC(i); while (i != tail)` visits. -/
def places (i tail : Place) : List Place :=
  walk (if i = tail then reportKeys else Fin.val (tail - i)) i

def isKeyPressed (key : UInt8) (s : State) : Bool :=
  key ≠ 0 ∧ ∃ i, s.keys i = key

/-- One round of the loop that closes the holes: the keys, the first hole and the number of holes
so far. -/
def shiftKey (r : (Place → UInt8) × Place × ℕ) (i : Place) : (Place → UInt8) × Place × ℕ :=
  if r.1 i ≠ 0 then
    (Function.update (Function.update r.1 r.2.1 (r.1 i)) i 0, roInc r.2.1, r.2.2)
  else (r.1, r.2.1, r.2.2 + 1)

/-- The keys behind the hole move up. -/
def leftShift (empty : Place) (s : State) : State :=
  let r := (places (roInc empty) s.tail).foldl shiftKey (s.keys, empty, 1)
  { s with keys := r.1, tail := roSub s.tail r.2.2 }

def makeRoom (s : State) : State :=
  if s.count ≠ 0 ∧ s.tail = s.head then
    match (places s.head s.tail).find? fun i => s.keys i = 0 with
    | none => { s with head := roInc s.head, count := s.count - 1 }
    | some empty => leftShift empty s
  else s

def pushKey (code : UInt8) (s : State) : State :=
  { s with
    keys := Function.update s.keys s.tail code
    tail := roInc s.tail
    count := s.count + 1 }

def addKeyByte (code : UInt8) (s : State) : State :=
  if s.count ≠ 0 ∧ ∃ i ∈ places s.head s.tail, s.keys i = code then s
  else pushKey code (makeRoom s)

/-- The loop that takes the tail back over the holes in front of it. It ends when it has come round
to the head, which six rounds are enough for. -/
def dropTail (keys : Place → UInt8) (head : Place) : ℕ → Place → Place
  | 0, tail => tail
  | rounds + 1, tail =>
    if keys (roDec (roDec tail)) ≠ 0 ∨ roDec tail = head then roDec tail
    else dropTail keys head rounds (roDec tail)

def delKeyByte (code : UInt8) (s : State) : State :=
  if s.count = 0 then s
  else
    match (places s.head s.tail).find? fun i => s.keys i = code with
    | none => s
    | some i =>
      let s := { s with keys := Function.update s.keys i 0, count := s.count - 1 }
      let s := if s.count = 0 then { s with head := ⟨0, by decide⟩, tail := ⟨0, by decide⟩ } else s
      if i = roDec s.tail then { s with tail := dropTail s.keys s.head reportKeys s.tail } else s

def clearKeysFromReport (s : State) : State := { s with keys := fun _ => 0 }

/-- A keycode other than `KC_NO`. -/
abbrev Key := {code : UInt8 // code ≠ 0}

inductive Op
  | add (key : Key)
  | del (key : Key)
  | clear
  deriving DecidableEq

def step (s : State) : Op → State
  | .add key => addKeyByte key s
  | .del key => delKeyByte key s
  | .clear => clearKeysFromReport s

def run (s : State) (ops : List Op) : State := ops.foldl step s

section Queues

/-- A queue of at most `n` different keys, the oldest one first. -/
structure KeyQueue (κ : Type*) (n : ℕ) where
  keys : List κ
  nodup : keys.Nodup
  length_le : keys.length ≤ n

variable {κ : Type*} {n : ℕ}

def KeyQueue.empty (κ : Type*) (n : ℕ) : KeyQueue κ n := ⟨[], List.nodup_nil, n.zero_le⟩

theorem KeyQueue.nodup_concat {q : KeyQueue κ n} {key : κ} (h : key ∉ q.keys) :
    (q.keys ++ [key]).Nodup := by
  rw [List.nodup_append]
  refine ⟨q.nodup, List.nodup_singleton key, ?_⟩
  rintro a ha b hb rfl
  exact h (List.mem_singleton.mp hb ▸ ha)

variable [DecidableEq κ]

/-- A key that is not held comes to the end, in place of the oldest one if the queue is full. -/
def KeyQueue.add (q : KeyQueue κ n) (key : κ) : KeyQueue κ n :=
  if h : key ∈ q.keys then q
  else if hroom : q.keys.length < n then
    ⟨q.keys ++ [key], nodup_concat h, List.length_append.trans_le hroom⟩
  else ⟨(q.keys ++ [key]).tail, (nodup_concat h).tail, by simpa using q.length_le⟩

def KeyQueue.del (q : KeyQueue κ n) (key : κ) : KeyQueue κ n :=
  ⟨q.keys.filter (· ≠ key), q.nodup.filter _, (List.length_filter_le ..).trans q.length_le⟩

def KeyQueue.step (q : KeyQueue Key n) : Op → KeyQueue Key n
  | .add key => q.add key
  | .del key => q.del key
  | .clear => .empty Key n

def KeyQueue.run (q : KeyQueue Key n) (ops : List Op) : KeyQueue Key n :=
  ops.foldl KeyQueue.step q

end Queues

def State.occupied (s : State) : ℕ := (List.finRange reportKeys).countP fun i => s.keys i ≠ 0

/-- The report holds the keys of the queue, each at one place, and `cb_count` is the number of
places in use. -/
structure Shows (s : State) (q : KeyQueue Key reportKeys) : Prop where
  keys : ∀ key : Key, isKeyPressed key s = true ↔ key ∈ q.keys
  occupied : s.occupied = q.keys.length
  count : s.count.toInt = s.occupied

def ClearsEmpty (s : State) : Op → Prop
  | .clear => s.count = 0
  | .add _ | .del _ => True

instance (s : State) (op : Op) : Decidable (ClearsEmpty s op) :=
  match op with
  | .clear => inferInstanceAs (Decidable (_ = _))
  | .add _ | .del _ => isTrue trivial

/-- Every step of a run meets the condition. -/
def AllClearEmpty : State → List Op → Prop
  | _, [] => True
  | s, op :: ops => ClearsEmpty s op ∧ AllClearEmpty (step s op) ops

instance instDecidableAllClearEmpty : (s : State) → (ops : List Op) →
    Decidable (AllClearEmpty s ops)
  | _, [] => isTrue trivial
  | s, op :: ops =>
    have := instDecidableAllClearEmpty (step s op) ops
    inferInstanceAs (Decidable (_ ∧ _))

section Places

variable {i tail head : Place} {k : ℕ}

theorem places_move (hpos : k ≠ 0) (hk : k ≤ reportKeys) (i : Place) :
    places i (move k i) = walk k i := by
  rcases Nat.lt_or_ge k reportKeys with hlt | hge
  · have hk' : k ≤ 5 := Nat.le_of_lt_succ hlt
    have hne : i ≠ move k i := (Ring.move_ne_self hpos hk' i).symm
    rw [places, if_neg hne, Ring.val_move_sub hk' i]
  · obtain rfl : k = reportKeys := le_antisymm hk hge
    have hsame : i = move reportKeys i := (Ring.move_all i).symm
    rw [places, if_pos hsame]

theorem move_roInc (k : ℕ) (i : Place) : roInc (move k i) = move (k + 1) i :=
  (Ring.move_succ k i).symm

theorem roDec_move (k : ℕ) (i : Place) : roDec (move (k + 1) i) = move k i := by
  rw [Ring.move_succ, roDec, add_sub_cancel_right]

theorem move_eq_add (k : ℕ) (i : Place) : move k i = i + Fin.ofNat reportKeys k := by
  induction k with
  | zero => exact (add_zero i).symm
  | succ k ih =>
    have hone : Fin.ofNat reportKeys (k + 1) = Fin.ofNat reportKeys k + 1 := by
      ext
      simp [Fin.val_add]
    rw [Ring.move_succ, ih, hone, add_assoc]

theorem roSub_of_add (hk : k ≤ reportKeys) (i : Place) :
    roSub i k = move (reportKeys - k) i := by
  have hback : move k (move (reportKeys - k) i) = i := by
    rw [← Ring.move_add, Nat.sub_add_cancel hk]
    exact Ring.move_all i
  rw [roSub, sub_eq_iff_eq_add, ← move_eq_add]
  exact hback.symm

theorem walk_perm (i : Place) : (walk reportKeys i).Perm (List.finRange reportKeys) := by
  revert i
  decide

end Places

section Holes

variable {keys : Place → UInt8} {head : Place} {pre post : List UInt8}

theorem occupied_eq (s : State) :
    s.occupied = (listFrom s.keys reportKeys s.head).countP (· ≠ 0) := by
  rw [Ring.listFrom_eq_map, List.countP_map, State.occupied]
  exact ((walk_perm s.head).countP_eq _).symm

theorem mem_listFrom (s : State) (key : UInt8) :
    key ∈ listFrom s.keys reportKeys s.head ↔ ∃ i, s.keys i = key := by
  simp only [Ring.listFrom_eq_map, List.mem_map, (walk_perm s.head).mem_iff, List.mem_finRange,
    true_and]

theorem find_walk (p : UInt8 → Bool) (keys : Place → UInt8) (k : ℕ) (head : Place) :
    (((walk k head).find? fun i => p (keys i)) = none ∧ ∀ x ∈ listFrom keys k head, p x = false) ∨
    ∃ pre x post, listFrom keys k head = pre ++ x :: post ∧ p x = true ∧
      (∀ y ∈ pre, p y = false) ∧
      ((walk k head).find? fun i => p (keys i)) = some (move pre.length head) := by
  induction k generalizing head with
  | zero => exact .inl ⟨rfl, fun x hx => absurd hx List.not_mem_nil⟩
  | succ k ih =>
    cases hp : p (keys head) with
    | true =>
      have hfind : ((walk (k + 1) head).find? fun i => p (keys i)) = some head :=
        List.find?_cons_of_pos hp
      exact .inr ⟨[], keys head, listFrom keys k (head + 1), rfl, hp,
        fun y hy => absurd hy List.not_mem_nil, hfind⟩
    | false =>
      have hfind : ((walk (k + 1) head).find? fun i => p (keys i)) =
          (walk k (head + 1)).find? fun i => p (keys i) :=
        List.find?_cons_of_neg (by simp [hp])
      rcases ih (head + 1) with ⟨hnone, hall⟩ | ⟨pre, x, post, hlist, hx, hpre, hsome⟩
      · refine .inl ⟨hfind.trans hnone, ?_⟩
        rintro x (_ | ⟨_, hx⟩)
        · exact hp
        · exact hall x hx
      · refine .inr ⟨keys head :: pre, x, post, ?_, hx, ?_, hfind.trans hsome⟩
        · rw [Ring.listFrom, hlist, List.cons_append]
        · rintro y (_ | ⟨_, hy⟩)
          · exact hp
          · exact hpre y hy

theorem keys_move {x : UInt8} (hring : listFrom keys reportKeys head = pre ++ x :: post) :
    keys (move pre.length head) = x := by
  have hlen : pre.length + (post.length + 1) = reportKeys := by
    have hlength := congrArg List.length hring
    rw [Ring.length_listFrom, List.length_append, List.length_cons] at hlength
    exact hlength.symm
  rw [← hlen, Ring.listFrom_add] at hring
  exact (List.cons.inj (List.append_inj hring (Ring.length_listFrom _ _ _)).2).1

theorem listFrom_write {x : UInt8} (y : UInt8)
    (hring : listFrom keys reportKeys head = pre ++ x :: post) :
    listFrom (Function.update keys (move pre.length head) y) reportKeys head =
      pre ++ y :: post := by
  have hlen : pre.length < reportKeys := by
    have hlength := congrArg List.length hring
    rw [Ring.length_listFrom, List.length_append, List.length_cons] at hlength
    omega
  rw [Ring.listFrom_update_move hlen le_rfl, hring]
  simp

/-- The loop that closes the holes, with the keys `pre` and `holes` holes behind it. -/
theorem foldl_shiftKey {holes k : ℕ} (hholes : 0 < holes)
    (hring : listFrom keys reportKeys head = pre ++ List.replicate holes 0 ++ post) :
    ∃ keys', (walk post.length (move (pre.length + holes) head)).foldl shiftKey
        (keys, move pre.length head, k) =
          (keys', move (pre ++ post.filter (· ≠ 0)).length head, k + post.countP (· = 0)) ∧
      listFrom keys' reportKeys head =
        pre ++ post.filter (· ≠ 0) ++ List.replicate (holes + post.countP (· = 0)) 0 := by
  induction post generalizing keys pre holes k with
  | nil => exact ⟨keys, by simp [walk], by simpa using hring⟩
  | cons x post ih =>
    have hx : keys (move (pre.length + holes) head) = x := by
      have hkey := keys_move hring
      rwa [List.length_append, List.length_replicate] at hkey
    rw [List.length_cons, walk, List.foldl_cons, ← Ring.move_succ, shiftKey]
    by_cases hzero : x = 0
    · subst hzero
      have hnext : listFrom keys reportKeys head =
          pre ++ List.replicate (holes + 1) 0 ++ post := by
        rw [hring, List.replicate_succ', List.append_assoc, List.append_assoc, List.append_assoc]
        rfl
      obtain ⟨keys', hfold, hlist⟩ := ih (k := k + 1) holes.succ_pos hnext
      refine ⟨keys', ?_, ?_⟩
      · rw [if_neg (by simp [hx])]
        simpa [Nat.add_assoc, Nat.add_comm 1] using hfold
      · simpa [Nat.add_assoc, Nat.add_comm 1] using hlist
    · obtain ⟨holes, rfl⟩ := Nat.exists_eq_succ_of_ne_zero hholes.ne'
      have hfirst : listFrom (Function.update keys (move pre.length head) x) reportKeys head =
          (pre ++ x :: List.replicate holes 0) ++ x :: post := by
        have hholes : listFrom keys reportKeys head =
            pre ++ 0 :: (List.replicate holes 0 ++ x :: post) := by
          simpa [List.replicate_succ] using hring
        simpa using listFrom_write x hholes
      have hsecond := listFrom_write 0 hfirst
      have hlength : (pre ++ x :: List.replicate holes 0).length = pre.length + (holes + 1) := by
        simp
      rw [hlength] at hsecond
      have hnext : listFrom (Function.update (Function.update keys (move pre.length head) x)
          (move (pre.length + (holes + 1)) head) 0) reportKeys head =
            (pre ++ [x]) ++ List.replicate (holes + 1) 0 ++ post := by
        simpa [List.replicate_succ'] using hsecond
      obtain ⟨keys', hfold, hlist⟩ := ih (k := k) holes.succ_pos hnext
      refine ⟨keys', ?_, ?_⟩
      · rw [if_pos (by simpa [hx] using hzero)]
        dsimp only
        rw [hx, move_roInc]
        have hmove : (pre ++ [x]).length + (holes + 1) = pre.length + (holes + 1) + 1 := by
          simp
          omega
        rw [hmove] at hfold
        simpa [hzero] using hfold
      · simpa [hzero] using hlist

end Holes

section Counts

variable {k : ℕ}

theorem ofNat_eq_zero (hk : k ≤ reportKeys) : Int8.ofNat k = 0 ↔ k = 0 := by
  interval_cases k <;> decide

theorem ofNat_succ_sub (hk : k < reportKeys) : Int8.ofNat (k + 1) - 1 = Int8.ofNat k := by
  interval_cases k <;> decide

theorem ofNat_add_one (hk : k < reportKeys) : Int8.ofNat k + 1 = Int8.ofNat (k + 1) := by
  interval_cases k <;> decide

theorem toInt_ofNat (hk : k ≤ reportKeys) : (Int8.ofNat k).toInt = k := by
  interval_cases k <;> decide

end Counts

section Regions

variable {s : State} {region : List UInt8} {code : UInt8} {held : List UInt8}

def keysOf (region : List UInt8) : List UInt8 := region.filter (· ≠ 0)

/-- From the head to the tail is the region, which may have holes but not at its end, and the other
places are free. -/
structure Ringed (s : State) (region : List UInt8) : Prop where
  ring : listFrom s.keys reportKeys s.head =
    region ++ List.replicate (reportKeys - region.length) 0
  length_le : region.length ≤ reportKeys
  tail : s.tail = move region.length s.head
  last : region.getLast? ≠ some 0
  count : s.count = Int8.ofNat (keysOf region).length

/-- Like `Ringed`, but there is a place for a key at the tail, which need not be free. -/
structure Roomy (s : State) (region : List UInt8) : Prop where
  ring : ∃ y, listFrom s.keys reportKeys s.head =
    region ++ y :: List.replicate (reportKeys - (region.length + 1)) 0
  length_lt : region.length < reportKeys
  tail : s.tail = move region.length s.head
  count : s.count = Int8.ofNat (keysOf region).length

theorem ringed_start : Ringed {} [] :=
  ⟨by decide, by decide, rfl, by decide, by decide⟩

theorem keysOf_append (pre post : List UInt8) : keysOf (pre ++ post) = keysOf pre ++ keysOf post :=
  List.filter_append ..

theorem length_keysOf_le (region : List UInt8) : (keysOf region).length ≤ region.length :=
  List.length_filter_le ..

theorem length_keysOf_add (region : List UInt8) :
    (keysOf region).length + region.countP (· = 0) = region.length := by
  induction region with
  | nil => rfl
  | cons x region ih =>
    simp only [keysOf, ne_eq, decide_not] at ih ⊢
    by_cases hx : x = 0
    · simp [hx]
      omega
    · simp [hx]
      omega

theorem mem_keysOf (hcode : code ≠ 0) : code ∈ keysOf region ↔ code ∈ region := by
  simp [keysOf, hcode]

theorem keysOf_eq_self (h : ∀ x ∈ region, x ≠ 0) : keysOf region = region := by
  simpa [keysOf, List.filter_eq_self] using h

theorem Ringed.keysOf_eq_nil (h : Ringed s region) : keysOf region = [] ↔ region = [] := by
  constructor
  · intro hnil
    by_contra hne
    have hlast : region.getLast hne ∈ region := List.getLast_mem hne
    have hzero : region.getLast hne = 0 := by
      by_contra hcode
      have hmem := (mem_keysOf hcode).mpr hlast
      rw [hnil] at hmem
      exact List.not_mem_nil hmem
    exact h.last (by rw [List.getLast?_eq_getLast_of_ne_nil hne, hzero])
  · rintro rfl
    rfl

theorem Ringed.count_eq_zero (h : Ringed s region) : s.count = 0 ↔ region = [] := by
  rw [h.count, ofNat_eq_zero ((length_keysOf_le region).trans h.length_le),
    List.length_eq_zero_iff, h.keysOf_eq_nil]

theorem Ringed.listFrom (h : Ringed s region) :
    Ring.listFrom s.keys region.length s.head = region := by
  have hring := h.ring
  rw [← Nat.add_sub_cancel' h.length_le, Ring.listFrom_add] at hring
  exact (List.append_inj hring (Ring.length_listFrom ..)).1

theorem Ringed.places (h : Ringed s region) (hne : region ≠ []) :
    places s.head s.tail = walk region.length s.head := by
  rw [h.tail]
  exact places_move (fun hzero => hne (List.length_eq_zero_iff.mp hzero)) h.length_le s.head

theorem Ringed.tail_eq_head (h : Ringed s region) (hne : region ≠ []) :
    s.tail = s.head ↔ region.length = reportKeys := by
  rw [h.tail]
  constructor
  · intro heq
    by_contra hnot
    have hlt : region.length < reportKeys := lt_of_le_of_ne h.length_le hnot
    exact Ring.move_ne_self (fun hzero => hne (List.length_eq_zero_iff.mp hzero))
      (Nat.le_of_lt_succ hlt) s.head heq
  · intro hfull
    rw [hfull]
    exact Ring.move_all s.head

theorem Ringed.roomy (h : Ringed s region) (hlt : region.length < reportKeys) : Roomy s region where
  ring := by
    refine ⟨0, ?_⟩
    rw [h.ring, ← List.replicate_succ]
    congr 2
    omega
  length_lt := hlt
  tail := h.tail
  count := h.count

theorem Ringed.leftShift {pre post : List UInt8} (h : Ringed s (pre ++ 0 :: post))
    (hfull : (pre ++ 0 :: post).length = reportKeys) (hpre : ∀ x ∈ pre, x ≠ 0) :
    Roomy (leftShift (move pre.length s.head) s) (keysOf (pre ++ 0 :: post)) := by
  have hlen : pre.length + 1 + post.length = reportKeys := by
    rw [List.length_append, List.length_cons] at hfull
    omega
  have hpost : post ≠ [] := by
    rintro rfl
    exact h.last (by simp)
  have htail : s.tail = move post.length (move (pre.length + 1) s.head) := by
    rw [h.tail, hfull, ← Ring.move_add, hlen]
  have hplaces : RingReport.places (roInc (move pre.length s.head)) s.tail =
      walk post.length (move (pre.length + 1) s.head) := by
    rw [move_roInc, htail]
    exact places_move (fun hzero => hpost (List.length_eq_zero_iff.mp hzero)) (by omega) _
  have hring : Ring.listFrom s.keys reportKeys s.head = pre ++ List.replicate 1 0 ++ post := by
    simpa [hfull] using h.ring
  obtain ⟨keys, hfold, hlist⟩ := foldl_shiftKey (k := 1) Nat.one_pos hring
  have hkeys : keysOf (pre ++ 0 :: post) = pre ++ post.filter (· ≠ 0) := by
    rw [keysOf_append, keysOf_eq_self hpre]
    simp [keysOf]
  have hholes : (pre ++ post.filter (· ≠ 0)).length + (1 + post.countP (· = 0)) = reportKeys := by
    have hsplit : (post.filter (· ≠ 0)).length + post.countP (· = 0) = post.length :=
      length_keysOf_add post
    rw [List.length_append]
    omega
  have hshift : RingReport.leftShift (move pre.length s.head) s = { s with
      keys := keys
      tail := roSub s.tail (1 + post.countP (· = 0)) } := by
    simp only [RingReport.leftShift, hplaces, hfold]
  rw [hshift, hkeys]
  constructor
  · refine ⟨0, ?_⟩
    rw [hlist, ← List.replicate_succ]
    congr 2
    omega
  · omega
  · have hback : s.tail = s.head := by
      rw [h.tail, hfull]
      exact Ring.move_all s.head
    have hmove : reportKeys - (1 + post.countP (· = 0)) =
        (pre ++ post.filter (· ≠ 0)).length := by omega
    change roSub s.tail _ = move _ s.head
    rw [hback, roSub_of_add (by omega), hmove]
  · have hsame : keysOf (pre ++ post.filter (· ≠ 0)) = keysOf (pre ++ 0 :: post) := by
      rw [← hkeys]
      simp [keysOf]
    rw [hsame]
    exact h.count

/-- Before a key is added there is room at the tail; for that a queue of six keys loses its oldest
one. -/
theorem Ringed.makeRoom (h : Ringed s region) : ∃ region', Roomy (makeRoom s) region' ∧
    keysOf region' =
      if (keysOf region).length < reportKeys then keysOf region else (keysOf region).tail := by
  by_cases hfull : s.count ≠ 0 ∧ s.tail = s.head
  · have hne : region ≠ [] := mt h.count_eq_zero.mpr hfull.1
    have hlen : region.length = reportKeys := (h.tail_eq_head hne).mp hfull.2
    have hregion : Ring.listFrom s.keys reportKeys s.head = region := hlen ▸ h.listFrom
    have hplaces : RingReport.places s.head s.tail = walk reportKeys s.head := hlen ▸ h.places hne
    have hroom : RingReport.makeRoom s =
        match (walk reportKeys s.head).find? fun i => decide (s.keys i = 0) with
        | none => { s with head := roInc s.head, count := s.count - 1 }
        | some empty => RingReport.leftShift empty s := by
      rw [RingReport.makeRoom, if_pos hfull, hplaces]
    rcases find_walk (fun x => decide (x = 0)) s.keys reportKeys s.head with
      ⟨hnone, hall⟩ | ⟨pre, x, post, hlist, hx, hpre, hsome⟩
    · -- No hole: the head moves on over the oldest key.
      rw [hregion] at hall
      have hkeys : keysOf region = region := keysOf_eq_self fun x hx => by simpa using hall x hx
      obtain ⟨x, rest, rfl⟩ := List.exists_cons_of_ne_nil hne
      have hrest : rest.length + 1 = reportKeys := hlen
      have hkeys' : keysOf rest = rest :=
        keysOf_eq_self fun y hy => by simpa using hall y (List.mem_cons_of_mem x hy)
      refine ⟨rest, ?_, ?_⟩
      · rw [hroom, hnone]
        constructor
        · refine ⟨x, ?_⟩
          have hsplit : Ring.listFrom s.keys 5 (s.head + 1) = rest := (List.cons.inj hregion).2
          have hlast := Ring.listFrom_update_last s.keys s.head (s.keys s.head)
          rw [Function.update_eq_self, hsplit, (List.cons.inj hregion).1] at hlast
          simpa [hrest, roInc] using hlast
        · omega
        · change s.tail = move rest.length (s.head + 1)
          rw [h.tail]
          rfl
        · change s.count - 1 = _
          rw [h.count, hkeys, hkeys', List.length_cons, ofNat_succ_sub (by omega)]
      · rw [hkeys, if_neg (by rw [hlen]; exact lt_irrefl _)]
        exact hkeys'
    · -- Some holes, which are closed.
      rw [hregion] at hlist
      have hzero : x = 0 := by simpa using hx
      subst hlist hzero
      refine ⟨keysOf (pre ++ 0 :: post), ?_, ?_⟩
      · rw [hroom, hsome]
        exact h.leftShift hlen fun y hy => by simpa using hpre y hy
      · have hlt : (keysOf (pre ++ 0 :: post)).length < reportKeys := by
          have hadd := length_keysOf_add (pre ++ 0 :: post)
          rw [hlen, List.countP_append, List.countP_cons] at hadd
          simp only [decide_true, if_true] at hadd
          omega
        rw [if_pos hlt]
        exact keysOf_eq_self fun y hy => by simpa using (List.mem_filter.mp hy).2
  · have hlt : region.length < reportKeys := by
      by_contra hge
      have hlen : region.length = reportKeys := le_antisymm h.length_le (not_lt.mp hge)
      have hne : region ≠ [] := List.ne_nil_of_length_pos (hlen ▸ Nat.succ_pos 5)
      exact hfull ⟨mt h.count_eq_zero.mp hne, (h.tail_eq_head hne).mpr hlen⟩
    refine ⟨region, ?_, ?_⟩
    · rw [RingReport.makeRoom, if_neg hfull]
      exact h.roomy hlt
    · rw [if_pos ((length_keysOf_le region).trans_lt hlt)]

theorem Roomy.pushKey (h : Roomy s region) (hcode : code ≠ 0) :
    Ringed (pushKey code s) (region ++ [code]) := by
  obtain ⟨y, hring⟩ := h.ring
  have hkeys : keysOf (region ++ [code]) = keysOf region ++ [code] := by
    rw [keysOf_append]
    simp [keysOf, hcode]
  have hwrite := listFrom_write code hring
  constructor
  · change Ring.listFrom (Function.update s.keys s.tail code) reportKeys s.head = _
    rw [h.tail, hwrite]
    simp
  · rw [List.length_append]
    exact h.length_lt
  · change roInc s.tail = _
    rw [h.tail, move_roInc, List.length_append]
    rfl
  · simpa using hcode
  · change s.count + 1 = _
    rw [h.count, hkeys, List.length_append]
    exact ofNat_add_one ((length_keysOf_le region).trans_lt h.length_lt)

theorem Ringed.found_iff (h : Ringed s region) :
    (s.count ≠ 0 ∧ ∃ i ∈ RingReport.places s.head s.tail, s.keys i = code) ↔
      code ∈ region := by
  by_cases hne : region = []
  · simp [h.count_eq_zero.mpr hne, hne]
  · rw [h.places hne, and_iff_right (mt h.count_eq_zero.mp hne)]
    have hmem := List.mem_map (f := s.keys) (l := walk region.length s.head) (b := code)
    rw [← Ring.listFrom_eq_map, h.listFrom] at hmem
    exact hmem.symm

/-- The tail goes back over the holes in front of it, up to the last key. -/
theorem dropTail_eq {keys : Place → UInt8} {head : Place} {pre : List UInt8} {x : UInt8}
    (hx : x ≠ 0) (holes rounds rest : ℕ) (hrounds : holes < rounds)
    (hring : Ring.listFrom keys reportKeys head =
      pre ++ x :: List.replicate (holes + 1 + rest) 0) :
    dropTail keys head rounds (move (pre.length + 1 + (holes + 1)) head) =
      move (pre.length + 1) head := by
  have hlen : pre.length + 1 + (holes + 1 + rest) = reportKeys := by
    have hlength := congrArg List.length hring
    rw [Ring.length_listFrom, List.length_append, List.length_cons, List.length_replicate]
      at hlength
    omega
  induction holes generalizing rounds rest with
  | zero =>
    obtain ⟨rounds, rfl⟩ := Nat.exists_eq_succ_of_ne_zero hrounds.ne'
    have hback : roDec (move (pre.length + 1 + 1) head) = move (pre.length + 1) head :=
      roDec_move _ _
    have hkey : keys (roDec (move (pre.length + 1) head)) ≠ 0 := by
      rw [roDec_move, keys_move hring]
      exact hx
    rw [dropTail, hback, if_pos (.inl hkey)]
  | succ holes ih =>
    obtain ⟨rounds, rfl⟩ := Nat.exists_eq_succ_of_ne_zero (Nat.ne_zero_of_lt hrounds)
    have hback : roDec (move (pre.length + 1 + (holes + 1 + 1)) head) =
        move (pre.length + 1 + (holes + 1)) head := roDec_move _ _
    have hkey : keys (roDec (move (pre.length + 1 + (holes + 1)) head)) = 0 := by
      have hring' : Ring.listFrom keys reportKeys head =
          (pre ++ x :: List.replicate holes 0) ++ 0 :: List.replicate (1 + rest) 0 := by
        rw [hring, List.append_assoc, List.cons_append, ← List.replicate_succ,
          List.replicate_append_replicate]
        congr 3
        omega
      have hmove := keys_move hring'
      have hlength : (pre ++ x :: List.replicate holes 0).length = pre.length + 1 + holes := by
        simp
        omega
      rw [hlength] at hmove
      rw [show pre.length + 1 + (holes + 1) = pre.length + 1 + holes + 1 from rfl, roDec_move]
      exact hmove
    have hhead : move (pre.length + 1 + (holes + 1)) head ≠ head :=
      Ring.move_ne_self (by omega) (Nat.le_of_lt_succ (by omega : _ < reportKeys)) head
    rw [dropTail, hback, if_neg (by simp [hkey, hhead])]
    refine ih rounds (rest + 1) (Nat.lt_of_succ_lt_succ hrounds) ?_ (by omega)
    rw [hring]
    congr 3
    omega

theorem dropTail_free {keys : Place → UInt8} (hkeys : ∀ i, keys i = 0) :
    dropTail keys ⟨0, by decide⟩ reportKeys ⟨0, by decide⟩ = ⟨0, by decide⟩ := by
  have hfree : keys = fun _ => 0 := funext hkeys
  rw [hfree]
  decide

theorem exists_last_key (hne : keysOf region ≠ []) :
    ∃ pre x holes, x ≠ 0 ∧ region = pre ++ x :: List.replicate holes 0 := by
  induction region using List.reverseRecOn with
  | nil => exact absurd rfl hne
  | append_singleton region x ih =>
    by_cases hx : x = 0
    · have hrest : keysOf region ≠ [] := by
        simpa [keysOf_append, keysOf, hx] using hne
      obtain ⟨pre, y, holes, hy, rfl⟩ := ih hrest
      refine ⟨pre, y, holes + 1, hy, ?_⟩
      rw [hx, List.replicate_succ', List.append_assoc, List.cons_append]
    · exact ⟨region, x, 0, hx, rfl⟩

theorem keysOf_erase {pre : List UInt8} (post : List UInt8) (hcode : code ≠ 0) (hpre : code ∉ pre) :
    (keysOf (pre ++ code :: post)).erase code = keysOf (pre ++ 0 :: post) := by
  have hnot : code ∉ keysOf pre := fun hmem => hpre (List.mem_of_mem_filter hmem)
  have hcons : keysOf (code :: post) = code :: keysOf post := by simp [keysOf, hcode]
  have hhole : keysOf (0 :: post) = keysOf post := by simp [keysOf]
  rw [keysOf_append, keysOf_append, hcons, hhole, List.erase_append_right _ hnot,
    List.erase_cons_head]

/-- The place of a key becomes a hole; if it was the last one, the tail goes back. -/
theorem Ringed.makeHole {pre post : List UInt8} (h : Ringed s (pre ++ code :: post))
    (hkeys : keysOf (pre ++ 0 :: post) ≠ []) (t : State)
    (ht : t = { s with
      keys := Function.update s.keys (move pre.length s.head) 0
      count := Int8.ofNat (keysOf (pre ++ 0 :: post)).length }) :
    ∃ region', Ringed
      (if move pre.length s.head = roDec t.tail then
        { t with tail := dropTail t.keys t.head reportKeys t.tail } else t) region' ∧
      keysOf region' = keysOf (pre ++ 0 :: post) := by
  have hlen : pre.length + 1 + post.length ≤ reportKeys := by
    have hle := h.length_le
    rw [List.length_append, List.length_cons] at hle
    omega
  have hlength : (pre ++ code :: post).length = pre.length + post.length + 1 := by
    rw [List.length_append, List.length_cons]
    omega
  have hring : Ring.listFrom t.keys reportKeys t.head = pre ++ 0 :: (post ++
      List.replicate (reportKeys - (pre.length + post.length + 1)) 0) := by
    have hold := h.ring
    rw [hlength, List.append_assoc, List.cons_append] at hold
    rw [ht]
    exact listFrom_write 0 hold
  have htail : t.tail = move (pre.length + post.length + 1) t.head := by
    rw [ht]
    exact hlength ▸ h.tail
  have hdec : move pre.length s.head = roDec t.tail ↔ post = [] := by
    have hhead : t.head = s.head := by rw [ht]
    rw [htail, roDec_move, hhead]
    constructor
    · intro heq
      have hsame := Ring.move_inj (Nat.le_of_lt_succ (by omega : pre.length < reportKeys))
        (Nat.le_of_lt_succ (by omega : pre.length + post.length < reportKeys)) heq
      exact List.length_eq_zero_iff.mp (by omega)
    · rintro rfl
      rfl
  by_cases hpost : post = []
  · subst hpost
    have hpre : keysOf pre ≠ [] := by simpa [keysOf_append, keysOf] using hkeys
    obtain ⟨front, x, holes, hx, rfl⟩ := exists_last_key hpre
    have hfront : (front ++ x :: List.replicate holes 0).length = front.length + 1 + holes := by
      simp
      omega
    have hsame : keysOf (front ++ [x]) =
        keysOf ((front ++ x :: List.replicate holes 0) ++ [0]) := by
      rw [List.append_assoc, List.cons_append, ← List.replicate_succ']
      simp [keysOf, hx]
    refine ⟨front ++ [x], ?_, hsame⟩
    have hring' : Ring.listFrom t.keys reportKeys t.head =
        front ++ x ::
          List.replicate (holes + 1 + (reportKeys - (front.length + 1 + holes + 1))) 0 := by
      rw [hring, hfront, List.append_assoc, List.cons_append, List.nil_append,
        ← List.replicate_succ, List.replicate_append_replicate]
      congr 3
      simp only [List.length_nil]
      omega
    have hdrop := dropTail_eq hx holes reportKeys _ (by omega) hring'
    have hmove : t.tail = move (front.length + 1 + (holes + 1)) t.head := by
      rw [htail, hfront]
      rfl
    rw [if_pos (hdec.mpr rfl), hmove, hdrop]
    constructor
    · change Ring.listFrom t.keys reportKeys t.head = _
      rw [hring', List.append_assoc, List.length_append, List.singleton_append]
      congr 3
      simp only [List.length_singleton]
      omega
    · rw [List.length_append, List.length_singleton]
      omega
    · rw [List.length_append]
      rfl
    · simpa using hx
    · rw [hsame, ht]
  · rw [if_neg (mt hdec.mp hpost)]
    refine ⟨pre ++ 0 :: post, ?_, rfl⟩
    have hlength' : (pre ++ 0 :: post).length = pre.length + post.length + 1 := by
      rw [List.length_append, List.length_cons]
      omega
    constructor
    · rw [hring, hlength', List.append_assoc, List.cons_append]
    · omega
    · rw [htail, hlength']
    · have hlast := h.last
      obtain ⟨y, rest, rfl⟩ := List.exists_cons_of_ne_nil hpost
      simpa using hlast
    · rw [ht]

theorem Ringed.delKeyByte (h : Ringed s region) (hcode : code ≠ 0) :
    ∃ region', Ringed (delKeyByte code s) region' ∧
      keysOf region' = (keysOf region).erase code := by
  by_cases hne : region = []
  · refine ⟨region, ?_, ?_⟩
    · rwa [RingReport.delKeyByte, if_pos (h.count_eq_zero.mpr hne)]
    · rw [hne]
      rfl
  · have hdel : RingReport.delKeyByte code s =
        match (walk region.length s.head).find? fun i => decide (s.keys i = code) with
        | none => s
        | some i =>
          let s := { s with keys := Function.update s.keys i 0, count := s.count - 1 }
          let s := if s.count = 0 then
            { s with head := ⟨0, by decide⟩, tail := ⟨0, by decide⟩ } else s
          if i = roDec s.tail then
            { s with tail := dropTail s.keys s.head reportKeys s.tail } else s := by
      rw [RingReport.delKeyByte, if_neg (mt h.count_eq_zero.mp hne), h.places hne]
    rcases find_walk (fun x => decide (x = code)) s.keys region.length s.head with
      ⟨hnone, hall⟩ | ⟨pre, x, post, hlist, hx, hpre, hsome⟩
    · rw [h.listFrom] at hall
      have hnot : code ∉ keysOf region := by
        intro hmem
        have hfalse := hall code (List.mem_of_mem_filter hmem)
        simp at hfalse
      refine ⟨region, ?_, (List.erase_of_not_mem hnot).symm⟩
      rw [hdel, hnone]
      exact h
    · rw [h.listFrom] at hlist
      have hxcode : x = code := by simpa using hx
      subst hlist hxcode
      have hnot : x ∉ pre := by
        intro hmem
        have hfalse := hpre x hmem
        simp at hfalse
      have hkeys := keysOf_erase post hcode hnot
      have hlength : (keysOf (pre ++ x :: post)).length =
          (keysOf (pre ++ 0 :: post)).length + 1 := by
        have hmem : x ∈ keysOf (pre ++ x :: post) := (mem_keysOf hcode).mpr (by simp)
        rw [← hkeys, List.length_erase_of_mem hmem]
        have hpos := List.length_pos_of_mem hmem
        omega
      have hle := (length_keysOf_le _).trans h.length_le
      have hcount : s.count - 1 = Int8.ofNat (keysOf (pre ++ 0 :: post)).length := by
        rw [h.count, hlength, ofNat_succ_sub (by omega)]
      rw [hdel, hsome, hkeys]
      dsimp only
      have hlast : Int8.ofNat (keysOf (pre ++ 0 :: post)).length = 0 ↔
          keysOf (pre ++ 0 :: post) = [] := by
        rw [ofNat_eq_zero (by omega), List.length_eq_zero_iff]
      rw [hcount]
      by_cases hempty : keysOf (pre ++ 0 :: post) = []
      · -- The last key of all: the ring starts again at its first place.
        have hfree : ∀ i, Function.update s.keys (move pre.length s.head) 0 i = 0 := by
          intro i
          have hold := h.ring
          rw [List.append_assoc, List.cons_append] at hold
          have hwrite := listFrom_write 0 hold
          have hmem := (mem_listFrom { s with
            keys := Function.update s.keys (move pre.length s.head) 0 } _).mpr ⟨i, rfl⟩
          change Function.update s.keys (move pre.length s.head) 0 i ∈ Ring.listFrom
            (Function.update s.keys (move pre.length s.head) 0) reportKeys s.head at hmem
          rw [hwrite] at hmem
          by_contra hi
          have hin : Function.update s.keys (move pre.length s.head) 0 i ∈
              keysOf (pre ++ 0 :: post) := by
            rw [mem_keysOf hi]
            simp only [List.mem_append, List.mem_cons, List.mem_replicate] at hmem ⊢
            rcases hmem with hp | h0 | hp | ⟨-, h0⟩
            · exact .inl hp
            · exact absurd h0 hi
            · exact .inr (.inr hp)
            · exact absurd h0 hi
          rw [hempty] at hin
          exact List.not_mem_nil hin
        refine ⟨[], ?_, by rw [hempty]; rfl⟩
        rw [if_pos (hlast.mpr hempty)]
        have hstart : (if move pre.length s.head = roDec ⟨0, by decide⟩ then
            dropTail (Function.update s.keys (move pre.length s.head) 0) ⟨0, by decide⟩ reportKeys
              ⟨0, by decide⟩ else ⟨0, by decide⟩) = (⟨0, by decide⟩ : Place) := by
          rw [dropTail_free hfree, ite_self]
        have hzero : Function.update s.keys (move pre.length s.head) 0 = fun _ => 0 :=
          funext hfree
        split_ifs with hi
        · rw [if_pos hi] at hstart
          rw [hstart, hzero, hempty]
          exact ringed_start
        · rw [hzero, hempty]
          exact ringed_start
      · rw [if_neg (mt hlast.mp hempty)]
        exact h.makeHole hempty _ rfl

end Regions

section Runs

variable {s : State} {q : KeyQueue Key reportKeys}

/-- The keys of the region are those of the queue, in the same order. -/
def Refines (s : State) (q : KeyQueue Key reportKeys) : Prop :=
  ∃ region, Ringed s region ∧ keysOf region = q.keys.map Subtype.val

theorem mem_map_key {keys : List Key} {key : Key} : key.val ∈ keys.map Subtype.val ↔ key ∈ keys :=
  List.mem_map_of_injective Subtype.val_injective

theorem refines_start : Refines {} (.empty Key reportKeys) := ⟨[], ringed_start, rfl⟩

theorem Refines.add (h : Refines s q) (key : Key) : Refines (addKeyByte key s) (q.add key) := by
  obtain ⟨region, hringed, hkeys⟩ := h
  have hmem : key.val ∈ region ↔ key ∈ q.keys := by
    rw [← mem_keysOf key.property, hkeys, mem_map_key]
  by_cases hheld : key ∈ q.keys
  · refine ⟨region, ?_, ?_⟩
    · rwa [addKeyByte, if_pos (hringed.found_iff.mpr (hmem.mpr hheld))]
    · rw [hkeys, KeyQueue.add, dif_pos hheld]
  · obtain ⟨region', hroomy, hkeys'⟩ := hringed.makeRoom
    refine ⟨region' ++ [key.val], ?_, ?_⟩
    · rw [addKeyByte, if_neg fun hfound => hheld (hmem.mp (hringed.found_iff.mp hfound))]
      exact hroomy.pushKey key.property
    · have hlength : (keysOf region).length = q.keys.length := by rw [hkeys, List.length_map]
      have hpush : keysOf [key.val] = [key.val] := by simp [keysOf, key.property]
      rw [keysOf_append, hkeys', hpush, hlength, KeyQueue.add, dif_neg hheld, hkeys]
      split_ifs with hroom
      · rw [List.map_append]
        rfl
      · have hne : q.keys ≠ [] := by
          rintro hnil
          rw [hnil] at hroom
          exact hroom (Nat.succ_pos 5)
        change _ = ((q.keys ++ [key]).tail).map Subtype.val
        rw [List.tail_append_of_ne_nil hne, List.map_append, List.map_tail]
        rfl

theorem Refines.del (h : Refines s q) (key : Key) : Refines (delKeyByte key s) (q.del key) := by
  obtain ⟨region, hringed, hkeys⟩ := h
  obtain ⟨region', hringed', hkeys'⟩ := hringed.delKeyByte key.property
  refine ⟨region', hringed', ?_⟩
  have hnodup : (q.keys.map Subtype.val).Nodup := q.nodup.map Subtype.val_injective
  rw [hkeys', hkeys, hnodup.erase_eq_filter, List.filter_map, KeyQueue.del]
  congr 1
  apply List.filter_congr
  intro k _
  simp [Subtype.ext_iff, bne]
  rfl

theorem Refines.clear (h : Refines s q) (hc : s.count = 0) :
    Refines (clearKeysFromReport s) (.empty Key reportKeys) := by
  obtain ⟨region, hringed, -⟩ := h
  obtain rfl := hringed.count_eq_zero.mp hc
  refine ⟨[], ?_, rfl⟩
  constructor
  · simp [clearKeysFromReport, Ring.listFrom_eq_map, walk, List.replicate]
  · exact Nat.zero_le _
  · exact hringed.tail
  · exact hringed.last
  · exact hringed.count

theorem Refines.step (h : Refines s q) {op : Op} (hop : ClearsEmpty s op) :
    Refines (step s op) (q.step op) := by
  cases op with
  | add key => exact h.add key
  | del key => exact h.del key
  | clear => exact h.clear hop

theorem Refines.shows (h : Refines s q) : Shows s q := by
  obtain ⟨region, hringed, hkeys⟩ := h
  have hoccupied : s.occupied = (keysOf region).length := by
    rw [occupied_eq, hringed.ring, List.countP_append, keysOf, List.countP_eq_length_filter]
    simp
  have hlength : (keysOf region).length = q.keys.length := by rw [hkeys, List.length_map]
  constructor
  · intro key
    have hpressed : isKeyPressed key s = true ↔ key.val ∈ region := by
      rw [isKeyPressed, decide_eq_true_iff, and_iff_right key.property, ← mem_listFrom,
        hringed.ring]
      simp [key.property]
    rw [hpressed, ← mem_keysOf key.property, hkeys, mem_map_key]
  · exact hoccupied.trans hlength
  · rw [hoccupied, hringed.count]
    exact toInt_ofNat (hlength ▸ q.length_le)

theorem not_shows_clear (hc : s.count ≠ 0) : ¬ Shows (clearKeysFromReport s) q := by
  intro h
  have hzero : (clearKeysFromReport s).occupied = 0 := by
    simp [State.occupied, clearKeysFromReport]
  have hcount := h.count
  rw [hzero] at hcount
  exact hc (Int8.toInt_inj.mp hcount)

/-- In all states of a run the report is a queue of the held keys, and `cb_count` the number of its
places in use, exactly if the report is only cleared when it holds no key. -/
theorem shows_iff (ops : List Op) :
    (∀ pre rest, ops = pre ++ rest →
      Shows (run {} pre) ((KeyQueue.empty Key reportKeys).run pre)) ↔ AllClearEmpty {} ops := by
  have hstart := refines_start
  generalize ({} : State) = s, KeyQueue.empty Key reportKeys = q at hstart ⊢
  induction ops generalizing s q with
  | nil =>
    refine iff_of_true ?_ trivial
    intro pre rest hops
    rw [(List.append_eq_nil_iff.mp hops.symm).1]
    exact hstart.shows
  | cons op ops ih =>
    constructor
    · intro hall
      have hop : ClearsEmpty s op := by
        have hshows : Shows (step s op) (q.step op) := hall [op] ops rfl
        cases op with
        | add key => exact trivial
        | del key => exact trivial
        | clear =>
          by_contra hc
          exact not_shows_clear hc hshows
      refine ⟨hop, (ih _ _ (hstart.step hop)).mp fun pre rest hops => ?_⟩
      exact hall (op :: pre) rest (by rw [hops, List.cons_append])
    · rintro ⟨hop, hall⟩ pre rest hops
      cases pre with
      | nil => exact hstart.shows
      | cons op' pre =>
        obtain ⟨rfl, rfl⟩ := List.cons.inj hops
        exact (ih _ _ (hstart.step hop)).mpr hall pre rest rfl

/-- The report is cleared while one key is held. -/
theorem clear_keeps_count : ¬ ∀ (ops : List Op),
    Shows (run {} ops) ((KeyQueue.empty Key reportKeys).run ops) := by
  intro h
  have hcount := (h [.add ⟨4, by decide⟩, .clear]).count
  exact absurd hcount (by decide)

end Runs

end Qmk.RingReport
