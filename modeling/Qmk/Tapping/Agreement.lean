import Qmk.Tapping.PressOrder

/-! # Agreement of presses and releases

For each key the emitted records should alternate, and a release should count as a
tap exactly when the press it closes did. Two things break this: a record that
overtakes one of the same key in the waiting buffer, and the release that the
engine makes up for a repeated tap, since the physical release is emitted as well.
-/

namespace Qmk.Tapping

def keyed (k : Keypos) (rs : List Keyrecord) : List Keyrecord := rs.filter (·.event.key = k)

/-- Presses and releases alternate; the state is whether the key is down. -/
def alternation : Monitor Keyevent Bool where
  next _ e := e.pressed
  ok down e := e.pressed = !down

instance (down : Bool) (e : Keyevent) : Decidable (alternation.ok down e) :=
  inferInstanceAs (Decidable (_ = _))

/-- Records alternate, and a release counts as a tap when its press did; the state says whether a
press is open, and whether it counts as a tap. -/
def agreement : Monitor Keyrecord (Option Bool) where
  next _ r := if r.event.pressed then some (decide (0 < r.tap.count)) else none
  ok q r := if r.event.pressed then q = none else q = some (decide (0 < r.tap.count))

instance (q : Option Bool) (r : Keyrecord) : Decidable (agreement.ok q r) :=
  inferInstanceAs (Decidable (ite _ _ _))

/-- The press starts tapping, so the buffer is scanned for its release. -/
def startsTapping (d : Decisions) (r : Keyrecord) (s : Engine) : Prop :=
  r.event.pressed = true ∧ isTapRecord d s r = true ∧ accepting d s r.event ∧
    (s.tappingKey.phase = .released → s.tappingKey.event.key ≠ r.event.key)

instance (d : Decisions) (r : Keyrecord) (s : Engine) : Decidable (startsTapping d r s) :=
  inferInstanceAs (Decidable (_ ∧ _))

/-- The scan of the buffer finds no release, or the first record of the key. -/
def scansFirst (d : Decisions) (r : Keyrecord) (s : Engine) : Bool :=
  match keyed r.event.key s.waitingBuffer with
  | [] => true
  | c :: cs => isTapRelease d { s with tappingKey := r } c ||
      cs.all fun x => !isTapRelease d { s with tappingKey := r } x

/-- The record is the release that makes the tapping key a tap. -/
def isFirstTap (d : Decisions) (r : Keyrecord) (s : Engine) : Prop :=
  s.tappingKey.phase = .undecided ∧ withinTappingTerm d s r.event = true ∧
    r.event.pressed = false ∧ s.tappingKey.event.key = r.event.key

instance (d : Decisions) (r : Keyrecord) (s : Engine) : Decidable (isFirstTap d r s) :=
  inferInstanceAs (Decidable (_ ∧ _))

/-- The press cuts a repeated tap short, whose release the engine then makes up. -/
def cutsRepeatedTap (d : Decisions) (r : Keyrecord) (s : Engine) : Prop :=
  s.tappingKey.phase = .tapped ∧ 1 < s.tappingKey.tap.count ∧ r.event.pressed = true ∧
    isTapRecord d s r = true

instance (d : Decisions) (r : Keyrecord) (s : Engine) : Decidable (cutsRepeatedTap d r s) :=
  inferInstanceAs (Decidable (_ ∧ _))

/-- An arriving record of a key that has records in the buffer joins them and is not taken for the
first tap; no repeated tap is cut short; and the release that the scan marks is the first record of
its key in the buffer. -/
def keysInOrder : Guard where
  arriving d r s :=
    decide ((r.event.isEvent = true → keyed r.event.key s.waitingBuffer ≠ [] →
        ¬ accepting d s r.event ∧ ¬ isFirstTap d r s) ∧
      ¬ cutsRepeatedTap d r s ∧ (startsTapping d r s → scansFirst d r s = true))
  queued d r s :=
    decide (¬ cutsRepeatedTap d r s ∧ (startsTapping d r s → scansFirst d r s = true))

/-- The presses and releases of one key among some events. -/
def arrivals (k : Keypos) (es : List Keyevent) : List Keyevent :=
  es.filter fun e => e.isEvent && e.key = k

/-- Each key alternates press and release. -/
def Alternating (es : List Keyevent) : Prop :=
  ∀ k, alternation.Accepts false (arrivals k es)

instance (es : List Keyevent) : Decidable (Alternating es) :=
  decidable_of_iff (∀ e ∈ es, alternation.Accepts false (arrivals e.key es)) (by
    refine ⟨fun h k => ?_, fun h e _ => h e.key⟩
    cases hk : arrivals k es with
    | nil => exact trivial
    | cons e _ =>
      have he : e ∈ arrivals k es := hk ▸ List.mem_cons_self
      obtain ⟨hmem, hkey⟩ := List.mem_filter.mp he
      have hkey' : e.key = k := by simp_all
      exact hk ▸ hkey' ▸ h e hmem)

/-- For each key the emitted records alternate, and releases agree with their presses. -/
structure EmissionsAgree (inputs : List Input) : Prop where
  ofKey : ∀ k, agreement.Accepts none (keyed k (emitted (run {} {} inputs).effects))

section OneKey

def Marked (P : List Keyrecord) : Prop := ∃ r ∈ P.head?, 0 < r.tap.count

/-- What is emitted of a key agrees with what is pending of it. `q` is the state of `agreement`,
`down` is whether the key is down in the matrix, `tap` is its tap count while it is the tapping key
and counts as a tap, and `P` lists its pending records. -/
structure Agrees (q : Option Bool) (down : Bool) (tap : Option ℕ) (P : List Keyrecord) : Prop where
  alternates : alternation.Accepts q.isSome (P.map (·.event))
  parity : alternation.after q.isSome (P.map (·.event)) = down
  uncounted : ∀ r ∈ P.tail, r.tap.count = 0
  marked : Marked P → q = some true
  owed : q = some true → tap = none → Marked P
  opened : tap ≠ none → q = some true
  first : tap = some 1 → Marked P

variable {q : Option Bool} {down : Bool} {tap : Option ℕ} {r : Keyrecord} {P : List Keyrecord}

theorem not_marked_nil : ¬ Marked [] := nofun

theorem marked_cons : Marked (r :: P) ↔ 0 < r.tap.count := by
  simp [Marked]

theorem not_marked_of_uncounted (h : ∀ x ∈ P, x.tap.count = 0) : ¬ Marked P := by
  rintro ⟨x, hx, hcount⟩
  exact hcount.ne' (h x (List.mem_of_mem_head? hx))

theorem agrees_nil : Agrees none false none [] :=
  ⟨trivial, rfl, nofun, fun h => absurd h not_marked_nil, nofun, fun h => absurd rfl h, nofun⟩

theorem Agrees.append (h : Agrees q down tap P) (hp : r.event.pressed = !down)
    (hcount : r.tap.count = 0) : Agrees q r.event.pressed tap (P ++ [r]) := by
  have hmarked : Marked (P ++ [r]) ↔ Marked P := by
    cases P with
    | nil => simp [marked_cons, hcount, not_marked_nil]
    | cons x P => rw [List.cons_append, marked_cons, marked_cons]
  refine ⟨?_, ?_, ?_, fun hm => h.marked (hmarked.mp hm), fun hq ht => hmarked.mpr (h.owed hq ht),
    h.opened, fun ht => hmarked.mpr (h.first ht)⟩
  · rw [List.map_append, Monitor.accepts_append, h.parity]
    exact ⟨h.alternates, hp, trivial⟩
  · rw [List.map_append, Monitor.after_append]
    rfl
  · intro x hx
    cases P with
    | nil => cases hx
    | cons y P =>
      rcases List.mem_append.mp hx with hx | hx
      · exact h.uncounted x hx
      · rw [List.mem_singleton.mp hx, hcount]

/-- A tap whose release waits need not stay the tapping key. -/
theorem Agrees.leave (h : Agrees q down (some 1) P) : Agrees q down none P :=
  ⟨h.alternates, h.parity, h.uncounted, h.marked, fun _ _ => h.first rfl, fun ht => absurd rfl ht,
    nofun⟩

theorem Agrees.of_press (h : Agrees q down tap (r :: P)) (hp : r.event.pressed = true) :
    q = none ∧ r.tap.count = 0 ∧ tap = none := by
  have hok : r.event.pressed = !q.isSome := h.alternates.1
  have hq : q = none := by
    cases q with
    | none => rfl
    | some b => exact absurd (hp.symm.trans hok) (by simp)
  refine ⟨hq, ?_, ?_⟩
  · by_contra hcount
    exact absurd (h.marked (marked_cons.mpr (Nat.pos_of_ne_zero hcount))) (by simp [hq])
  · by_contra htap
    exact absurd (h.opened htap) (by simp [hq])

theorem Agrees.rest (h : Agrees q down tap (r :: P)) {b : Option Bool}
    (hb : b.isSome = r.event.pressed) :
    alternation.Accepts b.isSome (P.map (·.event)) ∧
      alternation.after b.isSome (P.map (·.event)) = down ∧ ∀ x ∈ P, x.tap.count = 0 :=
  ⟨hb ▸ h.alternates.2, hb ▸ h.parity, h.uncounted⟩

theorem Agrees.hold (h : Agrees q down tap (r :: P)) (hp : r.event.pressed = true) :
    Agrees (some false) down none P := by
  obtain ⟨halt, hparity, hcount⟩ := h.rest (b := some false) hp.symm
  have hnot := not_marked_of_uncounted hcount
  exact ⟨halt, hparity, fun x hx => hcount x (List.mem_of_mem_tail hx), fun hm => absurd hm hnot,
    nofun, fun ht => absurd rfl ht, nofun⟩

theorem Agrees.repeatTap (h : Agrees q down tap (r :: P)) (hp : r.event.pressed = true) {n : ℕ}
    (hn : 1 < n) : Agrees (some true) down (some n) P := by
  obtain ⟨halt, hparity, hcount⟩ := h.rest (b := some true) hp.symm
  exact ⟨halt, hparity, fun x hx => hcount x (List.mem_of_mem_tail hx), fun _ => rfl, nofun,
    fun _ => rfl, fun ht => absurd (Option.some.inj ht) hn.ne'⟩

theorem Agrees.firstTap {c c' : Keyrecord} (h : Agrees q down tap (r :: c :: P))
    (hp : r.event.pressed = true) (hevent : c'.event = c.event) (hcount : 0 < c'.tap.count) :
    Agrees (some true) down (some 1) (c' :: P) := by
  obtain ⟨halt, hparity, hrest⟩ := h.rest (b := some true) hp.symm
  refine ⟨?_, ?_, ?_, fun _ => rfl, nofun, fun _ => rfl, fun _ => marked_cons.mpr hcount⟩
  · rwa [List.map_cons, hevent]
  · rwa [List.map_cons, hevent]
  · exact fun x hx => hrest x (List.mem_cons_of_mem _ hx)

theorem Agrees.release (h : Agrees q down none (r :: P)) (hp : r.event.pressed = false) :
    q = some (decide (0 < r.tap.count)) ∧ Agrees none down none P := by
  have hok : r.event.pressed = !q.isSome := h.alternates.1
  obtain ⟨halt, hparity, hcount⟩ := h.rest (b := none) hp.symm
  have hnot := not_marked_of_uncounted hcount
  constructor
  · cases q with
    | none => exact absurd (hp.symm.trans hok) (by decide)
    | some b =>
      cases b with
      | true => simpa using marked_cons.mp (h.owed rfl rfl)
      | false =>
        have hzero : ¬ 0 < r.tap.count := fun hc => absurd (h.marked (marked_cons.mpr hc)) (by simp)
        simpa using hzero
  · exact ⟨halt, hparity, fun x hx => hcount x (List.mem_of_mem_tail hx), fun hm => absurd hm hnot,
      nofun, fun ht => absurd rfl ht, nofun⟩

theorem Agrees.closeTap (h : Agrees q down tap (r :: P)) (hp : r.event.pressed = false)
    (htap : tap ≠ none) : q = some true ∧ Agrees none down none P := by
  obtain ⟨halt, hparity, hcount⟩ := h.rest (b := none) hp.symm
  have hnot := not_marked_of_uncounted hcount
  exact ⟨h.opened htap, halt, hparity, fun x hx => hcount x (List.mem_of_mem_tail hx),
    fun hm => absurd hm hnot, nofun, fun ht => absurd rfl ht, nofun⟩

/-- The front record may change as long as its event and its count stay. -/
theorem Agrees.setFront {r' : Keyrecord} (h : Agrees q down tap (r :: P))
    (hevent : r'.event = r.event) (hcount : r'.tap.count = r.tap.count) :
    Agrees q down tap (r' :: P) := by
  have hmarked : Marked (r' :: P) ↔ Marked (r :: P) := by
    rw [marked_cons, marked_cons, hcount]
  refine ⟨?_, ?_, h.uncounted, fun hm => h.marked (hmarked.mp hm),
    fun hq ht => hmarked.mpr (h.owed hq ht), h.opened, fun ht => hmarked.mpr (h.first ht)⟩
  · rw [List.map_cons, hevent]
    exact h.alternates
  · rw [List.map_cons, hevent]
    exact h.parity

end OneKey

/-- The tap count of a key while it is the tapping key and counts as a tap. -/
def Keyrecord.opened (T : Keyrecord) (k : Keypos) : Option ℕ :=
  if T.phase = .tapped ∧ T.event.key = k then some T.tap.count else .none

/-- The emitted records of a key agree, with each other and with what is pending when `T` is the
tapping key and `Q` is the buffer. -/
structure KeyAgrees (k : Keypos) (down : Bool) (es : List Effect) (T : Keyrecord)
    (Q : List Keyrecord) : Prop where
  accepts : agreement.Accepts none (keyed k (emitted es))
  agrees : Agrees (agreement.after none (keyed k (emitted es))) down (T.opened k)
    (keyed k (T.held ++ Q))

variable {k : Keypos} {down : Bool} {es : List Effect} {T r x : Keyrecord} {Q : List Keyrecord}

section Keyed

@[simp] theorem keyed_nil : keyed k [] = [] := rfl

@[simp] theorem keyed_append (rs rs' : List Keyrecord) :
    keyed k (rs ++ rs') = keyed k rs ++ keyed k rs' :=
  List.filter_append ..

theorem keyed_self (h : r.event.key = k) (rs : List Keyrecord) :
    keyed k (r :: rs) = r :: keyed k rs := by
  simp [keyed, h]

theorem keyed_other (h : r.event.key ≠ k) (rs : List Keyrecord) :
    keyed k (r :: rs) = keyed k rs := by
  simp [keyed, h]

theorem opened_of_ne (h : T.phase ≠ .tapped) : T.opened k = none := if_neg fun hT => h hT.1

@[simp] theorem none_opened : Keyrecord.none.opened k = none := opened_of_ne (by decide)

theorem opened_other (h : T.event.key ≠ k) : T.opened k = none := if_neg fun hT => h hT.2

theorem opened_self (hphase : T.phase = .tapped) (hkey : T.event.key = k) :
    T.opened k = some T.tap.count :=
  if_pos ⟨hphase, hkey⟩

end Keyed

namespace KeyAgrees

theorem congr (h : KeyAgrees k down es T Q) {T' : Keyrecord} {Q' : List Keyrecord}
    (hT : T'.opened k = T.opened k) (hP : keyed k (T'.held ++ Q') = keyed k (T.held ++ Q)) :
    KeyAgrees k down es T' Q' :=
  ⟨h.accepts, by rw [hT, hP]; exact h.agrees⟩

theorem emit_other (h : KeyAgrees k down es T Q) (hx : x.event.key ≠ k) :
    KeyAgrees k down (es ++ [.processRecord x]) T Q := by
  have hsame : keyed k (emitted (es ++ [.processRecord x])) = keyed k (emitted es) := by
    rw [emitted_append, emitted_processRecord, keyed_append, keyed_other hx, keyed_nil,
      List.append_nil]
  exact ⟨hsame ▸ h.accepts, hsame ▸ h.agrees⟩

theorem emit_self {T' : Keyrecord} {Q' : List Keyrecord} (h : KeyAgrees k down es T Q)
    (hx : x.event.key = k) (hok : agreement.ok (agreement.after none (keyed k (emitted es))) x)
    (hagrees : Agrees (agreement.next (agreement.after none (keyed k (emitted es))) x) down
      (T'.opened k) (keyed k (T'.held ++ Q'))) :
    KeyAgrees k down (es ++ [.processRecord x]) T' Q' := by
  have hmore : keyed k (emitted (es ++ [.processRecord x])) = keyed k (emitted es) ++ [x] := by
    rw [emitted_append, emitted_processRecord, keyed_append, keyed_self hx, keyed_nil]
  constructor
  · rw [hmore, Monitor.accepts_append]
    exact ⟨h.accepts, hok, trivial⟩
  · rw [hmore, Monitor.after_append]
    exact hagrees

theorem hold (h : KeyAgrees k down es T Q) (hphase : T.phase = .undecided) (b : Bool) :
    KeyAgrees k down (es ++ [.processRecord (T.withInterrupted b)]) .none Q := by
  obtain ⟨-, hp, hcount⟩ := phase_eq_undecided.mp hphase
  have hopened : T.opened k = none := opened_of_ne (by simp [hphase])
  rcases eq_or_ne T.event.key k with hk | hk
  · have hagrees := h.agrees
    rw [held_of_undecided hphase, List.singleton_append, keyed_self hk] at hagrees
    refine h.emit_self hk ?_ ?_
    · simpa [agreement, hp] using (hagrees.of_press hp).1
    · simpa [agreement, hp, hcount] using hagrees.hold hp
  · refine (h.congr ?_ ?_).emit_other hk
    · rw [hopened, none_opened]
    · rw [held_of_undecided hphase, held_none, List.nil_append, List.singleton_append,
        keyed_other hk]

theorem wait (h : KeyAgrees k down es T Q) (hphase : T.phase = .undecided) (b : Bool) :
    KeyAgrees k down es (T.withInterrupted b) Q := by
  have hphase' : (T.withInterrupted b).phase = .undecided := hphase
  rcases eq_or_ne T.event.key k with hk | hk
  · refine ⟨h.accepts, ?_⟩
    have hagrees := h.agrees
    rw [held_of_undecided hphase, List.singleton_append, keyed_self hk] at hagrees
    rw [held_of_undecided hphase', List.singleton_append, keyed_self (by exact hk)]
    exact hagrees.setFront rfl rfl
  · refine h.congr rfl ?_
    rw [held_of_undecided hphase, held_of_undecided hphase', List.singleton_append,
      List.singleton_append, keyed_other hk, keyed_other (by exact hk)]

theorem expire (h : KeyAgrees k down es T Q) (hphase : T.phase = .released) :
    KeyAgrees k down es .none Q := by
  refine h.congr ?_ ?_
  · rw [opened_of_ne (T := T) (by simp [hphase]), none_opened]
  · rw [held_of_ne (T := T) (by simp [hphase]), held_none]

theorem startKey (h : KeyAgrees k down es T (r :: Q)) (hphase : T.phase ≠ .undecided)
    (hcount : T.phase = .tapped → T.tap.count = 1) (hr : r.phase = .undecided) :
    KeyAgrees k down es r Q := by
  have hP : keyed k (r.held ++ Q) = keyed k (T.held ++ r :: Q) := by
    rw [held_of_undecided hr, held_of_ne hphase, List.singleton_append, List.nil_append]
  refine ⟨h.accepts, ?_⟩
  have hagrees := h.agrees
  rw [opened_of_ne (T := r) (by simp [hr]), hP]
  cases hopened : T.opened k with
  | none => rwa [hopened] at hagrees
  | some n =>
    -- Only a tap whose release waits gives way to another key.
    have hn : n = 1 := by
      simp only [Keyrecord.opened] at hopened
      split_ifs at hopened with hT
      rw [← Option.some.inj hopened, hcount hT.1]
    rw [hopened, hn] at hagrees
    exact hagrees.leave

/-- The undecided tapping key is emitted as a tap, and its release, the first record of its key in
the buffer, is marked. -/
theorem scanTap {pre post : List Keyrecord} {c c' : Keyrecord}
    (h : KeyAgrees k down es T (pre ++ c :: post)) (hphase : T.phase = .undecided)
    (hkey : c.event.key = T.event.key) (hpre : keyed T.event.key pre = [])
    (hevent : c'.event = c.event) (hcount : 0 < c'.tap.count) :
    KeyAgrees k down (es ++ [.processRecord (T.withCount 1)]) (T.withCount 1)
      (pre ++ c' :: post) := by
  obtain ⟨-, hp, -⟩ := phase_eq_undecided.mp hphase
  have hheld : (T.withCount 1).held = [] := held_counted Nat.one_pos
  rcases eq_or_ne T.event.key k with hk | hk
  · subst hk
    have hc' : c'.event.key = T.event.key := by rw [hevent, hkey]
    have hagrees := h.agrees
    rw [held_of_undecided hphase, List.singleton_append, keyed_self rfl, keyed_append, hpre,
      List.nil_append, keyed_self hkey] at hagrees
    refine h.emit_self rfl ?_ ?_
    · simpa [agreement, hp] using (hagrees.of_press hp).1
    · have hopened : (T.withCount 1).opened T.event.key = some 1 :=
        opened_self (withCount_phase hphase) rfl
      rw [hopened, hheld, List.nil_append, keyed_append, hpre, List.nil_append, keyed_self hc']
      simpa [agreement, hp] using hagrees.firstTap hp hevent hcount
  · have hc : c.event.key ≠ k := by rwa [hkey]
    have hc' : c'.event.key ≠ k := by rwa [hevent]
    refine (h.congr ?_ ?_).emit_other hk
    · rw [opened_other (by exact hk), opened_other hk]
    · rw [hheld, held_of_undecided hphase, List.nil_append, List.singleton_append, keyed_other hk,
        keyed_append, keyed_append, keyed_other hc, keyed_other hc']

theorem repeatTap {r' : Keyrecord} (h : KeyAgrees k down es T (r :: Q))
    (hphase : T.phase = .released) (hr : r.event.isNoevent = false)
    (hp : r.event.pressed = true) (hevent : r'.event = r.event) (hcount : 1 < r'.tap.count) :
    KeyAgrees k down (es ++ [.processRecord r']) r' Q := by
  have hpos : 0 < r'.tap.count := Nat.zero_lt_of_lt hcount
  have hT : T.held = [] := held_of_ne (by simp [hphase])
  have hr' : r'.held = [] := held_counted hpos
  rcases eq_or_ne r.event.key k with hk | hk
  · have hk' : r'.event.key = k := by rw [hevent, hk]
    have hphase' : r'.phase = .tapped :=
      phase_eq_tapped.mpr ⟨hevent ▸ hr, hevent ▸ hp, hpos⟩
    have hagrees := h.agrees
    rw [hT, List.nil_append, keyed_self hk] at hagrees
    refine h.emit_self hk' ?_ ?_
    · simpa [agreement, hevent, hp] using (hagrees.of_press hp).1
    · rw [opened_self hphase' hk', hr', List.nil_append]
      simpa [agreement, hevent, hp, hpos] using hagrees.repeatTap hp hcount
  · have hk' : r'.event.key ≠ k := by rwa [hevent]
    refine (h.congr ?_ ?_).emit_other hk'
    · rw [opened_other hk', opened_of_ne (T := T) (by simp [hphase])]
    · rw [hT, hr', List.nil_append, List.nil_append, keyed_other hk]

/-- The record at the front is emitted as it is, and does not close the tap of the tapping key. -/
theorem forward (h : KeyAgrees k down es T (r :: Q)) (hphase : T.phase ≠ .undecided)
    (hkey : T.phase = .tapped → T.event.key = r.event.key → r.event.pressed = true) :
    KeyAgrees k down (es ++ [.processRecord r]) T Q := by
  have hT : T.held = [] := held_of_ne hphase
  rcases eq_or_ne r.event.key k with hk | hk
  · have hagrees := h.agrees
    rw [hT, List.nil_append, keyed_self hk] at hagrees
    cases hp : r.event.pressed with
    | true =>
      obtain ⟨hq, hcount, hopened⟩ := hagrees.of_press hp
      refine h.emit_self hk ?_ ?_
      · simpa [agreement, hp] using hq
      · rw [hopened, hT, List.nil_append]
        simpa [agreement, hp, hcount] using hagrees.hold hp
    | false =>
      have hopened : T.opened k = none := by
        refine if_neg fun hT => ?_
        exact absurd (hkey hT.1 (hT.2.trans hk.symm)) (by simp [hp])
      rw [hopened] at hagrees
      obtain ⟨hq, hrest⟩ := hagrees.release hp
      refine h.emit_self hk ?_ ?_
      · simpa [agreement, hp] using hq
      · rw [hopened, hT, List.nil_append]
        simpa [agreement, hp] using hrest
  · refine (h.congr rfl ?_).emit_other hk
    rw [hT, List.nil_append, List.nil_append, keyed_other hk]

theorem earlyRelease (h : KeyAgrees k down es T (r :: Q)) (hphase : T.phase = .undecided)
    (hp : r.event.pressed = false) (hkey : T.event.key ≠ r.event.key) :
    KeyAgrees k down (es ++ [.processRecord r]) T Q := by
  have hopened : T.opened k = none := opened_of_ne (by simp [hphase])
  rcases eq_or_ne r.event.key k with hk | hk
  · have hT (Q : List Keyrecord) : keyed k (T.held ++ Q) = keyed k Q := by
      rw [held_of_undecided hphase, List.singleton_append, keyed_other (hk ▸ hkey)]
    have hagrees := h.agrees
    rw [hT, keyed_self hk, hopened] at hagrees
    obtain ⟨hq, hrest⟩ := hagrees.release hp
    refine h.emit_self hk ?_ ?_
    · simpa [agreement, hp] using hq
    · rw [hopened, hT]
      simpa [agreement, hp] using hrest
  · refine (h.congr rfl ?_).emit_other hk
    rw [keyed_append, keyed_append, keyed_other hk]

theorem closeTap {T' : Keyrecord} (h : KeyAgrees k down es T (r :: Q)) (hphase : T.phase = .tapped)
    (hp : r.event.pressed = false) (hkey : T.event.key = r.event.key) (hheld : T'.held = [])
    (hopened : T'.opened k = none) :
    KeyAgrees k down (es ++ [.processRecord { r with tap := T.tap }]) T' Q := by
  obtain ⟨-, -, hpos⟩ := phase_eq_tapped.mp hphase
  have hT : T.held = [] := held_of_ne (by simp [hphase])
  rcases eq_or_ne r.event.key k with hk | hk
  · have hagrees := h.agrees
    rw [hT, List.nil_append, keyed_self hk, opened_self hphase (hkey.trans hk)] at hagrees
    obtain ⟨hq, hrest⟩ := hagrees.closeTap hp (by simp)
    refine h.emit_self hk ?_ ?_
    · simpa [agreement, hp, hpos] using hq
    · rw [hheld, hopened, List.nil_append]
      simpa [agreement, hp] using hrest
  · refine (h.congr ?_ ?_).emit_other hk
    · rw [hopened, opened_other (T := T) (hkey ▸ hk)]
    · rw [hheld, hT, List.nil_append, List.nil_append, keyed_other hk]

end KeyAgrees

section Feed

variable {d : Decisions} {s : Engine}

theorem keyed_pre_of_scansFirst {pre post : List Keyrecord} {c : Keyrecord}
    (hscan : scansFirst d r s = true) (hbuffer : s.waitingBuffer = pre ++ c :: post)
    (hpre : ∀ x ∈ pre, isTapRelease d { s with tappingKey := r } x = false)
    (hc : isTapRelease d { s with tappingKey := r } c = true) :
    keyed r.event.key pre = [] := by
  have hkey : c.event.key = r.event.key := by simp_all [isTapRelease]
  have hqueued : keyed r.event.key s.waitingBuffer =
      keyed r.event.key pre ++ c :: keyed r.event.key post := by
    rw [hbuffer, keyed_append, keyed_self hkey]
  rw [scansFirst, hqueued] at hscan
  cases hkeyed : keyed r.event.key pre with
  | nil => rfl
  | cons x xs =>
    have hx : x ∈ pre := List.mem_of_mem_filter (hkeyed ▸ List.mem_cons_self)
    simp [hkeyed, hpre x hx, hc] at hscan

theorem Started.keyAgrees {t : Engine} (h : Started d r s t) (hr : r.phase = .undecided)
    (hscan : scansFirst d r s = true) (hk : KeyAgrees k down s.effects r s.waitingBuffer) :
    KeyAgrees k down t.effects t.tappingKey t.waitingBuffer := by
  cases h with
  | alone => exact hk
  | tapped pre c post _ hbuffer hpre hc =>
    have hkey : c.event.key = r.event.key := by simp_all [isTapRelease]
    rw [hbuffer] at hk
    exact hk.scanTap hr hkey (keyed_pre_of_scansFirst hscan hbuffer hpre hc) rfl Nat.one_pos

theorem Outcome.keyAgrees_feed {o : Bool × Keyrecord × Engine} (h : Outcome d r s o)
    (hr : r.event.isNoevent = false) (hcount : r.Uncounted)
    (hcut : ¬ cutsRepeatedTap d r s) (hscan : startsTapping d r s → scansFirst d r s = true)
    (hk : KeyAgrees k down s.effects s.tappingKey (r :: s.waitingBuffer)) :
    KeyAgrees k down (afterFeed o).effects (afterFeed o).tappingKey
      (afterFeed o).waitingBuffer := by
  cases h with
  | idle htick => exact absurd (htick.symm.trans hr) (by decide)
  | start t _ hp htap hphase hone hterm hkey ht =>
    have hundecided := phase_eq_undecided.mpr ⟨hr, hp, hcount hp⟩
    exact ht.keyAgrees hundecided (hscan ⟨hp, htap, ⟨hphase, hterm⟩, hkey⟩)
      (hk.startKey hphase hone hundecided)
  | interruptTap t _ hp htap hphase hmany _ => exact absurd ⟨hphase, hmany, hp, htap⟩ hcut
  | restart _ hp hphase _ _ =>
    exact hk.startKey (by simp [hphase]) (by simp [hphase])
      (phase_eq_undecided.mpr ⟨hr, hp, hcount hp⟩)
  | repeatTap r' _ hp hphase _ _ hevent hmany => exact hk.repeatTap hphase hr hp hevent hmany
  | forward _ hphase _ hkey => exact hk.forward hphase hkey
  | forwardInterrupt _ _ hphase _ =>
    have hforward := hk.forward (by simp [hphase]) (by simp [hphase])
    have hheld : (s.tappingKey.withInterrupted true).held = s.tappingKey.held := by
      rw [held_of_ne (by simp [hphase]), held_of_ne (by simp [hphase])]
    exact hforward.congr rfl (congrArg (fun held => keyed k (held ++ s.waitingBuffer)) hheld)
  | earlyRelease _ hp hphase hkey _ => exact hk.earlyRelease hphase hp hkey
  | closeTap T _ hp hphase hkey hT =>
    rcases hT with rfl | rfl
    · refine hk.closeTap hphase hp hkey (held_counted (phase_eq_tapped.mp hphase).2.2)
        (opened_of_ne fun h => ?_)
      exact absurd (hp.symm.trans (phase_eq_tapped.mp h).2.1) (by decide)
    · exact hk.closeTap hphase hp hkey rfl none_opened
  | firstTap _ hp hphase _ hkey =>
    have hfront : KeyAgrees k down s.effects s.tappingKey ([] ++ r :: s.waitingBuffer) := hk
    exact hfront.scanTap hphase hkey.symm rfl rfl Nat.one_pos
  | hold b hphase => exact hk.hold hphase b
  | wait b _ hphase => exact hk.wait hphase b
  | expire hphase _ => exact hk.expire hphase

end Feed

section Arrive

variable {d : Decisions} {s : Engine} {o : Bool × Keyrecord × Engine}

theorem keyed_eq_nil_iff {rs : List Keyrecord} :
    keyed k rs = [] ↔ k ∉ rs.map (·.event.key) := by
  simp [keyed, List.filter_eq_nil_iff]

theorem Started.keys_eq {t : Engine} (h : Started d r s t) :
    t.waitingBuffer.map (·.event.key) = s.waitingBuffer.map (·.event.key) := by
  cases h with
  | alone => rfl
  | tapped pre c post _ hbuffer _ _ => simp [hbuffer]

theorem Outcome.keys_eq (h : Outcome d r s o) :
    o.2.2.waitingBuffer.map (·.event.key) = s.waitingBuffer.map (·.event.key) := by
  cases h with
  | start t _ _ _ _ _ _ _ ht => exact ht.keys_eq
  | interruptTap t _ _ _ _ _ ht => exact ht.keys_eq
  | idle | restart | repeatTap | forward | forwardInterrupt | earlyRelease | closeTap | firstTap
  | hold | wait | expire => rfl

theorem KeyAgrees.append (h : KeyAgrees k down es T Q)
    (halt : r.event.key = k → r.event.pressed = !down) (hcount : r.tap.count = 0) :
    KeyAgrees k (if r.event.key = k then r.event.pressed else down) es T (Q ++ [r]) := by
  rcases eq_or_ne r.event.key k with hk | hk
  · rw [if_pos hk]
    refine ⟨h.accepts, ?_⟩
    rw [← List.append_assoc, keyed_append, keyed_self hk, keyed_nil]
    exact h.agrees.append (halt hk) hcount
  · rw [if_neg hk]
    apply h.congr rfl
    rw [← List.append_assoc, keyed_append, keyed_other hk, keyed_nil, List.append_nil]

/-- A key with no record in the buffer does not notice at which end of it a record is put. -/
theorem keyed_swap (hnone : keyed r.event.key Q = []) : keyed k (r :: Q) = keyed k (Q ++ [r]) := by
  rcases eq_or_ne r.event.key k with hk | hk
  · rw [keyed_append, keyed_self hk, keyed_self hk, keyed_nil, ← hk, hnone, List.nil_append]
  · rw [keyed_append, keyed_other hk, keyed_other hk, keyed_nil, List.append_nil]

/-- A record whose key has no record in the buffer is treated like one at its front. -/
theorem Outcome.keyAgrees_alone (h : Outcome d r s o) (hr : r.event.isNoevent = false)
    (hcount : r.Uncounted) (hcut : ¬ cutsRepeatedTap d r s)
    (hscan : startsTapping d r s → scansFirst d r s = true)
    (hnone : keyed r.event.key s.waitingBuffer = [])
    (hk : KeyAgrees k down s.effects s.tappingKey (s.waitingBuffer ++ [r])) :
    KeyAgrees k down (afterArrival o).effects (afterArrival o).tappingKey
      (afterArrival o).waitingBuffer := by
  have hfront : KeyAgrees k down s.effects s.tappingKey (r :: s.waitingBuffer) := by
    apply hk.congr rfl
    rw [keyed_append, keyed_append, keyed_swap hnone]
  have hfed := h.keyAgrees_feed hr hcount hcut hscan hfront
  have hnone' : keyed o.2.1.event.key o.2.2.waitingBuffer = [] := by
    rw [keyed_eq_nil_iff, h.keys_eq, h.event_eq]
    exact keyed_eq_nil_iff.mp hnone
  rw [afterFeed_effects, afterFeed_tappingKey, afterFeed_waitingBuffer] at hfed
  rw [afterArrival_effects, afterArrival_tappingKey, h.afterArrival_waitingBuffer]
  apply hfed.congr rfl
  rw [keyed_append, keyed_append]
  cases o.1 with
  | true => simp
  | false => simpa [hr] using (keyed_swap hnone').symm

theorem Outcome.keyAgrees_behind (h : Outcome d r s o) (hr : r.event.isNoevent = false)
    (hkept : ¬ accepting d s r.event) (hfirst : ¬ isFirstTap d r s)
    (htyped : r.event.pressed = false → waitingBufferTyped s r.event = true)
    (hk : KeyAgrees k down s.effects s.tappingKey (s.waitingBuffer ++ [r])) :
    KeyAgrees k down (afterArrival o).effects (afterArrival o).tappingKey
      (afterArrival o).waitingBuffer := by
  rw [afterArrival_effects, afterArrival_tappingKey, h.afterArrival_waitingBuffer]
  cases h with
  | idle htick => exact absurd (htick.symm.trans hr) (by decide)
  | start _ _ _ _ hphase _ hterm => exact absurd ⟨hphase, hterm⟩ hkept
  | forward _ hphase hterm => exact absurd ⟨hphase, hterm⟩ hkept
  | interruptTap _ _ _ _ hphase =>
    exact absurd ⟨by simp [hphase], by simp [hphase]⟩ hkept
  | closeTap _ _ _ hphase => exact absurd ⟨by simp [hphase], by simp [hphase]⟩ hkept
  | restart _ _ hphase hterm | repeatTap _ _ _ hphase hterm | forwardInterrupt _ _ hphase hterm =>
    exact absurd ⟨by simp [hphase], fun _ => hterm⟩ hkept
  | earlyRelease _ hp _ _ hnot => exact absurd (hnot.symm.trans (htyped hp)) (by decide)
  | firstTap _ hp hphase hterm hkey => exact absurd ⟨hphase, hterm, hp, hkey⟩ hfirst
  | hold b hphase => simpa [hr] using hk.hold hphase b
  | wait b _ hphase => simpa [hr] using hk.wait hphase b
  | expire hphase _ => simpa [hr] using hk.expire hphase

theorem Outcome.keyAgrees_tick (h : Outcome d r s o) (htick : r.event.isNoevent = true)
    (hk : KeyAgrees k down s.effects s.tappingKey s.waitingBuffer) :
    KeyAgrees k down (afterArrival o).effects (afterArrival o).tappingKey
      (afterArrival o).waitingBuffer := by
  rw [afterArrival_effects, afterArrival_tappingKey, h.afterArrival_waitingBuffer]
  cases h with
  | idle => simpa [htick] using hk
  | hold b hphase => simpa [htick] using hk.hold hphase b
  | expire hphase _ => simpa [htick] using hk.expire hphase
  | start _ hr | interruptTap _ hr | restart hr | repeatTap _ hr | forward hr
  | forwardInterrupt hr | earlyRelease hr | closeTap _ hr | firstTap hr | wait _ hr =>
    exact absurd (htick.symm.trans hr) (by decide)

/-- When the last pending record of a key is in the buffer and the key is down, it is a press. -/
theorem Agrees.typed {q : Option Bool} {tap : Option ℕ} {P : List Keyrecord}
    (h : Agrees q true tap (P ++ keyed k s.waitingBuffer)) (hne : keyed k s.waitingBuffer ≠ [])
    {e : Keyevent} (hkey : e.key = k) (hp : e.pressed = false) : waitingBufferTyped s e = true := by
  obtain ⟨rs, x, hlast⟩ := List.eq_nil_or_concat _ |>.resolve_left hne
  have hpressed : x.event.pressed = true := by
    have hparity := h.parity
    rwa [hlast, List.concat_eq_append, ← List.append_assoc, List.map_append,
      Monitor.after_append] at hparity
  have hx : x ∈ keyed k s.waitingBuffer := by simp [hlast]
  obtain ⟨hmem, hxkey⟩ := List.mem_filter.mp hx
  have hxkey' : x.event.key = k := by simpa using hxkey
  simp only [waitingBufferTyped, List.any_eq_true, decide_eq_true_eq]
  exact ⟨x, hmem, hxkey'.trans hkey.symm, by simp [hp, hpressed]⟩

end Arrive

section Runs

variable {d : Decisions} {s : Engine} {o : Bool × Keyrecord × Engine}

structure AllAgree (es : List Keyevent) (s : Engine) : Prop where
  queued : QueuedRecords s.waitingBuffer
  keys : ∀ k, KeyAgrees k (alternation.after false (arrivals k es)) s.effects s.tappingKey
    s.waitingBuffer

theorem arrivals_append (k : Keypos) (es : List Keyevent) (e : Keyevent) :
    arrivals k (es ++ [e]) = arrivals k es ++ arrivals k [e] :=
  List.filter_append ..

/-- Where each key alternates, so does it before the last event; and this one alternates too. -/
theorem Alternating.of_append {es : List Keyevent} {e : Keyevent} (h : Alternating (es ++ [e])) :
    Alternating es ∧ (e.isNoevent = false →
      e.pressed = !alternation.after false (arrivals e.key es)) := by
  have hsplit := fun k => (Monitor.accepts_append _ _ _ _).mp (arrivals_append k es e ▸ h k)
  constructor
  · exact fun k => (hsplit k).1
  intro he
  have hself : arrivals e.key [e] = [e] := by simp [arrivals, he]
  have hlast := (hsplit e.key).2
  rw [hself] at hlast
  exact hlast.1

theorem AllAgree.arrive {es : List Keyevent} {e : Keyevent} (h : AllAgree es s)
    (hguard : keysInOrder.arriving d { event := e } s = true)
    (halt : e.isNoevent = false → e.pressed = !alternation.after false (arrivals e.key es))
    (ho : Outcome d { event := e } s o) : AllAgree (es ++ [e]) (afterArrival o) := by
  have hcount : ({ event := e } : Keyrecord).Uncounted := fun _ => rfl
  obtain ⟨hbehind, hcut, hscan⟩ := of_decide_eq_true hguard
  constructor
  · exact ho.queued_arrival hcount h.queued
  intro k
  cases htick : e.isNoevent with
  | true =>
    have hnone : arrivals k [e] = [] := by simp [arrivals, htick]
    rw [arrivals_append, hnone, List.append_nil]
    exact ho.keyAgrees_tick htick (h.keys k)
  | false =>
    have hdown : alternation.after false (arrivals k (es ++ [e])) =
        if e.key = k then e.pressed else alternation.after false (arrivals k es) := by
      rw [arrivals_append, Monitor.after_append]
      split_ifs with hk <;> simp [arrivals, htick, hk, alternation]
    have happend := (h.keys k).append (r := { event := e }) (fun hk => hk ▸ halt htick) rfl
    rw [hdown]
    cases hkeyed : keyed e.key s.waitingBuffer with
    | nil => exact ho.keyAgrees_alone htick hcount hcut hscan hkeyed happend
    | cons x xs =>
      have hne : keyed e.key s.waitingBuffer ≠ [] := by simp [hkeyed]
      obtain ⟨hkept, hfirst⟩ := hbehind (by simpa using htick) hne
      refine ho.keyAgrees_behind htick hkept hfirst (fun hp => ?_) happend
      have hagrees := (h.keys e.key).agrees
      have hisDown : alternation.after false (arrivals e.key es) = true := by
        simpa [show e.pressed = false from hp] using (halt htick).symm
      rw [hisDown, keyed_append] at hagrees
      exact hagrees.typed hne rfl hp

theorem AllAgree.feed {es : List Keyevent} (h : AllAgree es (s.push r))
    (hguard : keysInOrder.queued d r s = true) (ho : Outcome d r s o) :
    AllAgree es (afterFeed o) := by
  obtain ⟨hr, hcount⟩ := h.queued r List.mem_cons_self
  obtain ⟨hcut, hscan⟩ := of_decide_eq_true hguard
  exact ⟨ho.queued_feed h.queued,
    fun k => ho.keyAgrees_feed hr hcount hcut hscan (h.keys k)⟩

theorem allAgree_run (inputs : List Input) (halt : Alternating (inputs.map (·.event)))
    (hguard : (keysInOrder.runs {}).Accepts {} inputs)
    (hclean : .clearKeyboard ∉ (run {} {} inputs).effects) :
    AllAgree (inputs.map (·.event)) (run {} {} inputs) := by
  refine keysInOrder.invariant (I := fun es s => Alternating es → AllAgree es s)
    (fun _ => ⟨nofun, fun k => ⟨trivial, ?_⟩⟩) ?_ ?_ inputs hguard hclean halt
  · rw [none_opened]
    exact agrees_nil
  · intro d e es s o hI hg ho hes
    obtain ⟨hbefore, hlast⟩ := hes.of_append
    exact (hI hbefore).arrive hg hlast ho
  · exact fun d r es s o hI hg ho hes => (hI hes).feed hg ho

/-- A tap, a repeated tap and a hold of one tap-hold key over a tap of another. -/
def tapsAndHold : List Input :=
  [.press .small ⟨1, 1⟩ 0, .release .small ⟨1, 1⟩ 10, .press .small ⟨1, 1⟩ 20,
    .release .small ⟨1, 1⟩ 30, .tick .small 300, .press .small ⟨1, 1⟩ 400,
    .press .small ⟨2, 1⟩ 410, .release .small ⟨2, 1⟩ 420, .tick .small 700,
    .release .small ⟨1, 1⟩ 710]

/-- A repeated tap that is cut short by another tap-hold key. -/
def cutTap : List Input :=
  [.press .small ⟨1, 1⟩ 0, .release .small ⟨1, 1⟩ 10, .press .small ⟨1, 1⟩ 20,
    .press .small ⟨2, 1⟩ 30, .release .small ⟨2, 1⟩ 40, .release .small ⟨1, 1⟩ 50]

/-- Two tap-hold keys are held past their terms, and a letter is pressed and released at once. -/
def lateLetter : List Input :=
  [.press .small ⟨1, 1⟩ 0, .press .small ⟨2, 1⟩ 10, .press .small ⟨1, 2⟩ 215,
    .release .small ⟨1, 2⟩ 215]

end Runs

end Qmk.Tapping
