import Qmk.Tapping.Agreement

/-! # Owed taps

A key that is settled as tapped ahead of its release is owed a release that counts
as a tap. The ledger of a run says what has arrived, what has been emitted, which
keys are registered and which records are pending; this module says which entries
keep it sound. Without the owed taps it still says that the records of each key are
emitted in the order of their arrival.
-/

namespace Qmk.Tapping

/-- A key that is entered in `registered_taps` is owed a release that counts as a tap; the state is
whether one is owed. -/
def tapRelease (k : Keypos) : Monitor Effect Bool where
  next owed
    | .registerTap key => if key = k then true else owed
    | .processRecord r => if r.event.key = k ∧ r.event.pressed = false then false else owed
    | _ => owed
  ok owed
    | .processRecord r =>
      owed = true → r.event.key = k → r.event.pressed = false → 0 < r.tap.count
    | _ => True

instance (k : Keypos) (owed : Bool) (effect : Effect) : Decidable ((tapRelease k).ok owed effect) :=
  match effect with
  | .processRecord _ => inferInstanceAs (Decidable (_ → _))
  | .unregister _ | .registerTap _ | .clearKeyboard => inferInstanceAs (Decidable True)

def ReleaseCounted (P : List Keyrecord) : Prop :=
  ∃ r ∈ P.find? (fun r => !r.event.pressed), 0 < r.tap.count

/-- A release is made up only for a key whose press has been emitted last; the state is whether it
has. -/
def openKey (k : Keypos) : Monitor Effect Bool where
  next down
    | .processRecord r => if r.event.key = k then r.event.pressed else down
    | _ => down
  ok down
    | .unregister r => r.event.pressed = false ∧ (r.event.key = k → down = true)
    | _ => True

/-- The record of the key that has been emitted last is a press. -/
def isOpen (k : Keypos) (E : List Effect) : Bool := (openKey k).after false E

/-- What a ledger is kept of: what has arrived, and what had been emitted at some time before. The
taps that are owed are in it when `looked` holds. -/
structure Account where
  looked : Prop
  before : List Effect
  arrived : Keypos → List Keyevent

def Account.arrive (a : Account) (e : Keyevent) : Account :=
  { a with arrived := fun k => a.arrived k ++ arrivals k [e] }

/-- The ledger of one key: what has arrived of it is what has been emitted and what is pending, and
a release that it is owed will count as a tap. -/
structure KeyOwed (a : Account) (k : Keypos) (E : List Effect) (R : List Keypos)
    (P : List Keyrecord) : Prop where
  order : (keyed k (processed E) ++ P).map (·.event) = a.arrived k
  madeUp : (openKey k).Accepts false E
  accepts : a.looked → (tapRelease k).Accepts false E
  owed : a.looked → (tapRelease k).after false E = true → k ∈ R ∨ ReleaseCounted P

/-- The ledger of all keys, as long as nothing has been cleared. -/
structure Owed (a : Account) (E : List Effect) (R : List Keypos) (P : List Keyrecord) : Prop where
  grown : a.before <+: E
  queued : QueuedRecords P
  keys : .clearKeyboard ∉ E → ∀ k, KeyOwed a k E R (keyed k P)

section Open

variable {k : Keypos} {E : List Effect} {x : Keyrecord} {key : Keypos}

@[simp] theorem isOpen_processRecord : isOpen k (E ++ [.processRecord x]) =
    if x.event.key = k then x.event.pressed else isOpen k E :=
  (openKey k).after_append _ _ _

@[simp] theorem isOpen_registerTap : isOpen k (E ++ [.registerTap key]) = isOpen k E :=
  (openKey k).after_append _ _ _

@[simp] theorem isOpen_clearKeyboard : isOpen k (E ++ [.clearKeyboard]) = isOpen k E :=
  (openKey k).after_append _ _ _

@[simp] theorem isOpen_unregister : isOpen k (E ++ [.unregister x]) = isOpen k E :=
  (openKey k).after_append _ _ _

theorem isOpen_press (hp : x.event.pressed = true) (h : isOpen k E = true) :
    isOpen k (E ++ [.processRecord x]) = true := by
  rw [isOpen_processRecord, hp, h, ite_self]

end Open

section ReleaseCounted

variable {r x : Keyrecord} {P Q : List Keyrecord}

theorem releaseCounted_press (hp : r.event.pressed = true) :
    ReleaseCounted (r :: P) ↔ ReleaseCounted P := by
  simp [ReleaseCounted, hp]

theorem releaseCounted_release (hp : r.event.pressed = false) :
    ReleaseCounted (r :: P) ↔ 0 < r.tap.count := by
  simp [ReleaseCounted, hp]

theorem ReleaseCounted.append (h : ReleaseCounted P) : ReleaseCounted (P ++ Q) := by
  obtain ⟨r, hr, hcount⟩ := h
  exact ⟨r, by simp [List.find?_append, Option.mem_def.mp hr], hcount⟩

theorem ReleaseCounted.raise (hevent : x.event = r.event)
    (hcount : 0 < r.tap.count → 0 < x.tap.count) (h : ReleaseCounted (P ++ r :: Q)) :
    ReleaseCounted (P ++ x :: Q) := by
  induction P with
  | nil =>
    cases hp : r.event.pressed with
    | true =>
      have hp' : x.event.pressed = true := hevent ▸ hp
      rw [List.nil_append, releaseCounted_press hp] at h
      rwa [List.nil_append, releaseCounted_press hp']
    | false =>
      have hp' : x.event.pressed = false := hevent ▸ hp
      rw [List.nil_append, releaseCounted_release hp] at h
      rw [List.nil_append, releaseCounted_release hp']
      exact hcount h
  | cons y P ih =>
    cases hp : y.event.pressed with
    | true =>
      rw [List.cons_append, releaseCounted_press hp] at h ⊢
      exact ih h
    | false => rwa [List.cons_append, releaseCounted_release hp] at h ⊢

theorem releaseCounted_of_mid (hP : ∀ y ∈ P, y.event.pressed = false → 0 < y.tap.count)
    (hp : x.event.pressed = false) (hcount : 0 < x.tap.count) : ReleaseCounted (P ++ x :: Q) := by
  induction P with
  | nil => exact (releaseCounted_release hp).mpr hcount
  | cons y P ih =>
    cases hy : y.event.pressed with
    | true => exact (releaseCounted_press hy).mpr (ih fun z hz => hP z (List.mem_cons_of_mem _ hz))
    | false => exact (releaseCounted_release hy).mpr (hP y List.mem_cons_self hy)

end ReleaseCounted

namespace Owed

variable {a : Account} {E : List Effect} {R R' : List Keypos} {A B P : List Keyrecord}
  {r x : Keyrecord} {k : Keypos}

/-- Only the pending records of each key count, and which keys are registered. -/
theorem congr (h : Owed a E R P) {P' : List Keyrecord} (hP : ∀ k, keyed k P' = keyed k P)
    (hR : a.looked → ∀ k, k ∈ R' ↔ k ∈ R) : Owed a E R' P' := by
  refine ⟨h.grown, ?_, ?_⟩
  · intro y hy
    have hy' : y ∈ keyed y.event.key P := by
      rw [← hP]
      simpa [keyed] using hy
    exact h.queued y (List.mem_of_mem_filter hy')
  · intro hclean k
    obtain ⟨horder, hmadeUp, haccepts, howed⟩ := h.keys hclean k
    rw [hP]
    exact ⟨horder, hmadeUp, haccepts, fun hlook ho => (howed hlook ho).imp_left (hR hlook k).mpr⟩

theorem of_append_queued (h : QueuedRecords (A ++ r :: B)) : QueuedRecords (A ++ B) := by
  intro y hy
  rcases List.mem_append.mp hy with hy | hy
  · exact h y (by simp [hy])
  · exact h y (by simp [hy])

/-- A pending record is emitted, with nothing of its key pending before it; if it is a release of a
registered key, it counts as a tap. -/
theorem emit (h : Owed a E R (A ++ r :: B)) (hA : keyed r.event.key A = [])
    (hevent : x.event = r.event) (hcount : 0 < r.tap.count → 0 < x.tap.count)
    (hR : a.looked → r.event.pressed = false → r.event.key ∈ R → 0 < x.tap.count) :
    Owed a (E ++ [.processRecord x]) R (A ++ B) := by
  refine ⟨h.grown.trans (List.prefix_append _ _), of_append_queued h.queued, ?_⟩
  intro hclean k
  obtain ⟨horder, hmadeUp, haccepts, howed⟩ :=
    h.keys (fun hc => hclean (List.mem_append_left _ hc)) k
  have hmadeUp' : (openKey k).Accepts false (E ++ [.processRecord x]) :=
    ((openKey k).accepts_append _ _ _).mpr ⟨hmadeUp, trivial, trivial⟩
  rcases eq_or_ne r.event.key k with hk | hk
  · subst hk
    have hP : keyed r.event.key (A ++ r :: B) = r :: keyed r.event.key B := by
      rw [keyed_append, hA, List.nil_append, keyed_self rfl]
    have hx : x.event.key = r.event.key := by rw [hevent]
    rw [hP] at horder howed
    have hB : keyed r.event.key (A ++ B) = keyed r.event.key B := by
      rw [keyed_append, hA, List.nil_append]
    rw [hB]
    refine ⟨?_, hmadeUp', fun hlook => ?_, fun hlook => ?_⟩
    · rw [← horder, processed_append, processed_processRecord, keyed_append, keyed_self hx]
      simp [hevent]
    · rw [Monitor.accepts_append]
      refine ⟨haccepts hlook, ?_, trivial⟩
      intro ho _ hp
      rcases howed hlook ho with hmem | hfirst
      · exact hR hlook (hevent ▸ hp) hmem
      · exact hcount ((releaseCounted_release (hevent ▸ hp)).mp hfirst)
    · rw [Monitor.after_append]
      cases hp : r.event.pressed with
      | false => simp [tapRelease, hevent, hp]
      | true =>
        intro ho
        refine (howed hlook ?_).imp_right (releaseCounted_press hp).mp
        simpa [tapRelease, hevent, hp] using ho
  · have hx : x.event.key ≠ k := by rwa [hevent]
    have hP : keyed k (A ++ r :: B) = keyed k (A ++ B) := by
      rw [keyed_append, keyed_other hk, keyed_append]
    rw [hP] at horder howed
    refine ⟨?_, hmadeUp', fun hlook => ?_, fun hlook => ?_⟩
    · rw [← horder, processed_append, processed_processRecord, keyed_append, keyed_other hx,
        keyed_nil, List.append_nil]
    · rw [Monitor.accepts_append]
      exact ⟨haccepts hlook, fun _ hkey => absurd hkey hx, trivial⟩
    · rw [Monitor.after_append]
      simpa [tapRelease, hx] using howed hlook

theorem register (h : Owed a E R P) (key : Keypos) :
    Owed a (E ++ [.registerTap key]) (R ++ [key]) P := by
  refine ⟨h.grown.trans (List.prefix_append _ _), h.queued, ?_⟩
  intro hclean k
  obtain ⟨horder, hmadeUp, haccepts, howed⟩ :=
    h.keys (fun hc => hclean (List.mem_append_left _ hc)) k
  refine ⟨?_, ?_, fun hlook => ?_, fun hlook => ?_⟩
  · have hsame : processed [.registerTap key] = [] := rfl
    rwa [processed_append, hsame, List.append_nil]
  · rw [Monitor.accepts_append]
    exact ⟨hmadeUp, trivial, trivial⟩
  · rw [Monitor.accepts_append]
    exact ⟨haccepts hlook, trivial, trivial⟩
  · rw [Monitor.after_append]
    intro ho
    rcases eq_or_ne key k with hk | hk
    · exact .inl (by simp [hk])
    · have ho' : (tapRelease k).after false E = true := by simpa [tapRelease, hk] using ho
      exact (howed hlook ho').imp_left fun hmem => List.mem_append_left _ hmem

theorem unregister (h : Owed a E R P) (hp : x.event.pressed = false)
    (hopen : isOpen x.event.key E = true) : Owed a (E ++ [.unregister x]) R P := by
  refine ⟨h.grown.trans (List.prefix_append _ _), h.queued, ?_⟩
  intro hclean k
  obtain ⟨horder, hmadeUp, haccepts, howed⟩ :=
    h.keys (fun hc => hclean (List.mem_append_left _ hc)) k
  refine ⟨?_, ?_, fun hlook => ?_, fun hlook => ?_⟩
  · rwa [processed_append, processed_unregister, List.append_nil]
  · rw [Monitor.accepts_append]
    refine ⟨hmadeUp, ⟨hp, ?_⟩, trivial⟩
    rintro rfl
    exact hopen
  · rw [Monitor.accepts_append]
    exact ⟨haccepts hlook, trivial, trivial⟩
  · rw [Monitor.after_append]
    exact howed hlook

theorem of_clear (hgrown : a.before <+: E) (hqueued : QueuedRecords P)
    (hclear : .clearKeyboard ∈ E) : Owed a E R P :=
  ⟨hgrown, hqueued, fun hclean => absurd hclear hclean⟩

/-- A pending record changes its tap and does not lose its count. -/
theorem raise (h : Owed a E R (A ++ r :: B)) (hevent : x.event = r.event)
    (hx : x.Uncounted) (hcount : 0 < r.tap.count → 0 < x.tap.count) :
    Owed a E R (A ++ x :: B) := by
  refine ⟨h.grown, ?_, ?_⟩
  · intro y hy
    rcases List.mem_append.mp hy with hy | hy
    · exact h.queued y (by simp [hy])
    · rcases List.mem_cons.mp hy with rfl | hy
      · exact ⟨hevent ▸ (h.queued r (by simp)).1, hx⟩
      · exact h.queued y (by simp [hy])
  · intro hclean k
    obtain ⟨horder, hmadeUp, haccepts, howed⟩ := h.keys hclean k
    rcases eq_or_ne r.event.key k with hk | hk
    · have hk' : x.event.key = k := by rw [hevent, hk]
      rw [keyed_append, keyed_self hk] at horder howed
      rw [keyed_append, keyed_self hk']
      refine ⟨by simpa [hevent] using horder, hmadeUp, haccepts, fun hlook ho => ?_⟩
      exact (howed hlook ho).imp_right (ReleaseCounted.raise hevent hcount)
    · have hk' : x.event.key ≠ k := by rwa [hevent]
      rw [keyed_append, keyed_other hk] at horder howed
      rw [keyed_append, keyed_other hk']
      exact ⟨horder, hmadeUp, haccepts, howed⟩

/-- A pending release takes its key out of `registered_taps` and is counted; no release of its key
that has not been counted is pending before it. -/
theorem take (h : Owed a E R (A ++ r :: B)) (hevent : x.event = r.event)
    (hp : r.event.pressed = false) (hcount : 0 < x.tap.count)
    (hA : a.looked → ∀ y ∈ A, y.event.key = r.event.key → y.event.pressed = false →
      0 < y.tap.count)
    (hR : ∀ k, k ≠ r.event.key → (k ∈ R' ↔ k ∈ R)) : Owed a E R' (A ++ x :: B) := by
  have hx : x.Uncounted := fun hpress => absurd (hevent ▸ hpress) (by simp [hp])
  have hraised := h.raise hevent hx fun _ => hcount
  refine ⟨hraised.grown, hraised.queued, ?_⟩
  intro hclean k
  obtain ⟨horder, hmadeUp, haccepts, howed⟩ := hraised.keys hclean k
  refine ⟨horder, hmadeUp, haccepts, fun hlook ho => ?_⟩
  rcases eq_or_ne k r.event.key with hk | hk
  · right
    have hk' : x.event.key = k := by rw [hevent, hk]
    rw [keyed_append, keyed_self hk']
    refine releaseCounted_of_mid (fun y hy => ?_) (hevent ▸ hp) hcount
    obtain ⟨hmem, hkey⟩ := List.mem_filter.mp hy
    exact hA hlook y hmem (by simp_all)
  · exact (howed hlook ho).imp_left (hR k hk).mpr

theorem arrive (h : Owed a E R P) {e : Keyevent} (he : e.isNoevent = false) :
    Owed (a.arrive e) E R (P ++ [{ event := e }]) := by
  refine ⟨h.grown, ?_, ?_⟩
  · intro y hy
    rcases List.mem_append.mp hy with hy | hy
    · exact h.queued y hy
    · cases List.mem_singleton.mp hy
      exact ⟨he, fun _ => rfl⟩
  · intro hclean k
    obtain ⟨horder, hmadeUp, haccepts, howed⟩ := h.keys hclean k
    have hnew : (keyed k [({ event := e } : Keyrecord)]).map (·.event) = arrivals k [e] := by
      rcases eq_or_ne e.key k with hk | hk <;> simp [keyed, arrivals, hk, he]
    rw [keyed_append]
    refine ⟨?_, hmadeUp, haccepts, fun hlook ho => (howed hlook ho).imp_right ReleaseCounted.append⟩
    rw [Account.arrive, ← List.append_assoc, List.map_append, horder, hnew]

end Owed

end Qmk.Tapping
