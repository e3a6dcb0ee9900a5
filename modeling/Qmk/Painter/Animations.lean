import Qmk.DeferredExec
import Qmk.Monitor
import Qmk.Painter.Qgf

/-! # Animations

An animation has a slot with its image, and an executor that draws the next frame. A slot is free
when its device is `NULL`. Both are kept in step as long as no frame after the first one is drawn
whose delay is zero: then the executor ends and the slot stays.
-/

namespace Qmk.Painter

open DeferredExec

structure Animation (δ : Type*) where
  device : Option δ := none
  x : BitVec 16 := 0
  y : BitVec 16 := 0
  image : Option Qgf.ImageHandle := none
  fg : Qgf.Hsv := ⟨0, 0, 0⟩
  bg : Qgf.Hsv := ⟨0, 0, 0⟩
  frameNumber : BitVec 16 := 0
  deferToken : BitVec 8 := 0

namespace Animation

/-- What comes of drawing the frame of an animation: its delay, or nothing when it fails. -/
abbrev Draw (δ : Type*) := Animation δ → Option (BitVec 16)

/-- The executors with the current token, the slots, and the time of the last tick. An executor is
called with its slot. -/
structure State (n : ℕ) (δ : Type*) where
  table : Table n (Fin n) := fun _ => none
  currentToken : BitVec 8 := 0
  slots : Fin n → Animation δ := fun _ => {}
  lastExec : BitVec 32 := 0

variable {n : ℕ} {δ : Type*}

/-- `qp_render_animation_state`, which fails without a device or an image. -/
def render (draw : Draw δ) (a : Animation δ) : Option (BitVec 16 × Animation δ) :=
  match a.device, a.image with
  | some _, some image =>
    (draw a).map fun delay =>
      let next := a.frameNumber + 1
      (delay, { a with frameNumber := if image.frameCount ≤ next.toNat then 0 else next })
  | _, _ => none

def callback (draw : Draw δ) (i : Fin n) (_triggerTime : BitVec 32)
    (s : Table n (Fin n) × (Fin n → Animation δ)) :
    BitVec 32 × Table n (Fin n) × (Fin n → Animation δ) :=
  match render draw (s.2 i) with
  | none => (0, s.1, Function.update s.2 i { s.2 i with device := none })
  | some (delay, a) => (delay.setWidth 32, s.1, Function.update s.2 i a)

def animateRecolor (now : BitVec 32) (draw : Draw δ) (device : Option δ) (x y : BitVec 16)
    (image : Option Qgf.ImageHandle) (fg bg : Qgf.Hsv) (s : State n δ) : BitVec 8 × State n δ :=
  match Fin.find? fun i => (s.slots i).device.isNone with
  | none => (0, s)
  | some i =>
    let a := { s.slots i with
      device := device, x := x, y := y, image := image, fg := fg, bg := bg, frameNumber := 0 }
    match render draw a with
    | none => (0, { s with slots := Function.update s.slots i { a with device := none } })
    | some (delay, a) =>
      let (token, table, currentToken) :=
        deferExec s.table s.currentToken now (delay.setWidth 32) i
      let a := { a with deferToken := token }
      (token,
        { s with
          table := table
          currentToken := currentToken
          slots := Function.update s.slots i (if token = 0 then { a with device := none } else a) })

def stopAnimation (token : BitVec 8) (s : State n δ) : State n δ :=
  match Fin.find? fun i => (s.slots i).deferToken = token with
  | none => s
  | some i =>
    { s with
      table := cancel s.table token
      slots := Function.update s.slots i { s.slots i with device := none } }

def animationTick (now : BitVec 32) (draw : Draw δ) (s : State n δ) : State n δ :=
  let (last, table, slots) := task (callback draw) now s.lastExec (s.table, s.slots)
  { s with table := table, slots := slots, lastExec := last }

/-- The calls, with the time and what comes of drawing. Other tables of executors take their tokens
from the same counter. -/
inductive Action (δ : Type*)
  | animate (now : BitVec 32) (draw : Draw δ) (device : Option δ) (x y : BitVec 16)
    (image : Option Qgf.ImageHandle) (fg bg : Qgf.Hsv)
  | stop (token : BitVec 8)
  | tick (now : BitVec 32) (draw : Draw δ)
  | other (currentToken : BitVec 8)

def step (s : State n δ) : Action δ → State n δ
  | .animate now draw device x y image fg bg =>
    (animateRecolor now draw device x y image fg bg s).2
  | .stop token => stopAnimation token s
  | .tick now draw => animationTick now draw s
  | .other currentToken => { s with currentToken := currentToken }

def State.Pends (s : State n δ) (i : Fin n) : Prop :=
  ∃ e entry, s.table e = some entry ∧ entry.token = (s.slots i).deferToken ∧ entry.callback = i

structure StopsOwn (s : State n δ) (token : BitVec 8) : Prop where
  frees : ∀ i, (s.slots i).device ≠ none → (s.slots i).deferToken = token →
    ((stopAnimation token s).slots i).device = none ∧
    (∀ j ≠ i, (stopAnimation token s).slots j = s.slots j) ∧
    ∀ e entry, (stopAnimation token s).table e = some entry ↔
      s.table e = some entry ∧ entry.callback ≠ i
  keeps : (∀ i, (s.slots i).device ≠ none → (s.slots i).deferToken ≠ token) →
    stopAnimation token s = s

/-- A slot is taken exactly when an executor is pending for it, and stopping an animation affects no
other one. -/
structure Tidy (s : State n δ) : Prop where
  pends : ∀ i, (s.slots i).device ≠ none ↔ s.Pends i
  stops : ∀ token, StopsOwn s token

/-- If the time of an entry has come and its frame can be drawn, the frame has a delay. -/
def FrameContinues (now : BitVec 32) (draw : Draw δ) (s : Table n (Fin n) × (Fin n → Animation δ))
    (e : Fin n) : Prop :=
  ∀ entry, s.1 e = some entry → entry.Due now →
    ∀ r, render draw (s.2 entry.callback) = some r → r.1 ≠ 0

/-- The frames that a tick draws have delays. -/
def Continues (s : State n δ) : Action δ → Prop
  | .tick now draw =>
    0 < (now - s.lastExec).toInt → ∀ e, FrameContinues now draw (s.table, s.slots) e
  | _ => True

def animations (n : ℕ) (δ : Type*) : Monitor (Action δ) (State n δ) where
  next := step
  ok := Continues

/-- The slots and the executors are wired one to one, and the first slot with a token that is in use
is the slot in use. -/
structure Wired (table : Table n (Fin n)) (slots : Fin n → Animation δ) : Prop where
  tokens : TokensDiffer table
  slot : ∀ e entry, table e = some entry →
    (slots entry.callback).device ≠ none ∧ (slots entry.callback).deferToken = entry.token
  executor : ∀ i, (slots i).device ≠ none → ∃ e entry, table e = some entry ∧ entry.callback = i
  first : ∀ i j, (slots i).device ≠ none → j < i → (slots j).deferToken ≠ (slots i).deferToken

section Wiring

variable {table : Table n (Fin n)} {slots : Fin n → Animation δ}

theorem wired_start : Wired (fun _ => none) fun _ : Fin n => ({} : Animation δ) where
  tokens := by rintro i j e f ⟨⟩
  slot := by rintro e entry ⟨⟩
  executor := fun i h => absurd rfl h
  first := fun i j h => absurd rfl h

theorem Wired.token (h : Wired table slots) {i : Fin n} (hi : (slots i).device ≠ none) :
    ∃ e entry, table e = some entry ∧ entry.callback = i ∧ entry.token = (slots i).deferToken := by
  obtain ⟨e, entry, he, rfl⟩ := h.executor i hi
  exact ⟨e, entry, he, rfl, (h.slot e entry he).2.symm⟩

theorem Wired.callback_ne (h : Wired table slots) {e f : Fin n}
    {entry other : DeferredExec.Pending (Fin n)}
    (he : table e = some entry) (hf : table f = some other) (hne : e ≠ f) :
    entry.callback ≠ other.callback := by
  intro heq
  have htoken := (h.slot f other hf).2
  rw [← heq, (h.slot e entry he).2] at htoken
  exact hne (h.tokens e f entry other he hf htoken)

theorem Wired.deferToken_ne_zero (h : Wired table slots) {i : Fin n}
    (hi : (slots i).device ≠ none) : (slots i).deferToken ≠ 0 := by
  obtain ⟨e, entry, -, -, htoken⟩ := h.token hi
  exact htoken ▸ entry.valid

/-- A slot stays in use, or it stays free and may lose its token. -/
theorem Wired.update_slot (h : Wired table slots) {i : Fin n} {a : Animation δ}
    (hdevice : a.device ≠ none ↔ (slots i).device ≠ none)
    (htoken : a.deferToken = (slots i).deferToken ∨ a.device = none ∧ a.deferToken = 0) :
    Wired table (Function.update slots i a) := by
  have hd (j : Fin n) : ((Function.update slots i a) j).device ≠ none ↔
      (slots j).device ≠ none := by
    by_cases hj : j = i
    · subst hj
      rw [Function.update_self, hdevice]
    · rw [Function.update_of_ne hj]
  have ht (j : Fin n) : ((Function.update slots i a) j).deferToken = (slots j).deferToken ∨
      (slots j).device = none ∧ ((Function.update slots i a) j).deferToken = 0 := by
    by_cases hj : j = i
    · subst hj
      rw [Function.update_self]
      exact htoken.imp_right
        (And.imp_left fun hnone => not_not.mp ((not_congr hdevice).mp (by simpa)))
    · rw [Function.update_of_ne hj]
      exact .inl rfl
  have hlive {j : Fin n} (hj : (slots j).device ≠ none) :
      ((Function.update slots i a) j).deferToken = (slots j).deferToken :=
    (ht j).resolve_right fun hfree => hj hfree.1
  constructor
  · exact h.tokens
  · intro e entry he
    obtain ⟨hslot, heq⟩ := h.slot e entry he
    rw [hd, hlive hslot]
    exact ⟨hslot, heq⟩
  · intro j hj
    exact h.executor j ((hd j).mp hj)
  · intro j k hj hlt
    have hj := (hd j).mp hj
    rw [hlive hj]
    rcases ht k with heq | ⟨-, hzero⟩
    · rw [heq]
      exact h.first j k hj hlt
    · rw [hzero]
      exact (h.deferToken_ne_zero hj).symm

theorem Wired.update_entry (h : Wired table slots) {e : Fin n}
    {entry later : DeferredExec.Pending (Fin n)} (he : table e = some entry)
    (htoken : later.token = entry.token) (hcallback : later.callback = entry.callback) :
    Wired (Function.update table e (some later)) slots := by
  constructor
  · refine h.tokens.update_some fun f other hne hf heq => hne ?_
    exact h.tokens f e other entry hf he (heq.trans htoken)
  · intro f other hf
    by_cases hfe : f = e
    · subst hfe
      rw [Function.update_self, Option.some.injEq] at hf
      rw [← hf, htoken, hcallback]
      exact h.slot f entry he
    · rw [Function.update_of_ne hfe] at hf
      exact h.slot f other hf
  · intro i hi
    obtain ⟨f, other, hf, hother⟩ := h.executor i hi
    by_cases hfe : f = e
    · subst hfe
      rw [he, Option.some.injEq] at hf
      exact ⟨f, later, Function.update_self .., by rw [hcallback, hf, hother]⟩
    · exact ⟨f, other, by rw [Function.update_of_ne hfe, hf], hother⟩
  · exact h.first

theorem Wired.finish (h : Wired table slots) {e : Fin n} {entry : DeferredExec.Pending (Fin n)}
    (he : table e = some entry) {a : Animation δ} (hdevice : a.device = none)
    (htoken : a.deferToken = (slots entry.callback).deferToken) :
    Wired (Function.update table e none) (Function.update slots entry.callback a) := by
  have ht (j : Fin n) : ((Function.update slots entry.callback a) j).deferToken =
      (slots j).deferToken := by
    by_cases hj : j = entry.callback
    · subst hj
      rw [Function.update_self, htoken]
    · rw [Function.update_of_ne hj]
  have hd {j : Fin n} (hj : ((Function.update slots entry.callback a) j).device ≠ none) :
      j ≠ entry.callback ∧ (slots j).device ≠ none := by
    have hne : j ≠ entry.callback := by
      rintro rfl
      rw [Function.update_self] at hj
      exact hj hdevice
    rw [Function.update_of_ne hne] at hj
    exact ⟨hne, hj⟩
  constructor
  · exact h.tokens.update_none e
  · intro f other hf
    have hfe : f ≠ e := by
      rintro rfl
      simp at hf
    rw [Function.update_of_ne hfe] at hf
    have hne := h.callback_ne hf he hfe
    rw [Function.update_of_ne hne]
    exact h.slot f other hf
  · intro j hj
    obtain ⟨hne, hj⟩ := hd hj
    obtain ⟨f, other, hf, rfl⟩ := h.executor j hj
    have hfe : f ≠ e := by
      rintro rfl
      rw [he, Option.some.injEq] at hf
      exact hne (hf ▸ rfl)
    exact ⟨f, other, by rw [Function.update_of_ne hfe, hf], rfl⟩
  · intro j k hj hlt
    rw [ht, ht]
    exact h.first j k (hd hj).2 hlt

/-- The first free slot is taken, with an executor whose token is new. -/
theorem Wired.begin (h : Wired table slots) {i e : Fin n} {entry : DeferredExec.Pending (Fin n)}
    {a : Animation δ} (hfree : (slots i).device = none)
    (hbefore : ∀ j < i, (slots j).device ≠ none) (he : table e = none)
    (hnew : TokenCanBeUsed table entry.token) (hcallback : entry.callback = i)
    (hdevice : a.device ≠ none) (htoken : a.deferToken = entry.token) :
    Wired (Function.update table e (some entry)) (Function.update slots i a) := by
  have hunused {f : Fin n} {other : DeferredExec.Pending (Fin n)} (hf : table f = some other) :
      other.token ≠ entry.token := by
    intro heq
    exact hnew.2 f ((tokenAt_of_some hf).trans heq)
  have hlive {j : Fin n} (hj : (slots j).device ≠ none) :
      (slots j).deferToken ≠ entry.token ∧ j ≠ i := by
    obtain ⟨f, other, hf, -, heq⟩ := h.token hj
    exact ⟨heq ▸ hunused hf, by rintro rfl; exact hj hfree⟩
  constructor
  · exact h.tokens.update_some fun f other _ hf => hunused hf
  · intro f other hf
    by_cases hfe : f = e
    · subst hfe
      rw [Function.update_self, Option.some.injEq] at hf
      subst hf hcallback
      rw [Function.update_self]
      exact ⟨hdevice, htoken⟩
    · rw [Function.update_of_ne hfe] at hf
      have hslot := h.slot f other hf
      rw [Function.update_of_ne (hlive hslot.1).2]
      exact hslot
  · intro j hj
    by_cases hji : j = i
    · exact ⟨e, entry, Function.update_self .., hcallback.trans hji.symm⟩
    · rw [Function.update_of_ne hji] at hj
      obtain ⟨f, other, hf, hother⟩ := h.executor j hj
      have hfe : f ≠ e := by
        rintro rfl
        rw [he] at hf
        cases hf
      exact ⟨f, other, by rw [Function.update_of_ne hfe, hf], hother⟩
  · intro j k hj hlt
    by_cases hji : j = i
    · subst hji
      rw [Function.update_self, Function.update_of_ne hlt.ne, htoken]
      exact (hlive (hbefore k hlt)).1
    · rw [Function.update_of_ne hji] at hj ⊢
      by_cases hki : k = i
      · subst hki
        rw [Function.update_self, htoken]
        exact (hlive hj).1.symm
      · rw [Function.update_of_ne hki]
        exact h.first j k hj hlt

end Wiring

section Steps

variable {s : State n δ}

theorem setWidth_eq_zero {delay : BitVec 16} : delay.setWidth 32 = 0 ↔ delay = 0 := by
  constructor
  · intro h
    apply BitVec.eq_of_toNat_eq
    have htoNat := congrArg BitVec.toNat h
    rw [BitVec.toNat_setWidth_of_le (by decide)] at htoNat
    exact htoNat
  · rintro rfl
    rfl

theorem render_eq_some {draw : Draw δ} {a : Animation δ} {r : BitVec 16 × Animation δ}
    (h : render draw a = some r) : a.device ≠ none ∧ r.2.device = a.device ∧
      r.2.deferToken = a.deferToken := by
  rw [render] at h
  split at h
  · rename_i hdevice _
    obtain ⟨delay, -, rfl⟩ := Option.map_eq_some_iff.mp h
    exact ⟨by rw [hdevice]; exact Option.some_ne_none _, rfl, rfl⟩
  · cases h

theorem Wired.animate (h : Wired s.table s.slots) (now : BitVec 32) (draw : Draw δ)
    (device : Option δ) (x y : BitVec 16) (image : Option Qgf.ImageHandle) (fg bg : Qgf.Hsv) :
    Wired (animateRecolor now draw device x y image fg bg s).2.table
      (animateRecolor now draw device x y image fg bg s).2.slots := by
  rw [animateRecolor]
  cases hfind : Fin.find? fun i => (s.slots i).device.isNone with
  | none => exact h
  | some i =>
    have hfree : (s.slots i).device = none := by simpa using Fin.eq_true_of_find?_eq_some hfind
    have hbefore : ∀ j < i, (s.slots j).device ≠ none := by
      intro j hj hnone
      have hnot := Fin.eq_false_of_find?_eq_some_of_lt hfind j hj
      rw [hnone] at hnot
      cases hnot
    dsimp only
    split
    · exact h.update_slot (by simp [hfree]) (.inl rfl)
    · rename_i delay b hrender
      obtain ⟨hdevice, hkept, -⟩ := render_eq_some hrender
      rcases deferExec_cases s.table s.currentToken now (delay.setWidth 32) i with
        ⟨hzero, htable⟩ | ⟨e, entry, he, hnew, -, hcallback, -, htok, htable⟩
      · dsimp only
        rw [hzero, htable]
        exact h.update_slot (by simp [hfree]) (.inr (by simp))
      · dsimp only
        rw [htok, htable, if_neg entry.valid]
        exact h.begin hfree hbefore he hnew hcallback (by rw [hkept]; exact hdevice) rfl

theorem Wired.stopAnimation_of_mem (h : Wired s.table s.slots) {e : Fin n}
    {entry : DeferredExec.Pending (Fin n)} (he : s.table e = some entry) :
    stopAnimation entry.token s = { s with
      table := Function.update s.table e none
      slots := Function.update s.slots entry.callback
        { s.slots entry.callback with device := none } } := by
  obtain ⟨hdevice, htoken⟩ := h.slot e entry he
  have hfind : (Fin.find? fun i => decide ((s.slots i).deferToken = entry.token)) =
      some entry.callback := by
    refine Fin.find?_eq_some_iff.mpr ⟨by simpa using htoken, fun j hj => ?_⟩
    have hne := h.first entry.callback j hdevice hj
    rw [htoken] at hne
    simpa using hne
  rw [stopAnimation, hfind, cancel_of_some h.tokens he]

theorem Wired.stopAnimation_of_absent (h : Wired s.table s.slots) {token : BitVec 8}
    (hnot : ∀ i, (s.slots i).device ≠ none → (s.slots i).deferToken ≠ token) :
    stopAnimation token s = s := by
  have hcancel : cancel s.table token = s.table := by
    apply cancel_of_absent
    intro e entry he heq
    obtain ⟨hdevice, htoken⟩ := h.slot e entry he
    exact hnot _ hdevice (htoken.trans heq)
  rw [stopAnimation]
  cases hfind : Fin.find? fun i => decide ((s.slots i).deferToken = token) with
  | none => rfl
  | some i =>
    have htoken : (s.slots i).deferToken = token := by
      simpa using Fin.eq_true_of_find?_eq_some hfind
    have hfree : (s.slots i).device = none := by
      by_contra hdevice
      exact hnot i hdevice htoken
    have hsame : ({ s.slots i with device := none } : Animation δ) = s.slots i := by
      rw [← hfree]
    dsimp only
    rw [hcancel, hsame, Function.update_eq_self]

theorem Wired.stopsOwn (h : Wired s.table s.slots) (token : BitVec 8) : StopsOwn s token := by
  constructor
  · intro i hi htoken
    obtain ⟨e, entry, he, rfl, heq⟩ := h.token hi
    rw [← htoken, ← heq, h.stopAnimation_of_mem he]
    refine ⟨by simp, fun j hj => Function.update_of_ne hj _ _, fun f other => ?_⟩
    by_cases hfe : f = e
    · subst hfe
      simp [he]
      rintro rfl
      rfl
    · change Function.update s.table e none f = some other ↔ _
      rw [Function.update_of_ne hfe]
      exact ⟨fun hf => ⟨hf, h.callback_ne hf he hfe⟩, And.left⟩
  · exact h.stopAnimation_of_absent

theorem Wired.stop (h : Wired s.table s.slots) (token : BitVec 8) :
    Wired (stopAnimation token s).table (stopAnimation token s).slots := by
  by_cases hnot : ∀ i, (s.slots i).device ≠ none → (s.slots i).deferToken ≠ token
  · rw [h.stopAnimation_of_absent hnot]
    exact h
  · push Not at hnot
    obtain ⟨i, hi, rfl⟩ := hnot
    obtain ⟨e, entry, he, rfl, heq⟩ := h.token hi
    rw [← heq, h.stopAnimation_of_mem he]
    exact h.finish he rfl rfl

end Steps

section Ticks

variable {now : BitVec 32} {draw : Draw δ} {s : Table n (Fin n) × (Fin n → Animation δ)}
  {e : Fin n} {entry : DeferredExec.Pending (Fin n)}

def Leaked (s : Table n (Fin n) × (Fin n → Animation δ)) (i : Fin n) : Prop :=
  (s.2 i).device ≠ none ∧ ∀ e entry, s.1 e = some entry → entry.callback ≠ i

theorem runEntry_of_none (h : s.1 e = none) : runEntry (callback draw) now s e = s := by
  rw [runEntry, h]

theorem runEntry_of_not_due (h : s.1 e = some entry) (hdue : ¬ entry.Due now) :
    runEntry (callback draw) now s e = s := by
  simp only [runEntry, h, if_neg hdue]

theorem runEntry_of_fails (h : s.1 e = some entry) (hdue : entry.Due now)
    (hrender : render draw (s.2 entry.callback) = none) :
    runEntry (callback draw) now s e = (Function.update s.1 e none,
      Function.update s.2 entry.callback { s.2 entry.callback with device := none }) := by
  simp only [runEntry, h, if_pos hdue, callback, hrender, requeue, tokenAt_of_some h]
  simp

theorem runEntry_of_draws (h : s.1 e = some entry) (hdue : entry.Due now)
    {r : BitVec 16 × Animation δ} (hrender : render draw (s.2 entry.callback) = some r) :
    runEntry (callback draw) now s e =
      (Function.update s.1 e (if r.1 = 0 then none
        else some { entry with triggerTime := entry.triggerTime + r.1.setWidth 32 }),
      Function.update s.2 entry.callback r.2) := by
  simp only [runEntry, h, if_pos hdue, callback, hrender, requeue, tokenAt_of_some h,
    setWidth_eq_zero]
  simp

theorem runEntry_frame (now : BitVec 32) (draw : Draw δ) (s) (e : Fin n) :
    (∀ f ≠ e, (runEntry (callback draw) now s e).1 f = s.1 f) ∧
    (∀ i, (∀ entry, s.1 e = some entry → entry.callback ≠ i) →
      (runEntry (callback draw) now s e).2 i = s.2 i) ∧
    ∀ entry, (runEntry (callback draw) now s e).1 e = some entry →
      ∃ old, s.1 e = some old ∧ old.callback = entry.callback := by
  cases he : s.1 e with
  | none =>
    rw [runEntry_of_none he]
    exact ⟨fun _ _ => rfl, fun _ _ => rfl, fun entry h => absurd (he.symm.trans h) (by simp)⟩
  | some entry =>
    by_cases hdue : entry.Due now
    · cases hrender : render draw (s.2 entry.callback) with
      | none =>
        rw [runEntry_of_fails he hdue hrender]
        refine ⟨fun f hf => Function.update_of_ne hf _ _, fun i hi => ?_, fun other h => ?_⟩
        · exact Function.update_of_ne (hi entry rfl).symm _ _
        · simp at h
      | some r =>
        rw [runEntry_of_draws he hdue hrender]
        refine ⟨fun f hf => Function.update_of_ne hf _ _, fun i hi => ?_, fun other h => ?_⟩
        · exact Function.update_of_ne (hi entry rfl).symm _ _
        · dsimp only at h
          rw [Function.update_self] at h
          split_ifs at h
          exact ⟨entry, rfl, (Option.some.inj h) ▸ rfl⟩
    · rw [runEntry_of_not_due he hdue]
      exact ⟨fun _ _ => rfl, fun _ _ => rfl, fun other h => ⟨other, he.symm.trans h, rfl⟩⟩

theorem Wired.runEntry (h : Wired s.1 s.2) (hok : FrameContinues now draw s e) :
    Wired (DeferredExec.runEntry (callback draw) now s e).1
      (DeferredExec.runEntry (callback draw) now s e).2 := by
  cases he : s.1 e with
  | none =>
    rw [runEntry_of_none he]
    exact h
  | some entry =>
    by_cases hdue : entry.Due now
    · cases hrender : render draw (s.2 entry.callback) with
      | none =>
        rw [runEntry_of_fails he hdue hrender]
        exact h.finish he rfl rfl
      | some r =>
        obtain ⟨-, hkept, htoken⟩ := render_eq_some hrender
        rw [runEntry_of_draws he hdue hrender, if_neg (hok entry he hdue r hrender)]
        apply (Wired.update_entry h he _ _).update_slot
        · rw [hkept]
        · exact .inl htoken
        · rfl
        · rfl
    · rw [runEntry_of_not_due he hdue]
      exact h

theorem frameContinues_runEntry (h : Wired s.1 s.2) {f : Fin n} (hne : f ≠ e) :
    FrameContinues now draw (runEntry (callback draw) now s e) f ↔ FrameContinues now draw s f := by
  obtain ⟨htable, hslots, -⟩ := runEntry_frame now draw s e
  rw [FrameContinues, FrameContinues, htable f hne]
  refine forall₂_congr fun other hf => ?_
  rw [hslots other.callback fun entry he => h.callback_ne he hf hne.symm]

theorem leaked_of_not_frameContinues (h : Wired s.1 s.2) (hok : ¬ FrameContinues now draw s e) :
    ∃ i, Leaked (runEntry (callback draw) now s e) i := by
  rw [FrameContinues] at hok
  push Not at hok
  obtain ⟨entry, he, hdue, r, hrender, hzero⟩ := hok
  obtain ⟨hdevice, hkept, -⟩ := render_eq_some hrender
  refine ⟨entry.callback, ?_, ?_⟩
  · rw [runEntry_of_draws he hdue hrender]
    dsimp only
    rw [Function.update_self, hkept]
    exact hdevice
  · intro f other hf
    rw [runEntry_of_draws he hdue hrender, if_pos hzero] at hf
    dsimp only at hf
    have hfe : f ≠ e := by
      rintro rfl
      simp at hf
    rw [Function.update_of_ne hfe] at hf
    exact h.callback_ne hf he hfe

theorem Leaked.runEntry {i : Fin n} (h : Leaked s i) :
    Leaked (DeferredExec.runEntry (callback draw) now s e) i := by
  obtain ⟨htable, hslots, hcallback⟩ := runEntry_frame now draw s e
  constructor
  · rw [hslots i (h.2 e)]
    exact h.1
  · intro f other hf
    by_cases hfe : f = e
    · subst hfe
      obtain ⟨old, hold, heq⟩ := hcallback other hf
      exact heq ▸ h.2 f old hold
    · rw [htable f hfe] at hf
      exact h.2 f other hf

theorem Leaked.foldl {i : Fin n} (h : Leaked s i) (l : List (Fin n)) :
    Leaked (l.foldl (DeferredExec.runEntry (callback draw) now) s) i := by
  induction l generalizing s with
  | nil => exact h
  | cons e l ih => exact ih h.runEntry

/-- The loop over the executors keeps the wiring when all frames continue, and leaks a slot
otherwise. -/
theorem foldl_runEntry (h : Wired s.1 s.2) {l : List (Fin n)} (hl : l.Nodup) :
    ((∀ e ∈ l, FrameContinues now draw s e) →
      Wired (l.foldl (runEntry (callback draw) now) s).1
        (l.foldl (runEntry (callback draw) now) s).2) ∧
    ((∃ e ∈ l, ¬ FrameContinues now draw s e) →
      ∃ i, Leaked (l.foldl (runEntry (callback draw) now) s) i) := by
  induction l generalizing s with
  | nil => exact ⟨fun _ => h, by rintro ⟨e, he, -⟩; cases he⟩
  | cons e l ih =>
    obtain ⟨hel, hl⟩ := List.nodup_cons.mp hl
    have hothers : ∀ f ∈ l, (FrameContinues now draw (runEntry (callback draw) now s e) f ↔
        FrameContinues now draw s f) := fun f hf =>
      frameContinues_runEntry h (by rintro rfl; exact hel hf)
    constructor
    · intro hall
      obtain ⟨hok, hall⟩ := List.forall_mem_cons.mp hall
      exact (ih (h.runEntry hok) hl).1 fun f hf => (hothers f hf).mpr (hall f hf)
    · rintro ⟨f, hf, hbad⟩
      by_cases hok : FrameContinues now draw s e
      · rcases List.mem_cons.mp hf with rfl | hf
        · exact absurd hok hbad
        · exact (ih (h.runEntry hok) hl).2 ⟨f, hf, mt (hothers f hf).mp hbad⟩
      · obtain ⟨i, hleaked⟩ := leaked_of_not_frameContinues h hok
        exact ⟨i, hleaked.foldl l⟩

end Ticks

section Runs

variable {s : State n δ}

theorem Wired.tidy (h : Wired s.table s.slots) : Tidy s where
  pends i := by
    constructor
    · intro hi
      obtain ⟨e, entry, he, hcallback, htoken⟩ := h.token hi
      exact ⟨e, entry, he, htoken, hcallback⟩
    · rintro ⟨e, entry, he, -, rfl⟩
      exact (h.slot e entry he).1
  stops := h.stopsOwn

theorem Wired.tick (h : Wired s.table s.slots) {now : BitVec 32} {draw : Draw δ}
    (hok : Continues s (.tick now draw)) :
    Wired (animationTick now draw s).table (animationTick now draw s).slots := by
  rw [animationTick, task]
  split_ifs with hnow
  · exact (foldl_runEntry (s := (s.table, s.slots)) h (List.nodup_finRange n)).1
      fun e _ => hok hnow e
  · exact h

theorem Wired.step (h : Wired s.table s.slots) {action : Action δ} (hok : Continues s action) :
    Wired (Animation.step s action).table (Animation.step s action).slots := by
  cases action with
  | animate now draw device x y image fg bg => exact h.animate now draw device x y image fg bg
  | stop token => exact h.stop token
  | tick now draw => exact h.tick hok
  | other currentToken => exact h

/-- The executor of an animation that does not continue has ended, and its slot is still taken. -/
theorem Wired.not_tidy (h : Wired s.table s.slots) {action : Action δ}
    (hbad : ¬ Continues s action) : ¬ Tidy (Animation.step s action) := by
  intro htidy
  cases action with
  | tick now draw =>
    rw [Continues] at hbad
    push Not at hbad
    obtain ⟨hnow, e, hframe⟩ := hbad
    obtain ⟨i, hdevice, hpends⟩ :=
      (foldl_runEntry (s := (s.table, s.slots)) h (List.nodup_finRange n)).2
        ⟨e, List.mem_finRange e, hframe⟩
    have htick : animationTick now draw s = { s with
        table := ((List.finRange n).foldl
          (DeferredExec.runEntry (callback draw) now) (s.table, s.slots)).1
        slots := ((List.finRange n).foldl
          (DeferredExec.runEntry (callback draw) now) (s.table, s.slots)).2
        lastExec := now } := by
      rw [animationTick, task, if_pos hnow]
    have hiff := htidy.pends i
    rw [Animation.step, htick] at hiff
    obtain ⟨f, other, hf, -, hcallback⟩ := hiff.mp hdevice
    exact hpends f other hf hcallback
  | animate => exact hbad trivial
  | stop => exact hbad trivial
  | other => exact hbad trivial

/-- In a run, the slots and the executors stay in step exactly as long as every frame that a tick
draws has a delay. -/
theorem tidy_iff (actions : List (Action δ)) :
    (∀ pre rest, actions = pre ++ rest → Tidy ((animations n δ).after {} pre)) ↔
      (animations n δ).Accepts {} actions := by
  apply Monitor.accepts_iff_prefixes (I := fun s : State n δ => Wired s.table s.slots)
  · exact fun _ h => h.tidy
  · exact fun _ _ h hok => h.step hok
  · intro s action h htidy
    by_contra hbad
    exact h.not_tidy hbad htidy
  · exact wired_start

def twoFrames : Qgf.ImageHandle := ⟨8, 8, 2, .make [] 0⟩

/-- The second frame has no delay, and its animation cannot be stopped after it. -/
theorem zero_delay_leaks : ¬ Tidy ((animations 4 Unit).after {}
    [.animate 0 (fun _ => some 100) (some ()) 0 0 (some twoFrames) ⟨0, 0, 255⟩ ⟨0, 0, 0⟩,
      .tick 100 fun _ => some 0]) := by
  intro h
  obtain ⟨e, entry, he, -⟩ := (h.pends 0).mp (by decide)
  have hnone : ∀ e, (((animations 4 Unit).after {}
    [.animate 0 (fun _ => some 100) (some ()) 0 0 (some twoFrames) ⟨0, 0, 255⟩ ⟨0, 0, 0⟩,
      .tick 100 fun _ => some 0]).table e).isNone := by decide
  have hsome := hnone e
  rw [he] at hsome
  cases hsome

end Runs

end Animation

end Qmk.Painter
