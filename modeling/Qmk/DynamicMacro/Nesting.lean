import Qmk.DynamicMacro.Playing

/-! # Macros that play macros

A stored release of a play key plays another macro, or the same one again. The playback returns
when the play keys that it comes to do not come round.
-/

namespace Qmk.DynamicMacro

open BothEnds

section Ages

variable {κ σ : Type*} {fw : Firmware κ σ} {r r' r'' : KeyRecord κ} {m : Macro}

/-- A press that `process_action` may make a release. -/
def MayRelease (fw : Firmware κ σ) (r : KeyRecord κ) : Prop :=
  ∃ env tapCount env' layerOff,
    fw.handle env { r with tapCount := tapCount } = .release env' layerOff

/-- A record that plays a macro. -/
def Starts (fw : Firmware κ σ) (r : KeyRecord κ) (m : Macro) : Prop :=
  fw.keycode r.key = .play m ∧ r.pressed = false

/-- A record that plays a macro, perhaps after it has been made a release. -/
def MayStart (fw : Firmware κ σ) (r : KeyRecord κ) (m : Macro) : Prop :=
  fw.keycode r.key = .play m ∧ (r.pressed = false ∨ MayRelease fw r)

/-- What `process_record` leaves of a stored record. -/
structure Ages (fw : Firmware κ σ) (r r' : KeyRecord κ) : Prop where
  key : r'.key = r.key
  pressed : r'.pressed = r.pressed ∨ r'.pressed = false ∧ MayRelease fw r

theorem MayRelease.pressed (h : MayRelease fw r) : r.pressed = true := by
  obtain ⟨env, tapCount, env', layerOff, h⟩ := h
  exact fw.pressed_of_release (r := { r with tapCount := tapCount }) h

theorem Ages.refl (fw : Firmware κ σ) (r : KeyRecord κ) : Ages fw r r := ⟨rfl, .inl rfl⟩

theorem Ages.mayRelease (h : Ages fw r r') (hr : MayRelease fw r') : MayRelease fw r := by
  rcases h.pressed with hpressed | ⟨-, hr⟩
  · obtain ⟨env, tapCount, env', layerOff, hrelease⟩ := hr
    refine ⟨env, tapCount, env', layerOff, ?_⟩
    rwa [h.key, hpressed] at hrelease
  · exact hr

theorem Ages.trans (h : Ages fw r r') (h' : Ages fw r' r'') : Ages fw r r'' := by
  refine ⟨h'.key.trans h.key, ?_⟩
  rcases h'.pressed with hpressed | ⟨hup, hr⟩
  · rw [hpressed]
    exact h.pressed
  · exact .inr ⟨hup, h.mayRelease hr⟩

theorem Ages.released (h : Ages fw r r') (hup : r.pressed = false) : r'.pressed = false := by
  rcases h.pressed with hpressed | ⟨hup, -⟩
  · exact hpressed.trans hup
  · exact hup

theorem Ages.starts (h : Ages fw r r') (hr : Starts fw r m) : Starts fw r' m := by
  rw [Starts, h.key]
  exact ⟨hr.1, h.released hr.2⟩

theorem Ages.mayStart (h : Ages fw r r') (hr : MayStart fw r' m) : MayStart fw r m := by
  obtain ⟨hkey, hr⟩ := hr
  rw [h.key] at hkey
  refine ⟨hkey, ?_⟩
  rcases hr with hup | hr
  · exact h.pressed.imp (fun hpressed => hpressed.symm.trans hup) And.right
  · exact .inr (h.mayRelease hr)

def Keepable (fw : Firmware κ σ) (r : KeyRecord κ) : Prop :=
  Storable fw r ∧ (fw.noNesting = true → ∀ m, fw.keycode r.key ≠ .play m)

theorem Ages.keepable (h : Ages fw r r') (hr : Keepable fw r) : Keepable fw r' := by
  rw [Keepable, Storable, h.key]
  exact hr

end Ages

section Frame

variable {κ σ : Type*} {fw : Firmware κ σ} {s s' s'' : State κ σ} {r : KeyRecord κ} {m : Macro}

def Firmware.place (fw : Firmware κ σ) (m : Macro) (j : ℕ) : ℤ := fw.begin m + m.direction * j

/-- The macros store records that they may store. -/
def Filled (fw : Firmware κ σ) (s : State κ σ) : Prop :=
  ∀ m, ∃ k : ℕ, s.macroEnd m = fw.place m k ∧
    ∀ j < k, Keepable fw (s.macroBuffer (fw.place m j))

/-- What playing changes: the records may have been written to. -/
structure Played (fw : Firmware κ σ) (s s' : State κ σ) : Prop where
  macroId : s'.macroId = none
  macroEnd : s'.macroEnd = s.macroEnd
  ages : ∀ p, Ages fw (s.macroBuffer p) (s'.macroBuffer p)

theorem Played.refl (hs : s.macroId = none) : Played fw s s :=
  ⟨hs, rfl, fun _ => Ages.refl fw _⟩

theorem Played.trans (h : Played fw s s') (h' : Played fw s' s'') : Played fw s s'' :=
  ⟨h'.macroId, h'.macroEnd.trans h.macroEnd, fun p => (h.ages p).trans (h'.ages p)⟩

theorem Played.withEnv (h : Played fw s s') (env : σ) : Played fw s { s' with env := env } :=
  ⟨h.macroId, h.macroEnd, h.ages⟩

theorem Played.filled (h : Played fw s s') (hf : Filled fw s) : Filled fw s' := by
  intro m
  obtain ⟨k, hend, hstored⟩ := hf m
  refine ⟨k, ?_, fun j hj => (h.ages _).keepable (hstored j hj)⟩
  rw [h.macroEnd, hend]

def AtHome (s : State κ σ) (home : Option ℤ) (r : KeyRecord κ) : Prop :=
  ∀ p, home = some p → s.macroBuffer p = r

theorem atHome_buffer (s : State κ σ) (p : ℤ) : AtHome s (some p) (s.macroBuffer p) := by
  rintro q ⟨⟩
  rfl

theorem played_write (hs : s.macroId = none) {home : Option ℤ} (hhome : AtHome s home r)
    {r' : KeyRecord κ} (hages : Ages fw r r') (env : σ) :
    Played fw s { (s.handOn home r).write home r' with env := env } := by
  cases home with
  | none => exact ⟨hs, rfl, fun _ => Ages.refl fw _⟩
  | some p =>
    refine ⟨hs, rfl, ?_⟩
    intro q
    change Ages fw (s.macroBuffer q) (Function.update s.macroBuffer p r' q)
    by_cases hq : q = p
    · subst hq
      rwa [Function.update_self, hhome q rfl]
    · rw [Function.update_of_ne hq]
      exact Ages.refl fw _

theorem played_handOn (hs : s.macroId = none) (home : Option ℤ) (env : σ) :
    Played fw s { s.handOn home r with env := env } := by
  cases home <;> exact ⟨hs, rfl, fun _ => Ages.refl fw _⟩

theorem atHome_write {home : Option ℤ} (r' : KeyRecord κ) (env : σ) :
    AtHome { (s.handOn home r).write home r' with env := env } home r' := by
  rintro p rfl
  exact Function.update_self ..

def Plays (fw : Firmware κ σ) (process : Process κ σ) : Prop :=
  ∀ home r s fed s', s.macroId = none → Filled fw s → Storable fw r → AtHome s home r →
    process home r s = some (fed, s') → Played fw s s'

theorem begin_eq_place (fw : Firmware κ σ) (m : Macro) : fw.begin m = fw.place m 0 := by
  simp [Firmware.place]

theorem place_succ (fw : Firmware κ σ) (m : Macro) (j : ℕ) :
    fw.place m j + m.direction = fw.place m (j + 1) := by
  rw [Firmware.place, Firmware.place]
  push_cast
  ring

theorem place_inj (fw : Firmware κ σ) (m : Macro) {j k : ℕ} :
    fw.place m j = fw.place m k ↔ j = k := by
  rw [Firmware.place, Firmware.place]
  cases m <;> simp [Macro.direction]

theorem Plays.playFrom {process : Process κ σ} (hp : Plays fw process) (m : Macro) {k : ℕ}
    (n : ℕ) : ∀ {j : ℕ} {s s' : State κ σ} {fed : List (KeyRecord κ)}, s.macroId = none →
      Filled fw s → s.macroEnd m = fw.place m k → j ≤ k →
      playFrom process m.direction (fw.place m k) n (fw.place m j) s = some (fed, s') →
      Played fw s s' := by
  induction n with
  | zero =>
    intro j s s' fed _ _ _ _ hrun
    cases hrun
  | succ n ih =>
    intro j s s' fed hs hf hend hj hrun
    rw [DynamicMacro.playFrom] at hrun
    split_ifs at hrun with hfinish
    · cases hrun
      exact Played.refl hs
    · have hlt : j < k := lt_of_le_of_ne hj fun h => hfinish (h ▸ rfl)
      obtain ⟨k', hend', hstored⟩ := hf m
      obtain rfl := (place_inj fw m).mp (hend'.symm.trans hend)
      simp only [Option.bind_eq_bind, Option.bind_eq_some_iff, Prod.exists, Option.some.injEq,
        Prod.mk.injEq] at hrun
      obtain ⟨fed₁, s₁, hfirst, fed₂, s₂, hrest, -, rfl⟩ := hrun
      have hhome := atHome_buffer s (fw.place m j)
      have h₁ := hp _ _ _ _ _ hs hf (hstored j hlt).1 hhome hfirst
      rw [place_succ] at hrest
      exact h₁.trans (ih h₁.macroId (h₁.filled hf) (by rw [h₁.macroEnd, hend]) hlt hrest)

theorem Plays.play {process : Process κ σ} (hp : Plays fw process) {n : ℕ}
    {fed : List (KeyRecord κ)} (hs : s.macroId = none) (hf : Filled fw s)
    (hrun : play fw process n m s = some (fed, s')) : Played fw s s' := by
  simp only [DynamicMacro.play, Option.bind_eq_bind, Option.bind_eq_some_iff, Prod.exists,
    Option.some.injEq, Prod.mk.injEq] at hrun
  obtain ⟨fed', s₁, hloop, -, rfl⟩ := hrun
  obtain ⟨k, hend, hstored⟩ := hf m
  rw [hend, begin_eq_place] at hloop
  have h := hp.playFrom m n (s := { s with env := fw.clear s.env }) hs hf hend (Nat.zero_le k) hloop
  exact ⟨h.macroId, h.macroEnd, h.ages⟩

theorem processRecord_play (n : ℕ) (home : Option ℤ) (hs : s.macroId = none)
    (hr : Starts fw r m) : processRecord fw (n + 1) home r s =
      (play fw (processRecord fw n) n m s).map fun out =>
        (out.1, { out.2 with env := fw.refuse out.2.env r }) := by
  obtain ⟨hkey, hup⟩ := hr
  have hmacro : processDynamicMacro fw (processRecord fw n) n r s =
      (play fw (processRecord fw n) n m s).map fun out => (false, out) := by
    simp only [processDynamicMacro, hs, hup, hkey]
    rfl
  rw [processRecord, hmacro]
  cases play fw (processRecord fw n) n m s <;> rfl

theorem starts_or_goesOn (hr : Storable fw r) : (∃ m, Starts fw r m) ∨ GoesOn fw r := by
  by_cases h : ∃ m, Starts fw r m
  · exact .inl h
  · refine .inr ⟨hr, ?_⟩
    cases hp : r.pressed with
    | true => exact .inl rfl
    | false => exact .inr fun m hm => h ⟨m, hm, hp⟩

theorem plays_processRecord (fw : Firmware κ σ) (n : ℕ) : Plays fw (processRecord fw n) := by
  induction n with
  | zero =>
    intro home r s fed s' _ _ _ _ hrun
    cases hrun
  | succ n ih =>
    intro home r s fed s' hs hf hr hhome hrun
    rcases starts_or_goesOn hr with ⟨m, hstarts⟩ | hgoes
    · rw [processRecord_play n home hs hstarts] at hrun
      obtain ⟨⟨fed', s₁⟩, hplay, hout⟩ := Option.map_eq_some_iff.mp hrun
      cases hout
      exact (ih.play hs hf hplay).withEnv _
    · rw [processRecord_idle n home hs hgoes] at hrun
      cases he : fw.handle s.env r with
      | done env =>
        rw [he] at hrun
        cases hrun
        exact played_handOn hs home env
      | untap env =>
        rw [he] at hrun
        cases hrun
        have hages : Ages fw r { r with tapCount := 0 } := ⟨rfl, .inl rfl⟩
        exact played_write hs hhome hages env
      | release env layerOff =>
        rw [he] at hrun
        obtain ⟨⟨fed', s₁⟩, hagain, hout⟩ := Option.map_eq_some_iff.mp hrun
        cases hout
        have hmay : MayRelease fw r := ⟨s.env, r.tapCount, env, layerOff, he⟩
        have hages : Ages fw r { r with pressed := false } := ⟨rfl, .inr ⟨rfl, hmay⟩⟩
        have hfirst := played_write hs hhome hages env
        have hsecond := ih home { r with pressed := false } _ _ _ hfirst.macroId
          (hfirst.filled hf) hr (atHome_write _ env) hagain
        exact (hfirst.trans hsecond).withEnv _

end Frame

section Returning

variable {κ σ : Type*} {fw : Firmware κ σ} {s s' : State κ σ} {r : KeyRecord κ} {m : Macro}

/-- The macros that a relation of records and macros leads to from a macro. -/
def Leads (fw : Firmware κ σ) (s : State κ σ) (R : KeyRecord κ → Macro → Prop) (m' m : Macro) :
    Prop :=
  ∃ x ∈ contents fw s m, R x m'

/-- Enough for any playback of a macro in states that playing leads to. -/
def Returns (fw : Firmware κ σ) (s : State κ σ) (m : Macro) (k : ℕ) : Prop :=
  ∀ s', Played fw s s' → ∀ n ≥ k, ∃ out, play fw (processRecord fw n) n m s' = some out

theorem mem_contents_iff {k : ℕ} {x : KeyRecord κ} (hend : s.macroEnd m = fw.place m k) :
    x ∈ contents fw s m ↔ ∃ j < k, s.macroBuffer (fw.place m j) = x := by
  have hlength : (m.direction * (s.macroEnd m - fw.begin m)).toNat = k := by
    rw [hend]
    exact toNat_place m (fw.begin m) k
  rw [contents, hlength, readFrom, List.mem_map]
  simp only [List.mem_range]
  rfl

theorem processRecord_returns (hs : s.macroId = none) (hr : Storable fw r) {home : Option ℤ}
    (hhome : AtHome s home r) {k : ℕ} (h : ∀ m, MayStart fw r m → Returns fw s m k) {n : ℕ}
    (hn : k + 2 ≤ n) : ∃ out, processRecord fw n home r s = some out := by
  obtain ⟨n, rfl⟩ : ∃ d, n = d + 2 := ⟨n - 2, by omega⟩
  rcases starts_or_goesOn hr with ⟨m, hstarts⟩ | hgoes
  · obtain ⟨out, hout⟩ := h m ⟨hstarts.1, .inl hstarts.2⟩ s (Played.refl hs) (n + 1) (by omega)
    rw [processRecord_play (n + 1) home hs hstarts, hout]
    exact ⟨_, rfl⟩
  · rw [processRecord_idle (n + 1) home hs hgoes]
    cases he : fw.handle s.env r with
    | done env => exact ⟨_, rfl⟩
    | untap env => exact ⟨_, rfl⟩
    | release env layerOff =>
      have hmay : MayRelease fw r := ⟨s.env, r.tapCount, env, layerOff, he⟩
      have hages : Ages fw r { r with pressed := false } := ⟨rfl, .inr ⟨rfl, hmay⟩⟩
      have hfirst := played_write hs hhome hages env
      have hup : Storable fw { r with pressed := false } := hr
      dsimp only
      suffices hagain : ∃ out, processRecord fw (n + 1) home { r with pressed := false }
          { (s.handOn home r).write home { r with pressed := false } with env := env } =
            some out by
        obtain ⟨out, hout⟩ := hagain
        rw [hout]
        exact ⟨_, rfl⟩
      rcases starts_or_goesOn hup with ⟨m, hstarts⟩ | hgoes
      · obtain ⟨out, hout⟩ := h m ⟨hstarts.1, .inr hmay⟩ _ hfirst n (by omega)
        rw [processRecord_play n home hfirst.macroId hstarts, hout]
        exact ⟨_, rfl⟩
      · have hplain : Plain fw { r with pressed := false } :=
          ⟨hup, hgoes.2.resolve_left Bool.false_ne_true⟩
        obtain ⟨s', hrelease, -⟩ := processRecord_release n home hfirst.macroId hplain rfl
        exact ⟨_, hrelease⟩

theorem Returns.mono {k k' : ℕ} (h : Returns fw s m k) (hle : k ≤ k') : Returns fw s m k' :=
  fun s' hs' n hn => h s' hs' n (hle.trans hn)

theorem Returns.played {k : ℕ} (h : Returns fw s m k) (hs' : Played fw s s') : Returns fw s' m k :=
  fun s'' hs'' n hn => h s'' (hs'.trans hs'') n hn

theorem playFrom_returns {n k : ℕ} (hn : ∀ j < k, ∀ s', Played fw s s' →
    ∃ out, processRecord fw n (some (fw.place m j)) (s'.macroBuffer (fw.place m j)) s' = some out)
    (hf : Filled fw s) (hend : s.macroEnd m = fw.place m k) :
    ∀ (count j : ℕ) (s' : State κ σ), Played fw s s' → j ≤ k → k - j < count →
      ∃ out, playFrom (processRecord fw n) m.direction (fw.place m k) count (fw.place m j) s' =
        some out := by
  intro count
  induction count with
  | zero =>
    intro j s' _ _ hcount
    exact absurd hcount (Nat.not_lt_zero _)
  | succ count ih =>
    intro j s' hs' hj hcount
    rw [playFrom]
    split_ifs with hfinish
    · exact ⟨_, rfl⟩
    · have hlt : j < k := lt_of_le_of_ne hj fun h => hfinish (h ▸ rfl)
      obtain ⟨⟨fed, s₁⟩, hfirst⟩ := hn j hlt s' hs'
      obtain ⟨k', hend', hstored⟩ := hs'.filled hf m
      obtain rfl := (place_inj fw m).mp (hend'.symm.trans (hs'.macroEnd ▸ hend))
      have hhome := atHome_buffer s' (fw.place m j)
      have h₁ := plays_processRecord fw n _ _ _ _ _ hs'.macroId (hs'.filled hf)
        (hstored j hlt).1 hhome hfirst
      obtain ⟨out, hrest⟩ := ih (j + 1) s₁ (hs'.trans h₁) hlt (by omega)
      rw [hfirst, place_succ]
      simp only [Option.bind_eq_bind, Option.bind_some, hrest]
      exact ⟨_, rfl⟩

theorem returns_of_leads (hf : Filled fw s) {k : ℕ}
    (h : ∀ m', Leads fw s (MayStart fw) m' m → Returns fw s m' k) : ∃ k', Returns fw s m k' := by
  obtain ⟨size, hend, hstored⟩ := hf m
  refine ⟨k + size + 2, ?_⟩
  intro s' hs' n hn
  have hend' : s'.macroEnd m = fw.place m size := hs'.macroEnd ▸ hend
  have hfirst : Played fw s { s' with env := fw.clear s'.env } := hs'.withEnv _
  have hloop : ∃ out, playFrom (processRecord fw n) m.direction (fw.place m size) n
      (fw.place m 0) { s' with env := fw.clear s'.env } = some out := by
    apply playFrom_returns (s := { s' with env := fw.clear s'.env }) ?_ (hfirst.filled hf) hend' n
      0 _ (Played.refl hs'.macroId) (Nat.zero_le _) (by omega)
    intro j hj s'' hs''
    have hplayed := hfirst.trans hs''
    have hhome := atHome_buffer s'' (fw.place m j)
    apply processRecord_returns hs''.macroId ((hplayed.ages _).keepable (hstored j hj)).1 hhome
      (k := k) ?_ (by omega)
    intro m' hmay
    have hleads : Leads fw s (MayStart fw) m' m :=
      ⟨_, (mem_contents_iff hend).mpr ⟨j, hj, rfl⟩, (hplayed.ages _).mayStart hmay⟩
    exact (h m' hleads).played hplayed
  obtain ⟨out, hout⟩ := hloop
  rw [play, hend', begin_eq_place, hout]
  exact ⟨_, rfl⟩

/-- Play keys that do not come round from a macro. -/
def Ends (fw : Firmware κ σ) (s : State κ σ) (R : KeyRecord κ → Macro → Prop) (m : Macro) : Prop :=
  Acc (Leads fw s R) m

theorem returns_of_ends (hf : Filled fw s) (h : Ends fw s (MayStart fw) m) :
    ∃ k, Returns fw s m k := by
  induction h with
  | intro m _ ih =>
    have hbound : ∀ m', ∃ k, Leads fw s (MayStart fw) m' m → Returns fw s m' k := by
      intro m'
      by_cases hleads : Leads fw s (MayStart fw) m' m
      · obtain ⟨k, hk⟩ := ih m' hleads
        exact ⟨k, fun _ => hk⟩
      · exact ⟨0, fun h => absurd h hleads⟩
    choose k hk using hbound
    apply returns_of_leads hf (k := k .one + k .two)
    intro m' hleads
    apply (hk m' hleads).mono
    cases m' <;> omega

/-- A record that plays a macro which does not return keeps the loop from returning. -/
theorem playFrom_eq_none {n j k : ℕ} (hj : j < k)
    (hstuck : ∀ s', Played fw s s' → processRecord fw n (some (fw.place m j))
      (s'.macroBuffer (fw.place m j)) s' = none)
    (hf : Filled fw s) (hend : s.macroEnd m = fw.place m k) :
    ∀ (count i : ℕ) (s' : State κ σ), Played fw s s' → i ≤ j →
      playFrom (processRecord fw n) m.direction (fw.place m k) count (fw.place m i) s' = none := by
  intro count
  induction count with
  | zero => exact fun _ _ _ _ => rfl
  | succ count ih =>
    intro i s' hs' hi
    have hne : fw.place m i ≠ fw.place m k := by
      rw [ne_eq, place_inj]
      omega
    rw [playFrom, if_neg hne]
    rcases hi.eq_or_lt with rfl | hlt
    · rw [hstuck s' hs']
      rfl
    · cases hfirst : processRecord fw n (some (fw.place m i)) (s'.macroBuffer (fw.place m i)) s'
        with
      | none => rfl
      | some out =>
        obtain ⟨fed, s₁⟩ := out
        obtain ⟨k', hend', hstored⟩ := hs'.filled hf m
        obtain rfl := (place_inj fw m).mp (hend'.symm.trans (hs'.macroEnd ▸ hend))
        have hhome := atHome_buffer s' (fw.place m i)
        have h₁ := plays_processRecord fw n _ _ _ _ _ hs'.macroId (hs'.filled hf)
          (hstored i (hlt.trans hj)).1 hhome hfirst
        rw [place_succ]
        simp only [Option.bind_eq_bind, Option.bind_some, ih (i + 1) s₁ (hs'.trans h₁) hlt]
        rfl

theorem exists_leads_of_not_ends {R : KeyRecord κ → Macro → Prop} (h : ¬ Ends fw s R m) :
    ∃ m', Leads fw s R m' m ∧ ¬ Ends fw s R m' := by
  by_contra hnone
  apply h
  constructor
  intro m' hleads
  by_contra hm'
  exact hnone ⟨m', hleads, hm'⟩

/-- A macro from which the play keys come round does not return, however deep the calls nest. -/
theorem play_eq_none (hf : Filled fw s) (n : ℕ) : ∀ (m : Macro) (s' : State κ σ),
    ¬ Ends fw s (Starts fw) m → Played fw s s' → play fw (processRecord fw n) n m s' = none := by
  induction n with
  | zero => exact fun _ _ _ _ => rfl
  | succ n ih =>
    intro m s' hm hs'
    obtain ⟨m', ⟨x, hx, hstarts⟩, hm'⟩ := exists_leads_of_not_ends hm
    obtain ⟨k, hend, -⟩ := hf m
    obtain ⟨j, hj, rfl⟩ := (mem_contents_iff hend).mp hx
    have hend' : s'.macroEnd m = fw.place m k := hs'.macroEnd ▸ hend
    have hfirst : Played fw s { s' with env := fw.clear s'.env } := hs'.withEnv _
    have hloop : playFrom (processRecord fw (n + 1)) m.direction (fw.place m k) (n + 1)
        (fw.place m 0) { s' with env := fw.clear s'.env } = none := by
      apply playFrom_eq_none (s := { s' with env := fw.clear s'.env }) hj ?_ (hfirst.filled hf)
        hend' (n + 1) 0 _ (Played.refl hs'.macroId) (Nat.zero_le j)
      intro s'' hs''
      have hplayed := hfirst.trans hs''
      rw [processRecord_play n _ hs''.macroId ((hplayed.ages _).starts hstarts),
        ih m' s'' hm' hplayed]
      rfl
    rw [play, hend', begin_eq_place, hloop]
    rfl

end Returning

section Recordings

variable {κ σ : Type*} {fw : Firmware κ σ} {s s' : State κ σ} {r : KeyRecord κ} {m : Macro}

/-- The macros, and the one that is being recorded, store records that they may store. -/
structure Recorded (fw : Firmware κ σ) (s : State κ σ) : Prop where
  filled : Filled fw s
  pointer : ∀ m, s.macroId = some m → ∃ k : ℕ, s.macroPointer = fw.place m k ∧
    ∀ j < k, Keepable fw (s.macroBuffer (fw.place m j))

theorem recorded_start (buffer : ℤ → KeyRecord κ) (env : σ) :
    Recorded fw (start fw buffer env) where
  filled m := ⟨0, begin_eq_place fw m, fun j hj => absurd hj (Nat.not_lt_zero j)⟩
  pointer m hm := by cases hm

theorem Recorded.recordStart (h : Recorded fw s) (m : Macro) :
    Recorded fw (recordStart fw m s) where
  filled := h.filled
  pointer m' hm' := by
    obtain rfl := Option.some.inj hm'
    exact ⟨0, begin_eq_place fw m, fun j hj => absurd hj (Nat.not_lt_zero j)⟩

theorem keepable_update (hr : Keepable fw r) {p q : ℤ} (h : Keepable fw (s.macroBuffer q)) :
    Keepable fw (Function.update s.macroBuffer p r q) := by
  rw [Function.update_apply]
  split_ifs
  · exact hr
  · exact h

theorem Recorded.recordKey (h : Recorded fw s) (hs : s.macroId = some m) (hr : Keepable fw r) :
    Recorded fw (recordKey fw m r s) := by
  unfold DynamicMacro.recordKey
  dsimp only
  split_ifs
  · exact ⟨h.filled, h.pointer⟩
  · constructor
    · intro m'
      obtain ⟨k, hend, hstored⟩ := h.filled m'
      exact ⟨k, hend, fun j hj => keepable_update hr (hstored j hj)⟩
    · intro m' hm'
      obtain rfl := Option.some.inj (hs.symm.trans hm')
      obtain ⟨k, hpointer, hstored⟩ := h.pointer m hs
      refine ⟨k + 1, (congrArg (· + m.direction) hpointer).trans (place_succ fw m k), ?_⟩
      intro j hj
      rcases Nat.lt_succ_iff_lt_or_eq.mp hj with hj | rfl
      · exact keepable_update hr (hstored j hj)
      · change Keepable fw (Function.update s.macroBuffer s.macroPointer r _)
        rwa [hpointer, Function.update_self]
  · exact ⟨h.filled, h.pointer⟩

theorem Recorded.stopRecording (h : Recorded fw s) : Recorded fw (stopRecording fw s) := by
  unfold DynamicMacro.stopRecording
  split
  · rename_i m hs
    refine ⟨?_, fun m' hm' => by cases hm'⟩
    intro m'
    obtain ⟨k, hpointer, hstored⟩ := h.pointer m hs
    obtain rfl | rfl := m.eq_or_eq_other m'
    · have hlength : (s.macroPointer - fw.begin m').natAbs = k := by
        rw [hpointer, Firmware.place, add_sub_cancel_left, Int.natAbs_mul, Int.natAbs_natCast]
        cases m' <;> simp [Macro.direction]
      have hend : trim fw m' s.macroBuffer (s.macroPointer - fw.begin m').natAbs s.macroPointer =
          fw.place m' ((readFrom s.macroBuffer m'.direction (fw.begin m') k).rdropWhile
            KeyRecord.pressed).length := by
        rw [hlength, hpointer]
        exact trim_readFrom fw m' s.macroBuffer k
      refine ⟨_, (Function.update_self ..).trans hend, ?_⟩
      intro j hj
      have hle := (List.rdropWhile_prefix KeyRecord.pressed
        (l := readFrom s.macroBuffer m'.direction (fw.begin m') k)).length_le
      rw [length_readFrom] at hle
      exact hstored j (hj.trans_le hle)
    · obtain ⟨k', hend, hstored'⟩ := h.filled m.other
      exact ⟨k', (Function.update_of_ne m.other_ne ..).trans hend, hstored'⟩
  · exact ⟨h.filled, h.pointer⟩

theorem Recorded.withEnv (h : Recorded fw s) (env : σ) : Recorded fw { s with env := env } :=
  ⟨h.filled, h.pointer⟩

theorem Recorded.handOn (h : Recorded fw s) (home : Option ℤ) (r : KeyRecord κ) :
    Recorded fw (s.handOn home r) := by
  cases home <;> exact ⟨h.filled, h.pointer⟩

theorem Played.recorded (h : Played fw s s') (hs : Recorded fw s) : Recorded fw s' :=
  ⟨h.filled hs.filled, fun m hm => by cases h.macroId.symm.trans hm⟩

theorem Recorded.recordValid (h : Recorded fw s) (hs : s.macroId = some m) (hr : Keepable fw r) :
    Recorded fw (recordValid fw m r s) := by
  unfold DynamicMacro.recordValid
  split_ifs
  · exact h.recordKey hs hr
  · exact h

theorem Recorded.processDynamicMacro {n : ℕ} {goesOn : Bool} {fed : List (KeyRecord κ)}
    (h : Recorded fw s)
    (hrun : processDynamicMacro fw (processRecord fw n) n r s = some (goesOn, fed, s')) :
    Recorded fw s' := by
  unfold DynamicMacro.processDynamicMacro at hrun
  cases hs : s.macroId with
  | none =>
    simp only [hs] at hrun
    split_ifs at hrun
    · cases hrun
      exact h
    · split at hrun
      · cases hrun
        exact h.recordStart _
      · obtain ⟨⟨fed', s₁⟩, hplay, hout⟩ := Option.map_eq_some_iff.mp hrun
        cases hout
        exact ((plays_processRecord fw n).play hs h.filled hplay).recorded h
      · cases hrun
        exact h
  | some m =>
    simp only [hs] at hrun
    split at hrun
    case h_1 | h_2 =>
      cases hrun
      split_ifs
      · exact h.stopRecording
      · exact h
    case h_3 k hk =>
      split_ifs at hrun with hnesting
      · cases hrun
        exact h
      · cases hrun
        exact h.recordValid hs ⟨fun m' hm => by simp [hk] at hm, fun hno => absurd hno hnesting⟩
    case h_4 hk =>
      cases hrun
      exact h.recordValid hs ⟨fun m' hm => by simp [hk] at hm, fun _ m' hm => by simp [hk] at hm⟩

theorem Recorded.processRecord (n : ℕ) : ∀ {r : KeyRecord κ} {s s' : State κ σ}
    {fed : List (KeyRecord κ)}, Recorded fw s →
      processRecord fw n none r s = some (fed, s') → Recorded fw s' := by
  induction n with
  | zero =>
    intro r s s' fed _ hrun
    cases hrun
  | succ n ih =>
    intro r s s' fed h hrun
    simp only [DynamicMacro.processRecord, Option.bind_eq_bind, Option.bind_eq_some_iff,
      Prod.exists] at hrun
    obtain ⟨goesOn, fed₁, s₁, hmacro, hrun⟩ := hrun
    have h₁ := h.processDynamicMacro hmacro
    split_ifs at hrun
    · split at hrun
      case h_1 env he =>
        cases hrun
        exact (h₁.handOn none r).withEnv env
      case h_2 env he =>
        cases hrun
        exact (h₁.handOn none r).withEnv env
      case h_3 env layerOff he =>
        simp only [Option.bind_eq_some_iff, Prod.exists, Option.some.injEq,
          Prod.mk.injEq] at hrun
        obtain ⟨fed₂, s₂, hagain, -, rfl⟩ := hrun
        exact (ih ((h₁.handOn none r).withEnv env) hagain).withEnv _
    · cases hrun
      exact h₁.withEnv _

theorem Recorded.run {n : ℕ} {ops : List (Op κ σ)} (h : Recorded fw s)
    (hrun : run fw n ops s = some s') : Recorded fw s' := by
  induction ops generalizing s with
  | nil =>
    cases hrun
    exact h
  | cons op ops ih =>
    simp only [DynamicMacro.run, List.foldlM_cons, Option.bind_eq_bind,
      Option.bind_eq_some_iff] at hrun
    obtain ⟨s₁, hstep, hrest⟩ := hrun
    refine ih ?_ hrest
    cases op with
    | record r =>
      obtain ⟨⟨fed, s₁⟩, hrecord, rfl⟩ := Option.map_eq_some_iff.mp hstep
      exact h.processRecord n hrecord
    | stopRecording =>
      cases hstep
      exact h.stopRecording
    | task env =>
      cases hstep
      exact h.withEnv env

theorem ends_of_noNesting (hf : Filled fw s) (hno : fw.noNesting = true) (m : Macro) :
    Ends fw s (MayStart fw) m := by
  constructor
  rintro m' ⟨x, hx, hstarts⟩
  obtain ⟨k, hend, hstored⟩ := hf m
  obtain ⟨j, hj, rfl⟩ := (mem_contents_iff hend).mp hx
  exact absurd hstarts.1 ((hstored j hj).2 hno m')

/-- Playing a macro returns when the play keys that the macros store do not come round from it, and
never when their releases do. In a build without nesting it always returns. -/
theorem playing_returns (buffer : ℤ → KeyRecord κ) (env : σ) {n : ℕ} {ops : List (Op κ σ)}
    (hrun : run fw n ops (start fw buffer env) = some s) (hs : s.macroId = none)
    (hr : Starts fw r m) :
    (fw.noNesting = true ∨ Ends fw s (MayStart fw) m →
        ∃ k, ∀ n ≥ k, ∃ out, processRecord fw n none r s = some out) ∧
      (¬ Ends fw s (Starts fw) m → ∀ n, processRecord fw n none r s = none) := by
  have hf := ((recorded_start buffer env).run hrun).filled
  constructor
  · intro hends
    obtain ⟨k, hk⟩ := returns_of_ends hf (hends.elim (ends_of_noNesting hf · m) id)
    refine ⟨k + 1, ?_⟩
    intro n hn
    obtain ⟨n, rfl⟩ : ∃ d, n = d + 1 := ⟨n - 1, by omega⟩
    obtain ⟨out, hout⟩ := hk s (Played.refl hs) n (by omega)
    rw [processRecord_play n none hs hr, hout]
    exact ⟨_, rfl⟩
  · intro hends n
    cases n with
    | zero => rfl
    | succ n =>
      rw [processRecord_play n none hs hr, play_eq_none hf n m s hends (Played.refl hs)]
      rfl

end Recordings

section Examples

theorem not_ends_of_self {κ σ : Type*} {fw : Firmware κ σ} {s : State κ σ} {m : Macro}
    {R : KeyRecord κ → Macro → Prop} (h : Leads fw s R m m) : ¬ Ends fw s R m := by
  intro hends
  induction hends with
  | intro m _ ih => exact ih m h h

/-- A macro with a key in it. -/
def recordA (key : Key) : List (Op Key (BitVec 8)) :=
  [.record ⟨.recordOne, true, 0⟩, .record ⟨.recordOne, false, 0⟩, .record ⟨key, true, 0⟩,
    .record ⟨key, false, 0⟩, .record ⟨.recordStop, true, 0⟩, .record ⟨.recordStop, false, 0⟩]

theorem playing_a_returns :
    ∃ s, run oneShotFirmware 4 (recordA .a) (start oneShotFirmware blank 0) = some s ∧
      ∃ k, ∀ n ≥ k, ∃ out, processRecord oneShotFirmware n none (playKey false) s = some out := by
  have hcontents : (run oneShotFirmware 4 (recordA .a) (start oneShotFirmware blank 0)).map
      (fun s => (s.macroId, contents oneShotFirmware s .one)) =
        some (none, [⟨.a, true, 0⟩, ⟨.a, false, 0⟩]) := by
    decide
  obtain ⟨s, hrun, hs⟩ := Option.map_eq_some_iff.mp hcontents
  obtain ⟨hid, hs⟩ := Prod.mk.inj hs
  refine ⟨s, hrun, (playing_returns blank 0 hrun hid ⟨rfl, rfl⟩).1 (.inr ?_)⟩
  constructor
  rintro m ⟨x, hx, hkey, -⟩
  rw [hs] at hx
  simp only [List.mem_cons, List.not_mem_nil, or_false] at hx
  rcases hx with rfl | rfl <;> cases hkey

/-- The macro plays itself. -/
theorem playing_itself_never_returns :
    ∃ s, run oneShotFirmware 4 (recordA .playOne) (start oneShotFirmware blank 0) = some s ∧
      s.macroId = none ∧
      ∀ n, processRecord oneShotFirmware n none (playKey false) s = none := by
  have hcontents : (run oneShotFirmware 4 (recordA .playOne)
      (start oneShotFirmware blank 0)).map
      (fun s => (s.macroId, contents oneShotFirmware s .one)) =
        some (none, [⟨.playOne, true, 0⟩, ⟨.playOne, false, 0⟩]) := by
    decide
  obtain ⟨s, hrun, hs⟩ := Option.map_eq_some_iff.mp hcontents
  obtain ⟨hid, hs⟩ := Prod.mk.inj hs
  refine ⟨s, hrun, hid, ?_⟩
  have hf := ((recorded_start blank 0).run hrun).filled
  have hstarts : Starts oneShotFirmware (playKey false) .one := ⟨rfl, rfl⟩
  have hself : Leads oneShotFirmware s (Starts oneShotFirmware) .one .one :=
    ⟨playKey false, by rw [hs]; decide, hstarts⟩
  intro n
  cases n with
  | zero => rfl
  | succ n =>
    rw [processRecord_play n none hid hstarts,
      play_eq_none hf n .one s (not_ends_of_self hself) (Played.refl hid)]
    rfl

end Examples

end Qmk.DynamicMacro
