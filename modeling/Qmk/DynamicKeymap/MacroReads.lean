import Qmk.DynamicKeymap.MacroSend

/-! # What is read to send a macro

The macros in front of a macro are skipped, and then its bytes are read one by one up to a zero. The
end of the macros is looked at only as long as there are zeros to skip. What is read lies inside
them unless the last of these zeros is the last byte.
-/

namespace Qmk.DynamicKeymap

open SendString

/-- What the loop over the bytes of a macro does with a byte: it ends, it reads on, or it sends the
buffer and begins with the next piece. -/
inductive Reaction
  | stop
  | goOn (place : Place) (data : List (BitVec 8))
  | send (data : List (BitVec 8))

def react : Place → List (BitVec 8) → BitVec 8 → Reaction
  | .start, data, b =>
    let data := (data.set 0 b).set 1 0
    if b = 0 then .stop else if b = qmkPrefix then .goOn .code data else .send data
  | .code, data, c =>
    let data := data.set 1 c
    if c = 0 then .stop
    else if c = tapCode ∨ c = downCode ∨ c = upCode then .goOn .key data
    else if c = delayCode then .goOn (.delay 2) data
    else .send data
  | .key, data, k =>
    let data := data.set 2 k
    if k = 0 then .stop else .send (data.set 3 0)
  | .delay i, data, d =>
    let data := data.set i d
    if d = 0 then .stop
    else if d = bar then .send (data.set (i + 1) 0)
    else if i = 6 then .stop
    else .goOn (.delay (i + 1)) data

structure Playback where
  reads : List ℕ
  sent : List Effect
  deriving DecidableEq

def Playback.behind (run : Playback) (reads : List ℕ) (sent : List Effect) : Playback :=
  ⟨reads ++ run.reads, sent ++ run.sent⟩

section Model

variable (tables : Tables) (interval : ℕ) (cfg : Config) (mem : Mem (BitVec 8))

/-- The loop that skips macros, with the addresses that it reads and the address it leads to, if
there is one. It has no value if it does not come to an end in `fuel` rounds. -/
def skipFrom : ℕ → ℕ → ℕ → Option (List ℕ × Option ℕ)
  | _, 0, p => some ([], some p)
  | 0, _ + 1, _ => none
  | fuel + 1, id + 1, p =>
    if p = cfg.macroAddr + cfg.macroSize then some ([], none)
    else
      (skipFrom fuel (if eepromReadByte cfg p mem = 0 then id else id + 1) (p + 1)).map
        fun (reads, start) => (p :: reads, start)

/-- The loop over the bytes of a macro at `p`. -/
def playFrom : ℕ → Place → List (BitVec 8) → ℕ → Option Playback
  | 0, _, _, _ => none
  | fuel + 1, place, data, p =>
    match react place data (eepromReadByte cfg p mem) with
    | .stop => some ⟨[p], []⟩
    | .goOn place data => (playFrom fuel place data (p + 1)).map (·.behind [p] [])
    | .send data =>
      (sendString tables interval .text data).bind fun sent =>
        (playFrom fuel .start data (p + 1)).map (·.behind [p] sent)

/-- `dynamic_keymap_macro_send` of `count` macros, with the addresses that are read. -/
def macroPlay (count : ℕ) (id : BitVec 8) (fuel : ℕ) : Option Playback :=
  let last := cfg.macroAddr + cfg.macroSize - 1
  if count ≤ id.toNat then some ⟨[], []⟩
  else if eepromReadByte cfg last mem ≠ 0 then some ⟨[last], []⟩
  else
    (skipFrom cfg mem fuel id.toNat cfg.macroAddr).bind fun (skipped, start) =>
      match start with
      | none => some ⟨last :: skipped, []⟩
      | some p =>
        (playFrom tables interval cfg mem fuel .start (List.replicate 8 0) p).map
          (·.behind (last :: skipped) [])

def bytesFrom (p n : ℕ) : List (BitVec 8) :=
  (List.range n).map fun i => eepromReadByte cfg (p + i) mem

/-- What is promised of a macro: it comes to an end and reads only the bytes of the macros. -/
def PlaysInside (count : ℕ) (id : BitVec 8) : Prop :=
  ∃ fuel run, macroPlay tables interval cfg mem count id fuel = some run ∧
    ∀ a ∈ run.reads, cfg.macroAddr ≤ a ∧ a < cfg.macroAddr + cfg.macroSize

end Model

section Bytes

variable {cfg : Config} {mem : Mem (BitVec 8)}

@[simp] theorem bytesFrom_zero (p : ℕ) : bytesFrom cfg mem p 0 = [] := rfl

theorem bytesFrom_succ (p n : ℕ) :
    bytesFrom cfg mem p (n + 1) =
      eepromReadByte cfg p mem :: bytesFrom cfg mem (p + 1) n := by
  simp [bytesFrom, List.range_succ_eq_map, Function.comp_def, Nat.add_comm, Nat.add_left_comm]

theorem macroBytes_eq : macroBytes cfg mem = bytesFrom cfg mem cfg.macroAddr cfg.macroSize := rfl

theorem macroSize_pos : 0 < cfg.macroSize := Nat.succ_pos _

theorem zero_mem_bytesFrom {p n : ℕ} (hn : 0 < n)
    (hlast : eepromReadByte cfg (p + n - 1) mem = 0) : 0 ∈ bytesFrom cfg mem p n := by
  refine List.mem_map.mpr ⟨n - 1, List.mem_range.mpr (by omega), ?_⟩
  rw [← hlast, Nat.add_sub_assoc hn]

/-- The macros that are skipped lie between `p` and the end, and what is behind them is what is
behind as many zeros. -/
theorem skipFrom_eq {fuel id p n : ℕ} {reads : List ℕ} {start : Option ℕ}
    (hp : p + n = cfg.macroAddr + cfg.macroSize)
    (h : skipFrom cfg mem fuel id p = some (reads, start)) :
    (∀ a ∈ reads, p ≤ a ∧ a < p + n) ∧ (∀ q ∈ start, p ≤ q ∧ q ≤ p + n) ∧
      skipMacros id (bytesFrom cfg mem p n) =
        start.map fun q => bytesFrom cfg mem q (p + n - q) := by
  induction fuel generalizing id p n reads start with
  | zero =>
    cases id with
    | zero =>
      obtain ⟨rfl, rfl⟩ : reads = [] ∧ start = some p := by
        simpa [skipFrom, eq_comm] using h
      simp [skipMacros]
    | succ id => simp [skipFrom] at h
  | succ fuel ih =>
    cases id with
    | zero =>
      obtain ⟨rfl, rfl⟩ : reads = [] ∧ start = some p := by
        simpa [skipFrom, eq_comm] using h
      simp [skipMacros]
    | succ id =>
      rw [skipFrom] at h
      cases n with
      | zero =>
        rw [if_pos (by omega)] at h
        obtain ⟨rfl, rfl⟩ : reads = [] ∧ start = none := by simpa [eq_comm] using h
        simp [skipMacros]
      | succ n =>
        rw [if_neg (by omega)] at h
        obtain ⟨⟨later, q⟩, hlater, hq⟩ := Option.map_eq_some_iff.mp h
        obtain ⟨rfl, rfl⟩ : p :: later = reads ∧ q = start := by simpa using hq
        obtain ⟨hreads, hstart, hskip⟩ := ih (n := n) (by omega) hlater
        refine ⟨?_, fun r hr => ?_, ?_⟩
        · rintro a ha
          rcases List.mem_cons.mp ha with rfl | ha
          · omega
          · have := hreads a ha
            omega
        · have := hstart r hr
          omega
        · rw [bytesFrom_succ, skipMacros, show p + (n + 1) = p + 1 + n by omega, ← hskip]
          split_ifs <;> rfl

theorem skipFrom_isSome {fuel id p n : ℕ} (hp : p + n = cfg.macroAddr + cfg.macroSize)
    (hfuel : n < fuel) : ∃ reads start, skipFrom cfg mem fuel id p = some (reads, start) := by
  induction fuel generalizing id p n with
  | zero => omega
  | succ fuel ih =>
    cases id with
    | zero => exact ⟨[], some p, rfl⟩
    | succ id =>
      rw [skipFrom]
      cases n with
      | zero => exact ⟨[], none, if_pos (by omega)⟩
      | succ n =>
        obtain ⟨reads, start, h⟩ := @ih (if eepromReadByte cfg p mem = 0 then id else id + 1)
          (p + 1) n (by omega) (by omega)
        exact ⟨p :: reads, start, by rw [if_neg (by omega), h]; rfl⟩

/-- So many zeros are skipped as there are less behind them. -/
theorem count_skipMacros {id : ℕ} {bytes rest : List (BitVec 8)}
    (h : skipMacros id bytes = some rest) : bytes.count 0 = id + rest.count 0 := by
  induction bytes generalizing id with
  | nil =>
    cases id with
    | zero => obtain rfl : [] = rest := by simpa [skipMacros] using h
              rfl
    | succ id => simp [skipMacros] at h
  | cons b bytes ih =>
    cases id with
    | zero => obtain rfl : b :: bytes = rest := by simpa [skipMacros] using h
              simp
    | succ id =>
      rw [skipMacros] at h
      split_ifs at h with hb
      · rw [hb, List.count_cons_self, ih h]
        omega
      · rw [List.count_cons_of_ne hb, ih h]

theorem count_lt_of_skipMacros {id : ℕ} {bytes : List (BitVec 8)}
    (h : skipMacros id bytes = none) : bytes.count 0 < id := by
  induction bytes generalizing id with
  | nil =>
    cases id with
    | zero => simp [skipMacros] at h
    | succ id => exact Nat.succ_pos id
  | cons b bytes ih =>
    cases id with
    | zero => simp [skipMacros] at h
    | succ id =>
      rw [skipMacros] at h
      split_ifs at h with hb
      · rw [hb, List.count_cons_self]
        exact Nat.succ_lt_succ (ih h)
      · rw [List.count_cons_of_ne hb]
        exact ih h

end Bytes

/-- The buffer ends with a zero, and with a bar or another zero in front of it. -/
def Ended (data : List (BitVec 8)) : Prop :=
  ∃ front x, front.length = 6 ∧ (x = bar ∨ x = 0#8) ∧ data = front ++ [x, 0#8]

/-- The position that the next byte goes to is not the last one of the buffer. -/
def Place.InBuffer : Place → Prop
  | .delay i => i ≤ 6
  | _ => True

section Play

variable {tables : Tables} {interval : ℕ} {cfg : Config} {mem : Mem (BitVec 8)}

theorem sendPieces_cons (place : Place) (data : List (BitVec 8)) (b : BitVec 8)
    (bytes : List (BitVec 8)) :
    sendPieces tables interval place data (b :: bytes) =
      match react place data b with
      | .stop => some []
      | .goOn place data => sendPieces tables interval place data bytes
      | .send data =>
        sendThen tables interval data (sendPieces tables interval .start data bytes) := by
  cases place <;> simp only [sendPieces, react] <;> split_ifs <;> rfl

theorem react_zero (place : Place) (data : List (BitVec 8)) : react place data 0 = .stop := by
  cases place <;> simp [react]

theorem sendString_isSome (mode : Mode) (front : List (BitVec 8)) {x : BitVec 8}
    (hx : x = bar ∨ x = 0#8) :
    (sendString tables interval mode (front ++ [x, 0#8])).isSome := by
  have hbar : bar ≠ 0#8 := by decide
  have hprefix : bar ≠ qmkPrefix := by decide
  have hdelay : bar ≠ delayCode ∧ 0#8 ≠ delayCode := by decide
  have hcode : KeyAction.ofCode bar = none ∧ KeyAction.ofCode 0#8 = none := by decide
  have hdigit : isDigit bar = false ∧ isDigit 0#8 = false := by decide
  induction front generalizing mode with
  | nil =>
    rcases hx with rfl | rfl <;> cases mode <;>
      simp [sendString, hbar, hprefix, hdelay, hcode, hdigit]
  | cons b front ih =>
    cases mode with
    | text =>
      simp only [List.cons_append, sendString]
      split_ifs
      · rfl
      · exact ih .code
      · simpa using ih .text
    | code =>
      simp only [List.cons_append, sendString]
      split_ifs
      · exact ih (.delay 0)
      · cases KeyAction.ofCode b with
        | none => simpa using ih .text
        | some action => exact ih (.key action)
    | key action => simpa [sendString] using ih .text
    | delay ms =>
      simp only [List.cons_append, sendString]
      split_ifs
      · exact ih (.delay _)
      · simpa using ih .text

theorem Ended.set {data : List (BitVec 8)} (h : Ended data) {i : ℕ} (hi : i < 6) (b : BitVec 8) :
    Ended (data.set i b) := by
  obtain ⟨front, x, hlength, hx, rfl⟩ := h
  exact ⟨front.set i b, x, by simpa using hlength, hx,
    List.set_append_left i b (by omega)⟩

theorem Ended.set_bar {data : List (BitVec 8)} (h : Ended data) {i : ℕ} (hi : i ≤ 6) :
    Ended ((data.set i bar).set (i + 1) 0) := by
  obtain ⟨front, x, hlength, hx, rfl⟩ := h
  rcases Nat.lt_or_ge i 5 with hlt | hge
  · exact Ended.set (Ended.set ⟨front, x, hlength, hx, rfl⟩ (by omega) _) (by omega) _
  obtain rfl | rfl : i = 5 ∨ i = 6 := by omega
  · exact ⟨front.set 5 bar, 0#8, by simpa using hlength, .inr rfl, by
      rw [List.set_append_left 5 bar (by omega), List.set_append_right 6 _ (by simp; omega)]
      simp [hlength]⟩
  · exact ⟨front, bar, hlength, .inl rfl, by
      rw [List.set_append_right 6 _ (by omega), List.set_append_right 7 _ (by omega)]
      simp [hlength]⟩

/-- Each byte that is read goes to the front of the buffer, or it is the bar behind it. -/
theorem react_goOn {place next : Place} {data later : List (BitVec 8)} {b : BitVec 8}
    (hplace : place.InBuffer) (hdata : Ended data) (h : react place data b = .goOn next later) :
    next.InBuffer ∧ Ended later := by
  cases place with
  | start =>
    simp only [react] at h
    split_ifs at h
    cases h
    exact ⟨trivial, (hdata.set (by decide) _).set (by decide) _⟩
  | code =>
    simp only [react] at h
    split_ifs at h
    all_goals cases h
    · exact ⟨trivial, hdata.set (by decide) _⟩
    · exact ⟨show 2 ≤ 6 by decide, hdata.set (by decide) _⟩
  | key =>
    simp only [react] at h
    split_ifs at h
  | delay i =>
    have hi : i ≤ 6 := hplace
    simp only [react] at h
    split_ifs at h with _ _ hsix
    cases h
    exact ⟨show i + 1 ≤ 6 by omega, hdata.set (by omega) _⟩

theorem react_send {place : Place} {data later : List (BitVec 8)} {b : BitVec 8}
    (hplace : place.InBuffer) (hdata : Ended data) (h : react place data b = .send later) :
    Ended later := by
  cases place with
  | start =>
    simp only [react] at h
    split_ifs at h
    cases h
    exact (hdata.set (by decide) _).set (by decide) _
  | code =>
    simp only [react] at h
    split_ifs at h
    cases h
    exact hdata.set (by decide) _
  | key =>
    simp only [react] at h
    split_ifs at h
    cases h
    exact (hdata.set (by decide) _).set (by decide) _
  | delay i =>
    simp only [react] at h
    split_ifs at h with _ hbar
    cases h
    subst hbar
    exact hdata.set_bar hplace

/-- From each place on, the macro ends with the first zero. The induction is on the bytes up to the
one that is known to be zero. -/
theorem playFrom_isSome {place : Place} {data : List (BitVec 8)} {fuel p n : ℕ}
    (hplace : place.InBuffer) (hdata : Ended data) (hzero : 0 ∈ bytesFrom cfg mem p n)
    (hfuel : n ≤ fuel) :
    ∃ run, playFrom tables interval cfg mem fuel place data p = some run ∧
      ∀ a ∈ run.reads, p ≤ a ∧ a < p + n := by
  induction n generalizing place data fuel p with
  | zero => simp at hzero
  | succ n ih =>
    obtain ⟨fuel, rfl⟩ : ∃ k, fuel = k + 1 := ⟨fuel - 1, by omega⟩
    -- The byte at `p` is read in any case.
    have hbehind : ∀ (run : Playback) (sent : List Effect),
        (∀ a ∈ run.reads, p + 1 ≤ a ∧ a < p + 1 + n) →
        ∀ a ∈ (run.behind [p] sent).reads, p ≤ a ∧ a < p + (n + 1) := by
      intro run sent hrun a ha
      rcases List.mem_cons.mp (show a ∈ p :: run.reads from ha) with rfl | ha
      · omega
      · have := hrun a ha
        omega
    rw [playFrom]
    by_cases hb : eepromReadByte cfg p mem = 0
    · rw [hb, react_zero]
      exact ⟨⟨[p], []⟩, rfl, by simp⟩
    have hlater : 0 ∈ bytesFrom cfg mem (p + 1) n := by
      rw [bytesFrom_succ] at hzero
      exact (List.mem_cons.mp hzero).resolve_left (Ne.symm hb)
    have hrest : n ≤ fuel := by omega
    cases hreact : react place data (eepromReadByte cfg p mem) with
    | stop => exact ⟨⟨[p], []⟩, rfl, by simp⟩
    | goOn next later =>
      obtain ⟨hnext, hended⟩ := react_goOn hplace hdata hreact
      obtain ⟨run, hrun, hreads⟩ := ih hnext hended hlater hrest
      exact ⟨run.behind [p] [], by simp only [hrun, Option.map_some], hbehind run [] hreads⟩
    | send later =>
      have hended := react_send hplace hdata hreact
      obtain ⟨run, hrun, hreads⟩ := @ih .start later fuel (p + 1) trivial hended hlater hrest
      obtain ⟨front, x, -, hx, rfl⟩ := hended
      obtain ⟨sent, hsent⟩ := Option.isSome_iff_exists.mp
        (@sendString_isSome tables interval .text front x hx)
      exact ⟨run.behind [p] sent, by simp only [hsent, hrun, Option.map_some, Option.bind_some],
        hbehind run sent hreads⟩

theorem mem_reads_playFrom {place : Place} {data : List (BitVec 8)} {fuel p : ℕ} {run : Playback}
    (h : playFrom tables interval cfg mem fuel place data p = some run) : p ∈ run.reads := by
  cases fuel with
  | zero => simp [playFrom] at h
  | succ fuel =>
    rw [playFrom] at h
    split at h
    · cases h
      exact List.mem_singleton_self p
    · obtain ⟨later, -, rfl⟩ := Option.map_eq_some_iff.mp h
      exact List.mem_cons_self
    · obtain ⟨sent, -, h⟩ := Option.bind_eq_some_iff.mp h
      obtain ⟨later, -, rfl⟩ := Option.map_eq_some_iff.mp h
      exact List.mem_cons_self

theorem playFrom_sent {place : Place} {data : List (BitVec 8)} {fuel p n : ℕ} {run : Playback}
    (h : playFrom tables interval cfg mem fuel place data p = some run)
    (hreads : ∀ a ∈ run.reads, a < p + n) :
    sendPieces tables interval place data (bytesFrom cfg mem p n) = some run.sent := by
  induction fuel generalizing place data p n run with
  | zero => simp [playFrom] at h
  | succ fuel ih =>
    obtain ⟨n, rfl⟩ : ∃ k, n = k + 1 :=
      ⟨n - 1, by have := hreads p (mem_reads_playFrom h); omega⟩
    have hlater : ∀ (later : Playback) (sent : List Effect),
        (∀ a ∈ (later.behind [p] sent).reads, a < p + (n + 1)) →
        ∀ a ∈ later.reads, a < p + 1 + n := by
      intro later sent hbehind a ha
      have := hbehind a (List.mem_cons_of_mem p ha)
      omega
    rw [bytesFrom_succ, sendPieces_cons]
    rw [playFrom] at h
    cases hreact : react place data (eepromReadByte cfg p mem) with
    | stop =>
      rw [hreact] at h
      cases h
      rfl
    | goOn next data =>
      rw [hreact] at h
      obtain ⟨later, hplay, rfl⟩ := Option.map_eq_some_iff.mp h
      exact @ih next data (p + 1) n later hplay (hlater later [] hreads)
    | send data =>
      rw [hreact] at h
      obtain ⟨sent, hsent, hrest⟩ := Option.bind_eq_some_iff.mp h
      obtain ⟨later, hplay, rfl⟩ := Option.map_eq_some_iff.mp hrest
      simp only [sendThen, hsent, Option.bind_some,
        @ih .start data (p + 1) n later hplay (hlater later sent hreads)]
      rfl

end Play

section Macro

variable {tables : Tables} {interval : ℕ} {cfg : Config} {mem : Mem (BitVec 8)} {count : ℕ}
  {id : BitVec 8} {fuel : ℕ} {run : Playback}

/-- A macro that is looked for is played from where the zeros in front of it lead, if there is such
a place. -/
theorem macroPlay_eq_some (hid : id.toNat < count)
    (hlast : eepromReadByte cfg (cfg.macroAddr + cfg.macroSize - 1) mem = 0) :
    macroPlay tables interval cfg mem count id fuel = some run ↔
      ∃ skipped start, skipFrom cfg mem fuel id.toNat cfg.macroAddr = some (skipped, start) ∧
        ∃ played, run = played.behind ((cfg.macroAddr + cfg.macroSize - 1) :: skipped) [] ∧
          match start with
          | none => played = ⟨[], []⟩
          | some p =>
            playFrom tables interval cfg mem fuel .start (List.replicate 8 0) p = some played := by
  rw [macroPlay, if_neg (Nat.not_le.mpr hid), if_neg (not_not.mpr hlast), Option.bind_eq_some_iff]
  constructor
  · rintro ⟨⟨skipped, start⟩, hskip, h⟩
    refine ⟨skipped, start, hskip, ?_⟩
    cases start with
    | none =>
      cases h
      exact ⟨⟨[], []⟩, by simp [Playback.behind], rfl⟩
    | some p =>
      obtain ⟨played, hplayed, rfl⟩ := Option.map_eq_some_iff.mp h
      exact ⟨played, rfl, hplayed⟩
  · rintro ⟨skipped, start, hskip, played, rfl, h⟩
    refine ⟨(skipped, start), hskip, ?_⟩
    cases start with
    | none =>
      subst h
      simp [Playback.behind]
    | some p => exact Option.map_eq_some_iff.mpr ⟨played, h, rfl⟩

theorem macroSend_of_macroPlay (h : macroPlay tables interval cfg mem count id fuel = some run)
    (hreads : ∀ a ∈ run.reads, a < cfg.macroAddr + cfg.macroSize) :
    macroSend tables interval cfg count id mem = some run.sent := by
  rcases Nat.lt_or_ge id.toNat count with hid | hid
  swap
  · rw [macroPlay, if_pos hid] at h
    rw [macroSend, if_pos hid, ← Option.some.inj h]
  by_cases hlast : eepromReadByte cfg (cfg.macroAddr + cfg.macroSize - 1) mem = 0
  swap
  · rw [macroPlay, if_neg (Nat.not_le.mpr hid), if_pos hlast] at h
    rw [macroSend, if_neg (Nat.not_le.mpr hid), if_pos hlast, ← Option.some.inj h]
  obtain ⟨skipped, start, hskip, played, rfl, hplayed⟩ :=
    (macroPlay_eq_some hid hlast).mp h
  obtain ⟨-, hstart, hmacros⟩ := skipFrom_eq rfl hskip
  rw [macroSend, if_neg (Nat.not_le.mpr hid), if_neg (not_not.mpr hlast), macroBytes_eq, hmacros]
  cases start with
  | none =>
    subst hplayed
    rfl
  | some p =>
    refine @playFrom_sent tables interval cfg mem _ _ _ p _ played hplayed fun a ha => ?_
    have hp := hstart p rfl
    have := hreads a (List.mem_append_right _ ha)
    omega

/-- From every address inside the macros on there is a zero, the last byte. -/
theorem zero_mem_of_lt (hlast : eepromReadByte cfg (cfg.macroAddr + cfg.macroSize - 1) mem = 0)
    {p : ℕ} (hp : p < cfg.macroAddr + cfg.macroSize) :
    0 ∈ bytesFrom cfg mem p (cfg.macroAddr + cfg.macroSize - p) := by
  refine zero_mem_bytesFrom (by omega) ?_
  rwa [Nat.add_sub_cancel' hp.le]

/-- If the last byte is the last of the zeros to skip, the loop begins at the end. -/
theorem not_playsInside (hid : id.toNat < count)
    (hlast : eepromReadByte cfg (cfg.macroAddr + cfg.macroSize - 1) mem = 0)
    (hcount : (macroBytes cfg mem).count 0 = id.toNat) :
    ¬ PlaysInside tables interval cfg mem count id := by
  rintro ⟨fuel, run, hrun, hreads⟩
  obtain ⟨skipped, start, hskip, played, rfl, hplayed⟩ := (macroPlay_eq_some hid hlast).mp hrun
  obtain ⟨-, hstart, hmacros⟩ := skipFrom_eq rfl hskip
  cases start with
  | none => exact (count_lt_of_skipMacros hmacros).ne hcount
  | some p =>
    have hzeros : (macroBytes cfg mem).count 0 = id.toNat +
        (bytesFrom cfg mem p (cfg.macroAddr + cfg.macroSize - p)).count 0 :=
      count_skipMacros hmacros
    obtain rfl : p = cfg.macroAddr + cfg.macroSize := by
      refine le_antisymm (hstart p rfl).2 (Nat.le_of_not_lt fun hp => ?_)
      have := List.count_pos_iff.mpr (zero_mem_of_lt hlast hp)
      omega
    have := hreads _ (List.mem_append_right _ (mem_reads_playFrom hplayed))
    omega

/-- A macro comes to an end and reads only the bytes of the macros, unless the last byte is the last
of the zeros in front of it. -/
theorem playsInside_iff (tables : Tables) (interval : ℕ) (cfg : Config) (mem : Mem (BitVec 8))
    (count : ℕ) (id : BitVec 8) :
    PlaysInside tables interval cfg mem count id ↔
      count ≤ id.toNat ∨ eepromReadByte cfg (cfg.macroAddr + cfg.macroSize - 1) mem ≠ 0 ∨
        (macroBytes cfg mem).count 0 ≠ id.toNat := by
  have hinside : ∀ last, last = cfg.macroAddr + cfg.macroSize - 1 →
      cfg.macroAddr ≤ last ∧ last < cfg.macroAddr + cfg.macroSize := by
    have := @macroSize_pos cfg
    omega
  rcases Nat.lt_or_ge id.toNat count with hid | hid
  swap
  · exact iff_of_true ⟨0, ⟨[], []⟩, by rw [macroPlay, if_pos hid], by simp⟩ (.inl hid)
  by_cases hlast : eepromReadByte cfg (cfg.macroAddr + cfg.macroSize - 1) mem = 0
  swap
  · refine iff_of_true ⟨0, ⟨[cfg.macroAddr + cfg.macroSize - 1], []⟩, ?_, ?_⟩ (.inr (.inl hlast))
    · rw [macroPlay, if_neg (Nat.not_le.mpr hid), if_pos hlast]
    · simpa using hinside _ rfl
  simp only [Nat.not_le.mpr hid, hlast, ne_eq, not_true_eq_false, false_or]
  refine ⟨?_, fun hcount => ?_⟩
  · intro h hcount
    exact not_playsInside hid hlast hcount h
  obtain ⟨skipped, start, hskip⟩ := @skipFrom_isSome cfg mem (cfg.macroSize + 1) id.toNat
    cfg.macroAddr cfg.macroSize rfl (Nat.lt_succ_self _)
  obtain ⟨hskipped, hstart, hmacros⟩ := skipFrom_eq rfl hskip
  have hread : ∀ a ∈ (cfg.macroAddr + cfg.macroSize - 1) :: skipped,
      cfg.macroAddr ≤ a ∧ a < cfg.macroAddr + cfg.macroSize := by
    intro a ha
    exact (List.mem_cons.mp ha).elim (hinside a) (hskipped a)
  cases start with
  | none =>
    exact ⟨_, _, (macroPlay_eq_some hid hlast).mpr ⟨skipped, none, hskip, ⟨[], []⟩, rfl, rfl⟩,
      by simpa [Playback.behind] using hread⟩
  | some p =>
    have hp := hstart p rfl
    have hlt : p < cfg.macroAddr + cfg.macroSize := by
      refine lt_of_le_of_ne hp.2 fun hend => hcount ?_
      rw [macroBytes_eq, count_skipMacros hmacros, hend]
      simp
    obtain ⟨played, hplayed, hreads⟩ := @playFrom_isSome tables interval cfg mem .start
      (List.replicate 8 0) (cfg.macroSize + 1) p _ trivial
      ⟨List.replicate 6 0, 0, rfl, .inr rfl, rfl⟩ (zero_mem_of_lt hlast hlt) (by omega)
    refine ⟨_, _, (macroPlay_eq_some hid hlast).mpr
      ⟨skipped, some p, hskip, played, rfl, hplayed⟩, fun a ha => ?_⟩
    rcases List.mem_append.mp ha with ha | ha
    · exact hread a ha
    · have := hreads a ha
      omega

end Macro

/-- A single macro of a hundred letters fills all of the bytes, and the second one is sent. -/
theorem fullMacros_readOutside :
    ¬ PlaysInside noKeys 0 smallStore (withMacros (List.replicate 100 97)) 16 1 :=
  not_playsInside (by decide) (by decide) (by decide +kernel)

end Qmk.DynamicKeymap
