import Qmk.Painter.Surface

/-! # Rectangles

`qp_rect` as the commands it gives to the driver. The outline is drawn as four strips. The
helper that draws a strip puts its edges in order, so for a rectangle that is one row high
the left and right strips are drawn from the row above to the row below.
-/

namespace Qmk.Painter

/-- What the driver is told: fill the pixdata buffer, set the viewport, stream pixels from
the start of the buffer. -/
inductive Command where
  | fill (numPixels : ℕ)
  | viewport (l t r b : ℕ)
  | pixdata (nativePixelCount : ℕ)
  deriving DecidableEq

section Commands

variable (panel : Panel)

/-- The loop of `qp_internal_fillrect_helper_impl`, by the sizes of its transfers. -/
def transmits (remaining : ℕ) : List ℕ :=
  if 0 < remaining then
    let transmit := min remaining panel.maxPixels
    transmit :: transmits (remaining - transmit)
  else []
termination_by remaining
decreasing_by
  have := panel.maxPixels_pos
  omega

def fillrectHelper (left top right bottom : ℕ) : List Command :=
  let l := min left right
  let r := max left right
  let t := min top bottom
  let b := max top bottom
  let w := (r - l + 1) % 2 ^ 16
  let h := (b - t + 1) % 2 ^ 16
  .viewport l t r b :: (transmits panel (w * h % 2 ^ 32)).map .pixdata

def rect (left top right bottom : ℕ) (filled : Bool) : List Command :=
  let l := min left right
  let r := max left right
  let t := min top bottom
  let b := max top bottom
  let w := (r - l + 1) % 2 ^ 16
  let h := (b - t + 1) % 2 ^ 16
  if filled then .fill (w * h % 2 ^ 32) :: fillrectHelper panel l t r b
  else
    .fill (max w h) ::
      (fillrectHelper panel l t r t ++ fillrectHelper panel l b r b ++
        fillrectHelper panel l ((t + 1) % 2 ^ 16) l ((b + (2 ^ 16 - 1)) % 2 ^ 16) ++
        fillrectHelper panel r ((t + 1) % 2 ^ 16) r ((b + (2 ^ 16 - 1)) % 2 ^ 16))

/-- A surface with `qp_internal_global_pixdata_buffer`. -/
structure Canvas (γ : Type*) where
  device : Surface γ
  buffer : ℕ → γ

variable {γ : Type*}

/-- What the driver of a surface does, and `qp_internal_fill_pixdata`. -/
def Canvas.perform (c : γ) (s : Canvas γ) : Command → Canvas γ
  | .fill n =>
    { s with buffer := fun i => if i < min panel.maxPixels n then c else s.buffer i }
  | .viewport l t r b => { s with device := s.device.setViewport l t r b }
  | .pixdata n =>
    { s with device := s.device.streamPixdata panel ((List.range n).map s.buffer) }

def Canvas.run (c : γ) (cs : List Command) (s : Canvas γ) : Canvas γ :=
  cs.foldl (Canvas.perform panel c) s

/-- The pixels that arrive before the viewport is set again. -/
def pixelCount : List Command → ℕ
  | .pixdata n :: cs => n + pixelCount cs
  | .fill _ :: cs => pixelCount cs
  | _ => 0

/-- Every viewport gets as many pixels as it contains. -/
def Counted : List Command → Prop
  | .viewport l t r b :: cs => pixelCount cs = (r + 1 - l) * (b + 1 - t) ∧ Counted cs
  | _ :: cs => Counted cs
  | [] => True

def InRect (left top right bottom : ℕ) (filled : Bool) (x y : ℕ) : Prop :=
  min left right ≤ x ∧ x ≤ max left right ∧ min top bottom ≤ y ∧ y ≤ max top bottom ∧
    (filled ∨ x = left ∨ x = right ∨ y = top ∨ y = bottom)

instance (left top right bottom : ℕ) (filled : Bool) (x y : ℕ) :
    Decidable (InRect left top right bottom filled x y) := by
  unfold InRect
  infer_instance

/-- The pixels of an area get a color, all others stay as they are. -/
structure Canvas.Paints (c : γ) (area : ℕ → ℕ → Prop) (s s' : Canvas γ) : Prop where
  inside : ∀ x y, area x y → s'.device.screen x y = c
  outside : ∀ x y, ¬ area x y → s'.device.screen x y = s.device.screen x y

/-- The rectangle is painted and nothing else, whatever the color, the screen and the old
contents of the buffer, and every viewport gets its number of pixels. -/
structure ExactRect (left top right bottom : ℕ) (filled : Bool) : Prop where
  paints : ∀ (γ : Type) (c : γ) (s : Canvas γ), s.Paints c (InRect left top right bottom filled)
    (s.run panel c (rect panel left top right bottom filled))
  counted : Counted (rect panel left top right bottom filled)

end Commands

section Counts

variable {panel : Panel}

theorem sum_transmits (panel : Panel) (remaining : ℕ) :
    (transmits panel remaining).sum = remaining := by
  fun_induction transmits panel remaining with
  | case1 remaining hpos transmit ih =>
    rw [List.sum_cons, ih]
    omega
  | case2 remaining hzero => simp only [List.sum_nil]; omega

theorem le_of_mem_transmits {panel : Panel} {remaining n : ℕ}
    (hn : n ∈ transmits panel remaining) : n ≤ min remaining panel.maxPixels := by
  fun_induction transmits panel remaining with
  | case1 remaining hpos transmit ih =>
    rcases List.mem_cons.mp hn with rfl | hn
    · exact le_rfl
    · have := ih hn
      omega
  | case2 remaining hzero => cases hn

theorem pixelCount_pixdata (ns : List ℕ) (cs : List Command) :
    pixelCount (ns.map .pixdata ++ cs) = ns.sum + pixelCount cs := by
  induction ns with
  | nil => simp
  | cons n ns ih =>
    rw [List.map_cons, List.cons_append, pixelCount, ih, List.sum_cons, Nat.add_assoc]

theorem counted_pixdata (ns : List ℕ) (cs : List Command) :
    Counted (ns.map .pixdata ++ cs) ↔ Counted cs := by
  induction ns with
  | nil => rfl
  | cons n ns ih =>
    rw [List.map_cons, List.cons_append, Counted, ih]
    simp

theorem helper_count {l t r b : ℕ} (hl : l ≤ r) (ht : t ≤ b) (hw : r - l + 1 < 2 ^ 16)
    (hh : b - t + 1 < 2 ^ 16) :
    (r - l + 1) % 2 ^ 16 * ((b - t + 1) % 2 ^ 16) % 2 ^ 32 = (r + 1 - l) * (b + 1 - t) := by
  rw [Nat.mod_eq_of_lt hw, Nat.mod_eq_of_lt hh, Nat.mod_eq_of_lt, Nat.sub_add_comm hl,
    Nat.sub_add_comm ht]
  calc (r - l + 1) * (b - t + 1) < 2 ^ 16 * 2 ^ 16 := Nat.mul_lt_mul'' hw hh
    _ = 2 ^ 32 := by norm_num

theorem fillrectHelper_eq (panel : Panel) {left top right bottom : ℕ}
    (hw : max left right - min left right + 1 < 2 ^ 16)
    (hh : max top bottom - min top bottom + 1 < 2 ^ 16) :
    fillrectHelper panel left top right bottom =
      .viewport (min left right) (min top bottom) (max left right) (max top bottom) ::
        (transmits panel ((max left right + 1 - min left right) *
          (max top bottom + 1 - min top bottom))).map .pixdata := by
  unfold fillrectHelper
  dsimp only
  rw [helper_count min_le_max min_le_max hw hh]

theorem pixelCount_helper (panel : Panel) (left top right bottom : ℕ) (cs : List Command) :
    pixelCount (fillrectHelper panel left top right bottom ++ cs) = 0 := rfl

theorem counted_helper (panel : Panel) {left top right bottom : ℕ}
    (hw : max left right - min left right + 1 < 2 ^ 16)
    (hh : max top bottom - min top bottom + 1 < 2 ^ 16) {cs : List Command}
    (hcs : pixelCount cs = 0) (hcounted : Counted cs) :
    Counted (fillrectHelper panel left top right bottom ++ cs) := by
  rw [fillrectHelper_eq panel hw hh, List.cons_append, Counted, pixelCount_pixdata,
    counted_pixdata, sum_transmits, hcs]
  exact ⟨rfl, hcounted⟩

theorem size_lt {n i j : ℕ} (hn : n < 2 ^ 16) (hi : i < n) (hj : j < n) :
    max i j - min i j + 1 < 2 ^ 16 := by
  omega

/-- The side strips of the outline are never 2 ^ 16 rows high. -/
theorem side_lt {n i j : ℕ} (hn : n < 2 ^ 16) (hij : i ≤ j) (hj : j < n) :
    max ((i + 1) % 2 ^ 16) ((j + (2 ^ 16 - 1)) % 2 ^ 16) -
      min ((i + 1) % 2 ^ 16) ((j + (2 ^ 16 - 1)) % 2 ^ 16) + 1 < 2 ^ 16 := by
  omega

theorem counted_rect {left top right bottom : ℕ} (hl : left < panel.width)
    (hr : right < panel.width) (ht : top < panel.height) (hb : bottom < panel.height)
    (filled : Bool) : Counted (rect panel left top right bottom filled) := by
  have hwidth := panel.width_lt
  have hheight := panel.height_lt
  have hnil : pixelCount [] = 0 ∧ Counted [] := ⟨rfl, trivial⟩
  unfold rect
  dsimp only
  split_ifs
  · rw [← List.append_nil (fillrectHelper _ _ _ _ _)]
    exact counted_helper panel (by omega) (by omega) hnil.1 hnil.2
  · have hside := @side_lt _ (min top bottom) (max top bottom) hheight min_le_max (by omega)
    rw [← List.append_nil (_ ++ fillrectHelper _ _ _ _ _)]
    simp only [List.append_assoc]
    refine counted_helper panel (by omega) (by omega) (pixelCount_helper _ _ _ _ _ _) ?_
    refine counted_helper panel (by omega) (by omega) (pixelCount_helper _ _ _ _ _ _) ?_
    refine counted_helper panel (by omega) hside (pixelCount_helper _ _ _ _ _ _) ?_
    exact counted_helper panel (by omega) hside hnil.1 hnil.2

end Counts

section Strips

variable {γ : Type*} {panel : Panel} {c : γ} {s s' s'' : Canvas γ} {A B : ℕ → ℕ → Prop}

namespace Canvas

theorem run_cons (command : Command) (cs : List Command) (s : Canvas γ) :
    s.run panel c (command :: cs) = (s.perform panel c command).run panel c cs :=
  rfl

theorem run_append (cs cs' : List Command) (s : Canvas γ) :
    s.run panel c (cs ++ cs') = (s.run panel c cs).run panel c cs' :=
  List.foldl_append

def sent (panel : Panel) (remaining : ℕ) (buffer : ℕ → γ) : List γ :=
  (transmits panel remaining).flatMap fun n => (List.range n).map buffer

theorem run_pixdata (ns : List ℕ) (s : Canvas γ) : s.run panel c (ns.map .pixdata) =
    { s with
      device := s.device.streamPixdata panel
        (ns.flatMap fun n => (List.range n).map s.buffer) } := by
  induction ns generalizing s with
  | nil => rfl
  | cons n ns ih =>
    rw [List.flatMap_cons, streamPixdata_append]
    exact ih _

theorem run_helper {left top right bottom : ℕ}
    (hw : max left right - min left right + 1 < 2 ^ 16)
    (hh : max top bottom - min top bottom + 1 < 2 ^ 16) (s : Canvas γ) :
    s.run panel c (fillrectHelper panel left top right bottom) =
      { s with
        device := (s.device.setViewport (min left right) (min top bottom) (max left right)
          (max top bottom)).streamPixdata panel (sent panel ((max left right + 1 - min left right) *
            (max top bottom + 1 - min top bottom)) s.buffer) } := by
  rw [fillrectHelper_eq panel hw hh]
  exact run_pixdata _ _

theorem length_sent (panel : Panel) (remaining : ℕ) (buffer : ℕ → γ) :
    (sent panel remaining buffer).length = remaining := by
  simp only [sent, List.length_flatMap, List.length_map, List.length_range, List.map_id',
    sum_transmits]

theorem sent_eq_replicate {remaining : ℕ} {buffer : ℕ → γ}
    (hbuffer : ∀ i < min remaining panel.maxPixels, buffer i = c) :
    sent panel remaining buffer = List.replicate remaining c := by
  refine List.eq_replicate_iff.mpr ⟨length_sent panel remaining buffer, fun p hp => ?_⟩
  obtain ⟨n, hn, hp⟩ := List.mem_flatMap.mp hp
  obtain ⟨i, hi, rfl⟩ := List.mem_map.mp hp
  exact hbuffer i (Nat.lt_of_lt_of_le (List.mem_range.mp hi) (le_of_mem_transmits hn))

theorem Paints.trans (h : s.Paints c A s') (h' : s'.Paints c B s'') :
    s.Paints c (fun x y => A x y ∨ B x y) s'' where
  inside x y hxy := by
    by_cases hB : B x y
    · exact h'.inside x y hB
    · rw [h'.outside x y hB]
      exact h.inside x y (hxy.resolve_right hB)
  outside x y hxy := by
    rw [h'.outside x y fun hB => hxy (.inr hB), h.outside x y fun hA => hxy (.inl hA)]

theorem Paints.congr (h : s.Paints c A s') (hA : ∀ x y, A x y ↔ B x y) : s.Paints c B s' where
  inside x y hxy := h.inside x y ((hA x y).mpr hxy)
  outside x y hxy := h.outside x y fun hx => hxy ((hA x y).mp hx)

theorem paints_helper {left top right bottom : ℕ} (hl : left < panel.width)
    (hr : right < panel.width) (ht : top < panel.height) (hb : bottom < panel.height)
    (hbuffer : ∀ i < min ((max left right + 1 - min left right) *
      (max top bottom + 1 - min top bottom)) panel.maxPixels, s.buffer i = c) :
    s.Paints c (fun x y => min left right ≤ x ∧ x ≤ max left right ∧ min top bottom ≤ y ∧
      y ≤ max top bottom) (s.run panel c (fillrectHelper panel left top right bottom)) := by
  have hwidth := panel.width_lt
  have hheight := panel.height_lt
  let im : Image γ := ⟨max left right + 1 - min left right, max top bottom + 1 - min top bottom,
    fun _ _ => c⟩
  have hlist : sent panel (im.width * im.height) s.buffer = im.toList := by
    rw [sent_eq_replicate hbuffer, im.toList_eq_range, List.map_const', List.length_range]
  have hedges : min left right + im.width - 1 = max left right ∧
      min top bottom + im.height - 1 = max top bottom := by
    dsimp only [im]
    omega
  have hscreen := @streamPixdata_image γ panel im (min left right) (min top bottom)
    (by dsimp only [im]; omega) (by dsimp only [im]; omega) s.device
  rw [hedges.1, hedges.2, ← hlist] at hscreen
  rw [run_helper (size_lt hwidth hl hr) (size_lt hheight ht hb)]
  constructor
  · intro x y hxy
    refine (congrFun (congrFun hscreen x) y).trans (if_pos ?_)
    dsimp only [im]
    omega
  · intro x y hxy
    refine (congrFun (congrFun hscreen x) y).trans (if_neg ?_)
    dsimp only [im]
    omega

theorem screen_column {l t b : ℕ} (hl : l < panel.width) (hb : b < 2 ^ 16) (cs : List γ)
    (d : Surface γ) (y : ℕ) (hd : d.viewport = ⟨l, t, l, b, l, y⟩) (hy : y + cs.length ≤ b + 1)
    (x' y' : ℕ) :
    (d.streamPixdata panel cs).screen x' y' =
      if x' = l ∧ y ≤ y' ∧ y' < panel.height then cs.getD (y' - y) (d.screen x' y')
      else d.screen x' y' := by
  have hwidth := panel.width_lt
  induction cs generalizing d y with
  | nil => exact (ite_self _).symm
  | cons p ps ih =>
    rw [List.length_cons] at hy
    have hfirst : (d.appendPixel panel p).screen x' y' =
        if x' = l ∧ y' = y ∧ y' < panel.height then p else d.screen x' y' := by
      unfold Surface.appendPixel Surface.setpixel
      rw [hd]
      dsimp only
      by_cases hout : panel.width ≤ l ∨ panel.height ≤ y
      · rw [if_pos hout, if_neg (by omega)]
      · rw [if_neg hout]
        exact if_congr (by omega) rfl rfl
    have hrest : ((d.appendPixel panel p).streamPixdata panel ps).screen x' y' =
        if x' = l ∧ y + 1 ≤ y' ∧ y' < panel.height then
          ps.getD (y' - (y + 1)) ((d.appendPixel panel p).screen x' y')
        else (d.appendPixel panel p).screen x' y' := by
      cases ps with
      | nil => exact (ite_self _).symm
      | cons q qs =>
        refine ih _ (y + 1) ?_ (by omega)
        rw [List.length_cons] at hy
        rw [viewport_appendPixel, hd]
        unfold Viewport.increment
        dsimp only
        rw [Nat.mod_eq_of_lt (by omega), Nat.mod_eq_of_lt (by omega), if_pos (Nat.lt_succ_self l)]
        exact if_neg (show ¬ b < y + 1 by omega)
    refine hrest.trans ?_
    rw [hfirst]
    by_cases hcolumn : x' = l ∧ y ≤ y' ∧ y' < panel.height
    · rw [if_pos hcolumn]
      by_cases hy' : y' = y
      · rw [if_neg (by omega), if_pos ⟨hcolumn.1, hy', hcolumn.2.2⟩, hy', Nat.sub_self,
          List.getD_cons_zero]
      · rw [if_pos (by omega), if_neg (by omega), show y' - y = y' - (y + 1) + 1 by omega,
          List.getD_cons_succ]
    · rw [if_neg hcolumn, if_neg (by omega), if_neg (by omega)]

theorem screen_side {l top bottom : ℕ} (hl : l < panel.width) (ht : top < 2 ^ 16)
    (hb : bottom < 2 ^ 16) (hh : max top bottom - min top bottom + 1 < 2 ^ 16) (x y : ℕ) :
    (s.run panel c (fillrectHelper panel l top l bottom)).device.screen x y =
      if x = l ∧ min top bottom ≤ y ∧ y < panel.height then
        (sent panel (max top bottom + 1 - min top bottom) s.buffer).getD (y - min top bottom)
          (s.device.screen x y)
      else s.device.screen x y := by
  rw [run_helper (by omega) hh, max_self, min_self, Nat.add_sub_cancel_left, Nat.one_mul]
  refine screen_column hl (b := max top bottom) (by omega) _ _ _ rfl ?_ x y
  rw [length_sent]
  omega

theorem paints_below {l top bottom : ℕ} (hl : l < panel.width) (ht : top < 2 ^ 16)
    (hb : bottom < 2 ^ 16) (hh : max top bottom - min top bottom + 1 < 2 ^ 16)
    (hbelow : panel.height ≤ min top bottom) :
    s.Paints c (fun _ _ => False) (s.run panel c (fillrectHelper panel l top l bottom)) where
  inside _ _ h := h.elim
  outside x y _ := by rw [screen_side hl ht hb hh, if_neg (by omega)]

/-- A side strip may reach over the lower edge of the panel. -/
theorem paints_side {l top bottom : ℕ} (hl : l < panel.width) (ht : top < 2 ^ 16)
    (hb : bottom < 2 ^ 16) (hh : max top bottom - min top bottom + 1 < 2 ^ 16)
    (hbuffer : ∀ i, s.buffer i = c) :
    s.Paints c (fun x y => x = l ∧ min top bottom ≤ y ∧ y ≤ max top bottom ∧ y < panel.height)
      (s.run panel c (fillrectHelper panel l top l bottom)) where
  inside x y hxy := by
    rw [screen_side hl ht hb hh, if_pos ⟨hxy.1, hxy.2.1, hxy.2.2.2⟩,
      sent_eq_replicate fun i _ => hbuffer i, List.getD_replicate]
    omega
  outside x y hxy := by
    rw [screen_side hl ht hb hh]
    split_ifs with hcolumn
    · rw [List.getD_eq_default]
      rw [length_sent]
      omega
    · rfl

theorem buffer_helper {left top right bottom : ℕ} (s : Canvas γ)
    (hw : max left right - min left right + 1 < 2 ^ 16)
    (hh : max top bottom - min top bottom + 1 < 2 ^ 16) :
    (s.run panel c (fillrectHelper panel left top right bottom)).buffer = s.buffer := by
  rw [run_helper hw hh]

end Canvas

end Strips

section Outline

variable {γ : Type*} {panel : Panel} {c : γ} {s : Canvas γ} {l t r b : ℕ}

theorem buffer_fill {n i : ℕ} (hi : i < min n panel.maxPixels) :
    (s.perform panel c (.fill n)).buffer i = c :=
  if_pos (by omega)

theorem paints_filled (hl : l ≤ r) (hr : r < panel.width) (ht : t ≤ b) (hb : b < panel.height) :
    s.Paints c (InRect l t r b true) (s.run panel c (rect panel l t r b true)) := by
  have hwidth := panel.width_lt
  have hheight := panel.height_lt
  have hpaints := @Canvas.paints_helper γ panel c
    (s.perform panel c (.fill ((r + 1 - l) * (b + 1 - t)))) l t r b (by omega) hr (by omega) hb
    (by rw [max_eq_right hl, min_eq_left hl, max_eq_right ht, min_eq_left ht]
        exact fun i hi => buffer_fill hi)
  unfold rect
  simp only [min_eq_left hl, max_eq_right hl, min_eq_left ht, max_eq_right ht, if_true]
  rw [helper_count hl ht (by omega) (by omega)]
  refine Canvas.Paints.congr ⟨hpaints.inside, hpaints.outside⟩ fun x y => ?_
  simp only [InRect, true_or, and_true]

theorem rect_outline (hl : l ≤ r) (hr : r < panel.width) (ht : t ≤ b) (hb : b < panel.height) :
    rect panel l t r b false = .fill (max (r - l + 1) (b - t + 1)) ::
      (fillrectHelper panel l t r t ++ (fillrectHelper panel l b r b ++
        (fillrectHelper panel l (t + 1) l ((b + (2 ^ 16 - 1)) % 2 ^ 16) ++
          fillrectHelper panel r (t + 1) r ((b + (2 ^ 16 - 1)) % 2 ^ 16)))) := by
  have hwidth := panel.width_lt
  have hheight := panel.height_lt
  unfold rect
  simp only [min_eq_left hl, max_eq_right hl, min_eq_left ht, max_eq_right ht, Bool.false_eq_true,
    if_false, List.append_assoc]
  rw [Nat.mod_eq_of_lt (show r - l + 1 < 2 ^ 16 by omega),
    Nat.mod_eq_of_lt (show b - t + 1 < 2 ^ 16 by omega),
    Nat.mod_eq_of_lt (show t + 1 < 2 ^ 16 by omega)]

theorem paints_row (hl : l ≤ r) (hr : r < panel.width) (hb : b < panel.height)
    (hbuffer : ∀ i < min (r - l + 1) panel.maxPixels, s.buffer i = c) :
    s.Paints c (fun x y => l ≤ x ∧ x ≤ r ∧ y = b)
      (s.run panel c (fillrectHelper panel l b r b)) := by
  refine (Canvas.paints_helper (by omega) hr hb hb ?_).congr fun x y => by omega
  rw [max_self, min_self, Nat.add_sub_cancel_left, Nat.mul_one, max_eq_right hl, min_eq_left hl,
    Nat.sub_add_comm hl]
  exact hbuffer

theorem paints_strips {S : ℕ → Prop} (hl : l ≤ r) (hr : r < panel.width) (ht : t ≤ b)
    (hb : b < panel.height)
    (hside : ∀ x < panel.width, ∀ s' : Canvas γ,
      s'.buffer = (s.perform panel c (.fill (max (r - l + 1) (b - t + 1)))).buffer →
      s'.Paints c (fun x' y => x' = x ∧ S y)
        (s'.run panel c (fillrectHelper panel x (t + 1) x ((b + (2 ^ 16 - 1)) % 2 ^ 16)))) :
    s.Paints c (fun x y => l ≤ x ∧ x ≤ r ∧ (y = t ∨ y = b) ∨ (x = l ∨ x = r) ∧ S y)
      (s.run panel c (rect panel l t r b false)) := by
  have hwidth := panel.width_lt
  have hheight := panel.height_lt
  have hbottom := @side_lt _ t b hheight ht hb
  rw [Nat.mod_eq_of_lt (show t + 1 < 2 ^ 16 by omega)] at hbottom
  generalize hs₀ : s.perform panel c (.fill (max (r - l + 1) (b - t + 1))) = s₀ at hside
  have hfill : ∀ i < min (r - l + 1) panel.maxPixels, s₀.buffer i = c := by
    intro i hi
    rw [← hs₀]
    exact buffer_fill (by omega)
  have hscreen : s₀.device = s.device := by rw [← hs₀]; rfl
  obtain ⟨s₁, hs₁⟩ : ∃ s₁, s₀.run panel c (fillrectHelper panel l t r t) = s₁ := ⟨_, rfl⟩
  obtain ⟨s₂, hs₂⟩ : ∃ s₂, s₁.run panel c (fillrectHelper panel l b r b) = s₂ := ⟨_, rfl⟩
  obtain ⟨s₃, hs₃⟩ : ∃ s₃, s₂.run panel c
    (fillrectHelper panel l (t + 1) l ((b + (2 ^ 16 - 1)) % 2 ^ 16)) = s₃ := ⟨_, rfl⟩
  have hbuffer₁ : s₁.buffer = s₀.buffer := by
    rw [← hs₁, Canvas.buffer_helper _ (by omega) (by omega)]
  have hbuffer₂ : s₂.buffer = s₀.buffer := by
    rw [← hs₂, Canvas.buffer_helper _ (by omega) (by omega), hbuffer₁]
  have hbuffer₃ : s₃.buffer = s₀.buffer := by
    rw [← hs₃, Canvas.buffer_helper _ (by omega) hbottom, hbuffer₂]
  have hupper := @paints_row γ panel c s₀ l r t hl hr (by omega) hfill
  have hlower := @paints_row γ panel c s₁ l r b hl hr hb (by rwa [hbuffer₁])
  have hleft := hside l (by omega) s₂ hbuffer₂
  have hright := hside r hr s₃ hbuffer₃
  rw [hs₁] at hupper
  rw [hs₂] at hlower
  rw [hs₃] at hleft
  have hall := ((hupper.trans hlower).trans hleft).trans hright
  rw [rect_outline hl hr ht hb, Canvas.run_cons, hs₀, Canvas.run_append, hs₁, Canvas.run_append,
    hs₂, Canvas.run_append, hs₃]
  refine Canvas.Paints.congr ⟨hall.inside, fun x y hxy => ?_⟩ fun x y => by grind
  rw [hall.outside x y hxy, hscreen]

/-- With two rows or more the side strips lie between the upper and the lower one, or on
them. -/
theorem paints_outline (hl : l ≤ r) (hr : r < panel.width) (ht : t < b) (hb : b < panel.height) :
    s.Paints c (InRect l t r b false) (s.run panel c (rect panel l t r b false)) := by
  have hheight := panel.height_lt
  have hbottom : (b + (2 ^ 16 - 1)) % 2 ^ 16 = b - 1 := by omega
  have hpaints := @paints_strips γ panel c s l t r b
    (fun y => min (t + 1) (b - 1) ≤ y ∧ y ≤ max (t + 1) (b - 1)) hl hr ht.le hb
    (by
      intro x hx s' hs'
      rw [hbottom]
      refine (Canvas.paints_helper hx hx (by omega) (by omega) ?_).congr fun x' y => by omega
      intro i hi
      rw [max_self, min_self, Nat.add_sub_cancel_left, Nat.one_mul] at hi
      rw [hs']
      exact buffer_fill (Nat.lt_of_lt_of_le hi (min_le_min_right _ (by omega))))
  refine hpaints.congr fun x y => ?_
  simp only [InRect, Bool.false_eq_true, false_or]
  rw [min_eq_left hl, max_eq_right hl, min_eq_left ht.le, max_eq_right ht.le]
  omega

theorem paints_single (hl : l ≤ r) (hr : r < panel.width) (hpanel : panel.height = 1) :
    s.Paints c (InRect l 0 r 0 false) (s.run panel c (rect panel l 0 r 0 false)) := by
  have hpaints := @paints_strips γ panel c s l 0 r 0 (fun _ => False) hl hr le_rfl (by omega)
    (by
      intro x hx s' _
      exact (Canvas.paints_below hx (by omega) (by omega) (by omega) (by omega)).congr
        fun x' y => by tauto)
  refine hpaints.congr fun x y => ?_
  simp only [InRect, Bool.false_eq_true, false_or, and_false, or_false]
  omega

theorem not_paints_row (hl : l ≤ r) (hr : r < panel.width) (hb : b < panel.height)
    (hpanel : panel.height ≠ 1) : ¬ ExactRect panel l b r b false := by
  intro hexact
  have hheight := panel.height_lt
  let s : Canvas Bool := ⟨⟨⟨0, 0, 0, 0, 0, 0⟩, fun _ _ => false⟩, fun _ => true⟩
  have hpaints := @paints_strips Bool panel true s l b r b (fun y =>
      min (b + 1) ((b + (2 ^ 16 - 1)) % 2 ^ 16) ≤ y ∧
        y ≤ max (b + 1) ((b + (2 ^ 16 - 1)) % 2 ^ 16) ∧ y < panel.height) hl hr le_rfl hb
    (by
      intro x hx s' hs'
      refine Canvas.paints_side hx (by omega) (by omega) (by omega) fun i => ?_
      rw [hs']
      exact ite_self _)
  have hout := (hexact.paints Bool true s).outside l (if b = 0 then 1 else b - 1) (by
    simp only [InRect, Bool.false_eq_true, false_or]
    split_ifs <;> omega)
  rw [hpaints.inside] at hout
  · cases hout
  · right
    split_ifs <;> omega

end Outline

section Exact

variable {panel : Panel} {left top right bottom : ℕ} {filled : Bool}

theorem rect_sorted (panel : Panel) (left top right bottom : ℕ) (filled : Bool) :
    rect panel left top right bottom filled = rect panel (min left right) (min top bottom)
      (max left right) (max top bottom) filled := by
  unfold rect
  simp only [min_eq_left min_le_max, max_eq_right min_le_max]

theorem inRect_sorted (x y : ℕ) : InRect left top right bottom filled x y ↔
    InRect (min left right) (min top bottom) (max left right) (max top bottom) filled x y := by
  have hx : x = left ∨ x = right ↔ x = min left right ∨ x = max left right := by omega
  have hy : y = top ∨ y = bottom ↔ y = min top bottom ∨ y = max top bottom := by omega
  have hborder := (or_assoc.symm.trans (or_congr hx hy)).trans or_assoc
  unfold InRect
  rw [hborder, min_eq_left min_le_max, max_eq_right min_le_max, min_eq_left min_le_max,
    max_eq_right min_le_max]

theorem exactRect_sorted : ExactRect panel left top right bottom filled ↔
    ExactRect panel (min left right) (min top bottom) (max left right) (max top bottom)
      filled := by
  constructor
  · rintro ⟨hpaints, hcounted⟩
    constructor
    · intro γ c s
      rw [← rect_sorted]
      exact (hpaints γ c s).congr inRect_sorted
    · rwa [← rect_sorted]
  · rintro ⟨hpaints, hcounted⟩
    constructor
    · intro γ c s
      rw [rect_sorted]
      apply (hpaints γ c s).congr
      intro x y
      exact (inRect_sorted x y).symm
    · rwa [rect_sorted]

/-- A rectangle or its outline is painted exactly, unless the outline is one row high and
the panel is not. -/
theorem exactRect_iff (panel : Panel) (left right : Fin panel.width) (top bottom : Fin panel.height)
    (filled : Bool) : ExactRect panel left top right bottom filled ↔
      filled = true ∨ top ≠ bottom ∨ panel.height = 1 := by
  have hcounted := counted_rect left.isLt right.isLt top.isLt bottom.isLt filled
  obtain ⟨left, hleft⟩ := left
  obtain ⟨right, hright⟩ := right
  obtain ⟨top, htop⟩ := top
  obtain ⟨bottom, hbottom⟩ := bottom
  dsimp only at hcounted ⊢
  rw [exactRect_sorted, Ne, Fin.mk.injEq]
  rw [rect_sorted] at hcounted
  have hr : max left right < panel.width := by omega
  have hb : max top bottom < panel.height := by omega
  cases filled with
  | true =>
    simp only [true_or, iff_true]
    exact ⟨fun γ c s => paints_filled min_le_max hr min_le_max hb, hcounted⟩
  | false =>
    by_cases hrows : top = bottom
    · subst hrows
      rw [max_self, min_self] at hcounted ⊢
      by_cases hpanel : panel.height = 1
      · obtain rfl : top = 0 := by omega
        simp only [hpanel, or_true, iff_true]
        exact ⟨fun γ c s => paints_single min_le_max hr hpanel, hcounted⟩
      · simp only [not_paints_row min_le_max hr htop hpanel, hpanel]
        simp
    · simp only [hrows, not_false_iff, true_or, or_true, iff_true]
      exact ⟨fun γ c s => paints_outline min_le_max hr (by omega) hb, hcounted⟩

/-- The outline of the middle row of three paints the rows above and below. -/
theorem rowOutline_paintsAround :
    ¬ ExactRect ⟨2, 3, 8, by decide, by decide, by decide⟩ 0 1 1 1 false :=
  not_paints_row (by decide) (by decide) (by decide) (by decide)

end Exact

end Qmk.Painter
