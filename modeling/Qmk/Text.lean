import Mathlib.Data.List.Infix
import Mathlib.Logic.Function.Basic

/-! # Replacing and splitting texts

A pattern is replaced in a text everywhere from left to right. In a template, whose chunks do not
contain the pattern and keep it apart from what stands between them, this fills in one of the slots.
A text that is spelled by tokens is split into them again if each of them is what the lexer takes
from the front of the rest.
-/

namespace Qmk.Text

section Patterns

variable {α : Type*} {pat : List α} {p : α → Bool}

/-- A pattern of characters `p` does not go from one text to the next one. -/
theorem isPrefix_of_apart (hpat : ∀ a ∈ pat, p a) {l m s : List α}
    (h : (∀ a ∈ l.getLast?, p a = false) ∨ ∀ a ∈ m.head?, p a = false) (hs : s <:+ l)
    (hne : s ≠ []) (hpre : pat <+: s ++ m) : pat <+: s := by
  rcases List.prefix_or_prefix_of_prefix hpre (List.prefix_append s m) with hps | ⟨t, rfl⟩
  · exact hps
  cases t with
  | nil => simp
  | cons b t =>
    obtain ⟨u, rfl⟩ := hs
    have hm : m.head? = some b := by
      obtain ⟨v, rfl⟩ := (List.prefix_append_right_inj s).mp hpre
      rfl
    have hb : p b = true := hpat b (by simp)
    have hlast : s.getLast hne ∈ (u ++ s).getLast? := by
      rw [List.getLast?_append_of_ne_nil u hne, List.getLast?_eq_getLast_of_ne_nil hne]
      rfl
    have ha : p (s.getLast hne) = true :=
      hpat _ (List.mem_append_left _ (List.getLast_mem hne))
    rcases h with h | h
    · simp [h _ hlast] at ha
    · simp [h b (by rw [hm]; rfl)] at hb

theorem isInfix_append (hpat : ∀ a ∈ pat, p a) {l m : List α}
    (h : (∀ a ∈ l.getLast?, p a = false) ∨ ∀ a ∈ m.head?, p a = false)
    (hin : pat <:+: l ++ m) : pat <:+: l ∨ pat <:+: m := by
  induction l with
  | nil => exact .inr hin
  | cons a l ih =>
    rcases List.infix_cons_iff.mp hin with hpre | hin
    · exact .inl (isPrefix_of_apart hpat h List.suffix_rfl (List.cons_ne_nil a l) hpre).isInfix
    · have hl : (∀ a ∈ l.getLast?, p a = false) ∨ ∀ a ∈ m.head?, p a = false := by
        refine h.imp_left fun h b hb => ?_
        cases l with
        | nil => cases hb
        | cons c l => exact h b (by rwa [List.getLast?_cons_cons])
      exact (ih hl hin).imp_left fun hl => hl.trans (List.suffix_cons a l).isInfix

end Patterns

section Replace

variable {α : Type*} [DecidableEq α] {pat new : List α}

/-- The replacements in a text behind the first `k` characters, which are dropped. -/
def replaceAfter (pat new : List α) : ℕ → List α → List α
  | _, [] => []
  | k + 1, _ :: l => replaceAfter pat new k l
  | 0, a :: l =>
    if pat <+: a :: l then new ++ replaceAfter pat new (pat.length - 1) l
    else a :: replaceAfter pat new 0 l

/-- All occurrences of a pattern that do not overlap, from left to right. -/
def replace (pat new : List α) : List α → List α := replaceAfter pat new 0

theorem replaceAfter_append (k : ℕ) {l : List α} (m : List α) (hk : k ≤ l.length)
    (h : ∀ s, s <:+ l → s ≠ [] → pat <+: s ++ m → pat <+: s) :
    replaceAfter pat new k (l ++ m) = replaceAfter pat new k l ++ replaceAfter pat new 0 m := by
  induction l generalizing k with
  | nil =>
    obtain rfl : k = 0 := Nat.le_zero.mp hk
    rfl
  | cons a l ih =>
    have hl (s : List α) (hs : s <:+ l) := h s (hs.trans (List.suffix_cons a l))
    cases k with
    | succ k => exact ih k (Nat.le_of_succ_le_succ hk) hl
    | zero =>
      have hiff : pat <+: a :: (l ++ m) ↔ pat <+: a :: l :=
        ⟨h _ List.suffix_rfl (List.cons_ne_nil a l), fun hp => hp.trans (List.prefix_append _ m)⟩
      simp only [List.cons_append, replaceAfter, hiff]
      split_ifs with hp
      · have hlen := hp.length_le
        rw [List.length_cons] at hlen
        rw [ih _ (by omega) hl, List.append_assoc]
      · rw [ih 0 (Nat.zero_le _) hl, List.cons_append]

theorem replace_append {p : α → Bool} (hpat : ∀ a ∈ pat, p a) {l m : List α}
    (h : (∀ a ∈ l.getLast?, p a = false) ∨ ∀ a ∈ m.head?, p a = false) :
    replace pat new (l ++ m) = replace pat new l ++ replace pat new m :=
  replaceAfter_append 0 m (Nat.zero_le _) fun _ hs hne hpre => isPrefix_of_apart hpat h hs hne hpre

theorem replace_eq_self {l : List α} (h : ¬ pat <:+: l) : replace pat new l = l := by
  induction l with
  | nil => rfl
  | cons a l ih =>
    have hp : ¬ pat <+: a :: l := fun hp => h hp.isInfix
    have hl : ¬ pat <:+: l := fun hl => h (hl.trans (List.suffix_cons a l).isInfix)
    rw [replace, replaceAfter, if_neg hp]
    exact congrArg (a :: ·) (ih hl)

theorem replaceAfter_length (l : List α) : replaceAfter pat new l.length l = [] := by
  induction l with
  | nil => rfl
  | cons a l ih => exact ih

theorem replace_self (h : pat ≠ []) : replace pat new pat = new := by
  obtain ⟨a, l, rfl⟩ := List.exists_cons_of_ne_nil h
  rw [replace, replaceAfter, if_pos List.prefix_rfl, List.length_cons, Nat.add_sub_cancel,
    replaceAfter_length, List.append_nil]

end Replace

section Templates

variable {α ι : Type*}

inductive Piece (ι α : Type*)
  | chunk (l : List α)
  | slot (i : ι)
  deriving DecidableEq

namespace Piece

def fill (f : ι → List α) : Piece ι α → List α
  | chunk l => l
  | slot i => f i

def Begins (p : α → Bool) : Piece ι α → Prop
  | chunk l => ∃ a ∈ l.head?, p a = false
  | slot _ => False

def Ends (p : α → Bool) : Piece ι α → Prop
  | chunk l => ∃ a ∈ l.getLast?, p a = false
  | slot _ => False

def Apart (p : α → Bool) (x y : Piece ι α) : Prop := x.Ends p ∨ y.Begins p

instance (p : α → Bool) : (x : Piece ι α) → Decidable (x.Begins p)
  | chunk l => inferInstanceAs (Decidable (∃ a ∈ l.head?, p a = false))
  | slot _ => inferInstanceAs (Decidable False)

instance (p : α → Bool) : (x : Piece ι α) → Decidable (x.Ends p)
  | chunk l => inferInstanceAs (Decidable (∃ a ∈ l.getLast?, p a = false))
  | slot _ => inferInstanceAs (Decidable False)

instance (p : α → Bool) (x y : Piece ι α) : Decidable (x.Apart p y) :=
  inferInstanceAs (Decidable (_ ∨ _))

def Free (pat : List α) : Piece ι α → Prop
  | chunk l => ¬ pat <:+: l
  | slot _ => True

instance [DecidableEq α] (pat : List α) : (x : Piece ι α) → Decidable (x.Free pat)
  | chunk l => inferInstanceAs (Decidable (¬ pat <:+: l))
  | slot _ => inferInstanceAs (Decidable True)

end Piece

def render (f : ι → List α) (pieces : List (Piece ι α)) : List α := pieces.flatMap (Piece.fill f)

theorem render_cons (f : ι → List α) (x : Piece ι α) (pieces : List (Piece ι α)) :
    render f (x :: pieces) = x.fill f ++ render f pieces := rfl

theorem render_append (f : ι → List α) (xs ys : List (Piece ι α)) :
    render f (xs ++ ys) = render f xs ++ render f ys := by
  simp [render]

theorem replace_render [DecidableEq α] [DecidableEq ι] {p : α → Bool} {f : ι → List α} {i : ι}
    {new : List α} {pieces : List (Piece ι α)} (hne : f i ≠ []) (hpat : ∀ a ∈ f i, p a)
    (hf : ∀ j ≠ i, ¬ f i <:+: f j) (hfree : ∀ x ∈ pieces, x.Free (f i))
    (hapart : pieces.IsChain (Piece.Apart p)) :
    replace (f i) new (render f pieces) = render (Function.update f i new) pieces := by
  induction pieces with
  | nil => rfl
  | cons x pieces ih =>
    have hx : replace (f i) new (x.fill f) = x.fill (Function.update f i new) := by
      cases x with
      | chunk l => exact replace_eq_self (hfree _ List.mem_cons_self)
      | slot j =>
        by_cases hj : j = i
        · subst hj
          simp only [Piece.fill, replace_self hne, Function.update_self]
        · simp only [Piece.fill, replace_eq_self (hf j hj), Function.update_of_ne hj]
    have hbound : (∀ a ∈ (x.fill f).getLast?, p a = false) ∨
        ∀ a ∈ (render f pieces).head?, p a = false := by
      cases pieces with
      | nil => exact .inr fun a ha => by simp [render] at ha
      | cons y pieces =>
        rcases List.isChain_cons_cons.mp hapart |>.1 with h | h
        · cases x with
          | chunk l =>
            obtain ⟨a, ha, hp⟩ := h
            exact .inl fun b hb => Option.mem_unique ha hb ▸ hp
          | slot j => exact h.elim
        · cases y with
          | chunk l =>
            obtain ⟨a, ha, hp⟩ := h
            refine .inr fun b hb => ?_
            rw [render_cons, Piece.fill, List.head?_append, Option.mem_def.mp ha] at hb
            exact Option.some.inj hb ▸ hp
          | slot j => exact h.elim
    rw [render_cons, replace_append hpat hbound, hx, render_cons]
    congr 1
    exact ih (fun y hy => hfree y (List.mem_cons_of_mem x hy)) (List.isChain_of_isChain_cons hapart)

theorem replace_slots [DecidableEq α] [DecidableEq ι] {p : α → Bool} {f new : ι → List α}
    {slots : List ι} {pieces : List (Piece ι α)} (hnodup : slots.Nodup)
    (hne : ∀ i ∈ slots, f i ≠ []) (hpat : ∀ i ∈ slots, ∀ a ∈ f i, p a)
    (hf : ∀ i ∈ slots, ∀ j ≠ i, ¬ f i <:+: f j)
    (hnew : slots.Pairwise fun j i => ¬ f i <:+: new j)
    (hfree : ∀ x ∈ pieces, ∀ i ∈ slots, x.Free (f i))
    (hapart : pieces.IsChain (Piece.Apart p)) :
    slots.foldl (fun l i => replace (f i) (new i) l) (render f pieces) =
      render (fun i => if i ∈ slots then new i else f i) pieces := by
  induction slots generalizing f with
  | nil => simp
  | cons i slots ih =>
    obtain ⟨hi, hnodup⟩ := List.nodup_cons.mp hnodup
    obtain ⟨hnewi, hnew⟩ := List.pairwise_cons.mp hnew
    have hold {j : ι} (hj : j ∈ slots) : Function.update f i (new i) j = f j :=
      Function.update_of_ne (by rintro rfl; exact hi hj) _ _
    rw [List.foldl_cons, replace_render (hne i List.mem_cons_self) (hpat i List.mem_cons_self)
      (hf i List.mem_cons_self) (fun x hx => hfree x hx i List.mem_cons_self) hapart]
    have hstep := ih (f := Function.update f i (new i)) hnodup
      (fun j hj => by rw [hold hj]; exact hne j (List.mem_cons_of_mem i hj))
      (fun j hj => by rw [hold hj]; exact hpat j (List.mem_cons_of_mem i hj))
      (fun j hj k hk => by
        rw [hold hj]
        by_cases hki : k = i
        · subst hki
          rw [Function.update_self]
          exact hnewi j hj
        · rw [Function.update_of_ne hki]
          exact hf j (List.mem_cons_of_mem i hj) k hk)
      (hnew.imp_of_mem fun {j k} hj hk h => by rwa [hold hk])
      (fun x hx j hj => by rw [hold hj]; exact hfree x hx j (List.mem_cons_of_mem i hj))
    have hold' : slots.foldl (fun l j => replace (Function.update f i (new i) j) (new j) l)
        (render (Function.update f i (new i)) pieces) =
        slots.foldl (fun l j => replace (f j) (new j) l)
        (render (Function.update f i (new i)) pieces) :=
      List.foldl_ext _ _ _ fun l j hj => by rw [hold hj]
    rw [← hold', hstep]
    congr 1
    funext j
    by_cases hj : j = i
    · subst hj
      simp [hi]
    · simp [hj]

end Templates

section Tokens

variable {α τ : Type*} {text : τ → List α} {next : List α → τ × List α}

def spell (text : τ → List α) (ts : List τ) : List α := ts.flatMap text

@[simp] theorem spell_nil : spell text [] = [] := rfl

@[simp] theorem spell_cons (t : τ) (ts : List τ) :
    spell text (t :: ts) = text t ++ spell text ts := rfl

@[simp] theorem spell_append (ts us : List τ) :
    spell text (ts ++ us) = spell text ts ++ spell text us := by
  simp [spell]

/-- The tokens that are taken from the front of a text one after the other, at most `n`. -/
def tokensUpTo (next : List α → τ × List α) : ℕ → List α → List τ
  | 0, _ => []
  | _ + 1, [] => []
  | n + 1, a :: l => (next (a :: l)).1 :: tokensUpTo next n (next (a :: l)).2

def tokens (next : List α → τ × List α) (l : List α) : List τ := tokensUpTo next l.length l

theorem tokensUpTo_spell {n : ℕ} (ts : List τ) (hne : ∀ t ∈ ts, text t ≠ [])
    (hn : (spell text ts).length ≤ n)
    (h : ∀ t us, t :: us <:+ ts → next (text t ++ spell text us) = (t, spell text us)) :
    tokensUpTo next n (spell text ts) = ts := by
  induction ts generalizing n with
  | nil => cases n <;> rfl
  | cons t ts ih =>
    obtain ⟨ht, hts⟩ := List.forall_mem_cons.mp hne
    have hlen := List.length_pos_of_ne_nil ht
    rw [spell_cons, List.length_append] at hn
    obtain ⟨n, rfl⟩ : ∃ k, n = k + 1 := ⟨n - 1, by omega⟩
    obtain ⟨a, l, hal⟩ := List.exists_cons_of_ne_nil ht
    have hnext := h t ts List.suffix_rfl
    rw [spell_cons]
    rw [hal, List.cons_append] at hnext ⊢
    rw [tokensUpTo, hnext]
    refine congrArg (t :: ·) (ih hts (by omega) fun u us hu => ?_)
    exact h u us (hu.trans (List.suffix_cons t ts))

theorem tokens_spell (ts : List τ) (hne : ∀ t ∈ ts, text t ≠ [])
    (h : ∀ t us, t :: us <:+ ts → next (text t ++ spell text us) = (t, spell text us)) :
    tokens next (spell text ts) = ts :=
  tokensUpTo_spell ts hne le_rfl h

end Tokens

end Qmk.Text
