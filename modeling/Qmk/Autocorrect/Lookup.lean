import Qmk.Autocorrect.Generator

/-! # Lookup in the trie of a dictionary

A word is looked up from its end. No typo is part of another one, so the lookup finds the entry of
the typo that the word ends with, if there is one.
-/

namespace Qmk.Autocorrect

namespace Trie

section Paths

def entryAt : List Char → Trie → Option Autocorrection
  | [], t => t.leaf?
  | c :: cs, t => (t.get c).bind (entryAt cs)

/-- The first entry that is met along a word, which is given from its end. -/
def find : List Char → Trie → Option Autocorrection
  | [], _ => none
  | c :: cs, t => (t.get c).bind fun child => child.leaf?.or (find cs child)

theorem find_eq_some {e : Autocorrection} {word : List Char} {t : Trie} (h : find word t = some e) :
    ∃ path, path <+: word ∧ entryAt path t = some e := by
  induction word generalizing t with
  | nil => cases h
  | cons c cs ih =>
    obtain ⟨child, hget, hchild⟩ := Option.bind_eq_some_iff.mp h
    rcases Option.or_eq_some_iff.mp hchild with hleaf | ⟨-, hfind⟩
    · exact ⟨[c], by simp, by simp [entryAt, hget, hleaf]⟩
    · obtain ⟨path, hpath, hentry⟩ := ih hfind
      exact ⟨c :: path, List.cons_prefix_cons.mpr ⟨rfl, hpath⟩, by simp [entryAt, hget, hentry]⟩

theorem find_isSome {e : Autocorrection} {path word : List Char} {t : Trie} (hne : path ≠ [])
    (hpath : path <+: word) (h : entryAt path t = some e) : (find word t).isSome := by
  induction word generalizing path t with
  | nil => exact absurd (List.prefix_nil.mp hpath) hne
  | cons c cs ih =>
    cases path with
    | nil => exact absurd rfl hne
    | cons d ds =>
      obtain ⟨rfl, hds⟩ := List.cons_prefix_cons.mp hpath
      obtain ⟨child, hget, hentry⟩ := Option.bind_eq_some_iff.mp h
      simp only [find, hget, Option.bind_some]
      cases hleaf : child.leaf? with
      | some e' => rfl
      | none =>
        have hds' : ds ≠ [] := by
          rintro rfl
          simp [entryAt, hleaf] at hentry
        simpa using ih hds' hds hentry

end Paths

section Insert

variable {c c' : Char} {child t : Trie} {entry : Autocorrection}

@[simp]
theorem get_setLeaf : (t.setLeaf entry).get c = t.get c := by
  cases t <;> rfl

@[simp]
theorem leaf?_setLeaf : (t.setLeaf entry).leaf? = some entry := by
  cases t <;> rfl

theorem get_addItem (h : t.get c = none) :
    (addItem c child t).get c' = if c' = c then some child else t.get c' := by
  induction t with
  | nil => simp [addItem, get, eq_comm]
  | leaf entry rest ih => exact ih h
  | item d child' rest ihc ihr =>
    have hd : d ≠ c := by
      rintro rfl
      simp [get] at h
    have hrest : rest.get c = none := by simpa [get, hd] using h
    rw [addItem]
    split_ifs with hlt heq heq
    · simp [get, heq]
    · simp [get, Ne.symm heq]
    · rw [get, if_neg (heq ▸ hd), ihr hrest, if_pos heq]
    · rw [get, get, ihr hrest, if_neg heq]

theorem get_setItem (h : (t.get c).isSome) :
    (setItem c child t).get c' = if c' = c then some child else t.get c' := by
  induction t with
  | nil => simp [get] at h
  | leaf entry rest ih => exact ih h
  | item d child' rest ihc ihr =>
    rw [setItem]
    split_ifs with hd heq heq
    · simp [get, hd, heq]
    · simp [get, hd, Ne.symm heq]
    · rw [get, if_neg (heq ▸ hd), ihr (by simpa [get, hd] using h), if_pos heq]
    · rw [get, get, ihr (by simpa [get, hd] using h), if_neg heq]

theorem leaf?_addItem : (addItem c child t).leaf? = t.leaf? := by
  cases t with
  | nil => rfl
  | leaf entry rest => rfl
  | item d child' rest =>
    rw [addItem]
    split_ifs <;> rfl

theorem leaf?_setItem : (setItem c child t).leaf? = t.leaf? := by
  cases t with
  | nil => rfl
  | leaf entry rest => rfl
  | item d child' rest =>
    rw [setItem]
    split_ifs <;> rfl

theorem leaf?_insert_cons {cs : List Char} : (t.insert entry (c :: cs)).leaf? = t.leaf? := by
  rw [insert]
  split
  · exact leaf?_setItem
  · exact leaf?_addItem

theorem get_insert_cons {cs : List Char} :
    (t.insert entry (c :: cs)).get c' =
      if c' = c then some (((t.get c).getD nil).insert entry cs) else t.get c' := by
  rw [insert]
  cases hget : t.get c with
  | some child => exact get_setItem (by simp [hget])
  | none => exact get_addItem hget

theorem entryAt_insert {path path' : List Char} :
    entryAt path' (t.insert entry path) = if path' = path then some entry else entryAt path' t := by
  induction path generalizing path' t with
  | nil =>
    cases path' with
    | nil => simp [entryAt, insert]
    | cons c cs => simp [entryAt, insert]
  | cons c cs ih =>
    cases path' with
    | nil => simp [entryAt, leaf?_insert_cons]
    | cons c' cs' =>
      rw [entryAt, get_insert_cons]
      by_cases hc : c' = c
      · subst hc
        simp only [if_true, Option.bind_some, List.cons.injEq, true_and, ih, entryAt]
        split_ifs
        · rfl
        · cases hget : t.get c' with
          | none => cases cs' <;> rfl
          | some child => rfl
      · simp [hc, entryAt]

end Insert

end Trie

section Dictionary

theorem makeTrie_append (l : List Autocorrection) (e : Autocorrection) :
    makeTrie (l ++ [e]) = (makeTrie l).insert e e.typo.reverse := by
  simp [makeTrie]

theorem mem_of_entryAt {l : List Autocorrection} {e : Autocorrection} {path : List Char}
    (h : (makeTrie l).entryAt path = some e) : e ∈ l ∧ path = e.typo.reverse := by
  induction l using List.reverseRecOn with
  | nil => cases path <;> simp [makeTrie, Trie.entryAt, Trie.leaf?, Trie.get] at h
  | append_singleton l e' ih =>
    rw [makeTrie_append, Trie.entryAt_insert] at h
    split_ifs at h with hpath
    · obtain rfl : e' = e := by simpa using h
      exact ⟨by simp, hpath⟩
    · obtain ⟨hmem, hpath'⟩ := ih h
      exact ⟨by simp [hmem], hpath'⟩

theorem entryAt_of_mem {l : List Autocorrection} (hl : (l.map (·.typo)).Nodup) {e : Autocorrection}
    (h : e ∈ l) : (makeTrie l).entryAt e.typo.reverse = some e := by
  induction l using List.reverseRecOn with
  | nil => cases h
  | append_singleton l e' ih =>
    rw [List.map_append, List.nodup_append] at hl
    rw [makeTrie_append, Trie.entryAt_insert]
    rcases List.mem_append.mp h with hmem | hmem
    · have hne : e.typo ≠ e'.typo := hl.2.2 _ (List.mem_map_of_mem hmem) _ (by simp)
      rw [if_neg (by simpa using hne)]
      exact ih hl.1 hmem
    · obtain rfl : e = e' := by simpa using hmem
      rw [if_pos rfl]

/-- What the checks of `parse_file` say about a dictionary. -/
structure Accepted (l : List Autocorrection) : Prop where
  typo_ne_nil : ∀ e ∈ l, e.typo ≠ []
  isTypoChar : ∀ e ∈ l, ∀ c ∈ e.typo, IsTypoChar c
  length_le : ∀ e ∈ l, e.typo.length ≤ 127
  not_infix : l.Pairwise fun a b => ¬ a.typo <:+: b.typo ∧ ¬ b.typo <:+: a.typo

theorem accepted_nil : Accepted [] := ⟨by simp, by simp, by simp, .nil⟩

theorem Accepted.append {l : List Autocorrection} {e : Autocorrection} (hl : Accepted l)
    (he : ValidTypo l e.typo) : Accepted (l ++ [e]) := by
  obtain ⟨hne, hchars, hother, hlen⟩ := he
  have hall {P : Autocorrection → Prop} (h : ∀ a ∈ l, P a) (h' : P e) : ∀ a ∈ l ++ [e], P a := by
    intro a ha
    rcases List.mem_append.mp ha with ha | ha
    · exact h a ha
    · exact List.mem_singleton.mp ha ▸ h'
  refine ⟨hall hl.typo_ne_nil hne, hall hl.isTypoChar hchars, hall hl.length_le hlen, ?_⟩
  refine List.pairwise_append.mpr ⟨hl.not_infix, List.pairwise_singleton _ _, fun a ha b hb => ?_⟩
  obtain rfl := List.mem_singleton.mp hb
  exact (hother a ha).symm

theorem parseFile_accepted {accepted lines l : List Autocorrection} (h : Accepted accepted)
    (hl : parseFile accepted lines = some l) : Accepted l := by
  induction lines generalizing accepted with
  | nil => exact Option.some.inj hl ▸ h
  | cons line lines ih =>
    rw [parseFile] at hl
    split_ifs at hl with hdup hvalid
    · exact ih h hl
    · exact ih (h.append hvalid) hl

variable {l : List Autocorrection} {e e' : Autocorrection}

theorem Accepted.nodup (hl : Accepted l) : (l.map (·.typo)).Nodup := by
  refine List.pairwise_map.mpr (hl.not_infix.imp fun h heq => h.1 ?_)
  exact heq ▸ List.infix_rfl

theorem Accepted.eq_of_infix (hl : Accepted l) (he : e ∈ l) (he' : e' ∈ l)
    (h : e.typo <:+: e'.typo) : e = e' := by
  by_contra hne
  have hsymm : Std.Symm fun a b : Autocorrection =>
      ¬ a.typo <:+: b.typo ∧ ¬ b.typo <:+: a.typo := ⟨fun _ _ h => h.symm⟩
  exact (hl.not_infix.forall he he' hne).1 h

theorem find_iff (hl : Accepted l) (word : List Char) :
    (makeTrie l).find word.reverse = some e ↔ e ∈ l ∧ e.typo <:+ word := by
  constructor
  · intro h
    obtain ⟨path, hpath, hentry⟩ := Trie.find_eq_some h
    obtain ⟨hmem, rfl⟩ := mem_of_entryAt hentry
    exact ⟨hmem, List.reverse_prefix.mp hpath⟩
  · rintro ⟨hmem, hsuffix⟩
    have hsome := Trie.find_isSome (by simpa using hl.typo_ne_nil e hmem)
      (List.reverse_prefix.mpr hsuffix) (entryAt_of_mem hl.nodup hmem)
    obtain ⟨e', he'⟩ := Option.isSome_iff_exists.mp hsome
    obtain ⟨path, hpath, hentry⟩ := Trie.find_eq_some he'
    obtain ⟨hmem', rfl⟩ := mem_of_entryAt hentry
    have hsuffix' : e'.typo <:+ word := List.reverse_prefix.mp hpath
    -- both typos end the word, so one of them ends the other
    rcases List.suffix_or_suffix_of_suffix hsuffix hsuffix' with h | h
    · rwa [hl.eq_of_infix hmem hmem' h.isInfix]
    · rwa [← hl.eq_of_infix hmem' hmem h.isInfix]

end Dictionary

end Qmk.Autocorrect
