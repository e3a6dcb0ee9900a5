import Qmk.Autocorrect.Lookup
import Qmk.Autocorrect.Process

/-! # The table of a dictionary

The bytes that the generator writes encode its trie, and the search of the firmware over bytes that
encode a trie is the lookup in that trie.
-/

namespace Qmk.Autocorrect

section Proper

namespace Trie

/-- All letters are ones that can be typed, and no child is empty. -/
def Proper : Trie → Prop
  | nil => True
  | leaf _ rest => Proper rest
  | item c child rest => IsTypoChar c ∧ child ≠ nil ∧ Proper child ∧ Proper rest

variable {c : Char} {child t : Trie} {entry : Autocorrection}

theorem Proper.get (h : t.Proper) (hget : t.get c = some child) : child ≠ nil ∧ child.Proper := by
  induction t with
  | nil => cases hget
  | leaf entry rest ih => exact ih h hget
  | item d child' rest ihc ihr =>
    rw [Trie.get] at hget
    split_ifs at hget
    · cases hget
      exact ⟨h.2.1, h.2.2.1⟩
    · exact ihr h.2.2.2 hget

theorem Proper.setLeaf (h : t.Proper) : (t.setLeaf entry).Proper := by
  cases t <;> exact h

theorem setLeaf_ne_nil : t.setLeaf entry ≠ nil := by
  cases t <;> simp [setLeaf]

theorem Proper.addItem (h : t.Proper) (hc : IsTypoChar c) (hne : child ≠ nil)
    (hchild : child.Proper) : (addItem c child t).Proper := by
  induction t with
  | nil => exact ⟨hc, hne, hchild, trivial⟩
  | leaf entry rest ih => exact ih h
  | item d child' rest ihc ihr =>
    rw [Trie.addItem]
    split_ifs
    · exact ⟨hc, hne, hchild, h⟩
    · exact ⟨h.1, h.2.1, h.2.2.1, ihr h.2.2.2⟩

theorem addItem_ne_nil : addItem c child t ≠ nil := by
  cases t with
  | item d child' rest =>
    rw [Trie.addItem]
    split_ifs <;> simp
  | _ => simp [Trie.addItem]

theorem Proper.setItem (h : t.Proper) (hne : child ≠ nil) (hchild : child.Proper) :
    (setItem c child t).Proper := by
  induction t with
  | nil => trivial
  | leaf entry rest ih => exact ih h
  | item d child' rest ihc ihr =>
    rw [Trie.setItem]
    split_ifs
    · exact ⟨h.1, hne, hchild, h.2.2.2⟩
    · exact ⟨h.1, h.2.1, h.2.2.1, ihr h.2.2.2⟩

theorem setItem_ne_nil (h : t ≠ nil) : setItem c child t ≠ nil := by
  cases t with
  | nil => exact absurd rfl h
  | leaf entry rest => simp [Trie.setItem]
  | item d child' rest =>
    rw [Trie.setItem]
    split_ifs <;> simp

theorem Proper.insert {path : List Char} (h : t.Proper) (hpath : ∀ c ∈ path, IsTypoChar c) :
    t.insert entry path ≠ nil ∧ (t.insert entry path).Proper := by
  induction path generalizing t with
  | nil => exact ⟨setLeaf_ne_nil, h.setLeaf⟩
  | cons c cs ih =>
    have hcs : ∀ c ∈ cs, IsTypoChar c := fun c' hc' => hpath c' (List.mem_cons_of_mem _ hc')
    rw [Trie.insert]
    cases hget : t.get c with
    | some child =>
      have ht : t ≠ nil := by
        rintro rfl
        cases hget
      obtain ⟨hne, hchild⟩ := ih (h.get hget).2 hcs
      exact ⟨setItem_ne_nil ht, h.setItem hne hchild⟩
    | none =>
      obtain ⟨hne, hchild⟩ := ih (t := nil) trivial hcs
      exact ⟨addItem_ne_nil, h.addItem (hpath c (by simp)) hne hchild⟩

end Trie

theorem makeTrie_proper {l : List Autocorrection} (hl : Accepted l) : (makeTrie l).Proper := by
  have hchars := hl.isTypoChar
  clear hl
  induction l using List.reverseRecOn with
  | nil => trivial
  | append_singleton l e ih =>
    rw [makeTrie_append]
    refine ((ih fun e' he' => hchars e' (by simp [he'])).insert fun c hc => ?_).2
    exact hchars e (by simp) c (by simpa using hc)

theorem makeTrie_ne_nil {l : List Autocorrection} (hl : Accepted l) (hne : l ≠ []) :
    makeTrie l ≠ .nil := by
  induction l using List.reverseRecOn with
  | nil => exact absurd rfl hne
  | append_singleton l e ih =>
    rw [makeTrie_append]
    obtain hl' : Accepted l :=
      ⟨fun a ha => hl.typo_ne_nil a (by simp [ha]), fun a ha => hl.isTypoChar a (by simp [ha]),
        fun a ha => hl.length_le a (by simp [ha]), (List.pairwise_append.mp hl.not_infix).1⟩
    exact ((makeTrie_proper hl').insert fun c hc =>
      hl.isTypoChar e (by simp) c (by simpa using hc)).1

theorem makeTrie_leaf? {l : List Autocorrection} (hl : Accepted l) : (makeTrie l).leaf? = none := by
  cases h : (makeTrie l).leaf? with
  | none => rfl
  | some e =>
    obtain ⟨hmem, hpath⟩ := @mem_of_entryAt l e [] h
    exact absurd (List.reverse_eq_nil_iff.mp hpath.symm) (hl.typo_ne_nil e hmem)

end Proper

section Encodes

mutual

/-- The bytes from a position on are those of a trie. A single child follows its letter at once, or
behind a zero where the chain ends. -/
inductive Encodes (data : List ℕ) : ℕ → Trie → Prop
  | leaf {p entry rest} (hvalid : entry.tableEntry.Valid)
      (hdata : serialize (fun _ => 0) entry.tableEntry <+: data.drop p) :
      Encodes data p (.leaf entry rest)
  | chain {p c child} (hc : data[p]? = some (typoCode c)) (hchild : Encodes data (p + 1) child) :
      Encodes data p (.item c child .nil)
  | chainEnd {p c child} (hc : data[p]? = some (typoCode c)) (hzero : data[p + 1]? = some 0)
      (hchild : Encodes data (p + 2) child) : Encodes data p (.item c child .nil)
  | branch {p c child rest} (hlinks : EncodesLinks data 64 p (.item c child rest)) :
      Encodes data p (.item c child rest)

/-- The bytes are the letters of a branch with the positions of its children. -/
inductive EncodesLinks (data : List ℕ) : ℕ → ℕ → Trie → Prop
  | nil {flag p} (hzero : data[p]? = some 0) : EncodesLinks data flag p .nil
  | leaf {flag p entry rest} (hrest : EncodesLinks data flag p rest) :
      EncodesLinks data flag p (.leaf entry rest)
  | item {flag p c child rest lo hi} (hc : data[p]? = some (typoCode c ||| flag))
      (hlo : data[p + 1]? = some lo) (hhi : data[p + 2]? = some hi)
      (hchild : Encodes data (lo ||| hi <<< 8) child) (hrest : EncodesLinks data 0 (p + 3) rest) :
      EncodesLinks data flag p (.item c child rest)

end

def chainOf (chars : List Char) (t : Trie) : Trie :=
  chars.foldr (fun c child => .item c child .nil) t

theorem encodes_chainOf {data : List ℕ} {chars : List Char} {p : ℕ} {t : Trie} (hne : chars ≠ [])
    (hchars : chars.map typoCode ++ [0] <+: data.drop p)
    (ht : Encodes data (p + chars.length + 1) t) : Encodes data p (chainOf chars t) := by
  induction chars generalizing p with
  | nil => exact absurd rfl hne
  | cons c cs ih =>
    obtain ⟨later, hlater⟩ := hchars
    have hbyte (i : ℕ) : data[p + i]? = ((typoCode c :: cs.map typoCode ++ [0]) ++ later)[i]? := by
      rw [← List.getElem?_drop, ← hlater, List.map_cons]
    cases cs with
    | nil => exact .chainEnd (by simpa using hbyte 0) (by simpa using hbyte 1) ht
    | cons c' cs =>
      refine .chain (by simpa using hbyte 0) (ih (by simp) ⟨later, ?_⟩ ?_)
      · rw [← List.drop_drop, ← hlater]
        rfl
      · have hp : p + 1 + (c' :: cs).length + 1 = p + (c :: c' :: cs).length + 1 := by
          simp only [List.length_cons]
          omega
        rwa [hp]

theorem decode_encodeLink (x : ℕ) : (x &&& 255) ||| (x >>> 8) <<< 8 = x := by
  have hlow : x &&& 255 = x % 2 ^ 8 := Nat.and_two_pow_sub_one_eq_mod x 8
  have hlt : x % 2 ^ 8 < 2 ^ 8 := Nat.mod_lt _ (by decide)
  rw [hlow, Nat.or_comm, ← Nat.shiftLeft_add_eq_or_of_lt hlt, Nat.shiftRight_eq_div_pow,
    Nat.shiftLeft_eq, Nat.div_add_mod']

end Encodes

section Offsets

variable {offsets offsets' : ℕ → ℕ} {table : List TableEntry} {n : ℕ}

theorem length_serializeLinks (offsets : ℕ → ℕ) (flag : ℕ) (links : List (Char × ℕ)) :
    (serializeLinks offsets flag links).length = 3 * links.length + 1 := by
  induction links generalizing flag with
  | nil => rfl
  | cons link links ih =>
    simp only [serializeLinks, encodeLink, List.length_cons, List.length_append, List.length_nil,
      ih]
    omega

theorem length_serialize (offsets offsets' : ℕ → ℕ) (e : TableEntry) :
    (serialize offsets e).length = (serialize offsets' e).length := by
  cases e with
  | leaf _ _ => rfl
  | chain _ _ => rfl
  | branch links => simp [serialize, length_serializeLinks]

theorem length_take_bytes (table : List TableEntry) (offsets : ℕ → ℕ) (n : ℕ) :
    ((table.take n).flatMap (serialize offsets)).length = byteOffset table n := by
  rw [byteOffset, List.length_flatMap]
  congr 1
  exact List.map_congr_left fun e _ => length_serialize _ _ e

theorem drop_byteOffset (table : List TableEntry) (n : ℕ) (offsets : ℕ → ℕ) :
    (table.flatMap (serialize offsets)).drop (byteOffset table n) =
      (table.drop n).flatMap (serialize offsets) := by
  have hsplit : table.flatMap (serialize offsets) =
      (table.take n).flatMap (serialize offsets) ++ (table.drop n).flatMap (serialize offsets) := by
    rw [← List.flatMap_append, List.take_append_drop]
  rw [hsplit, ← length_take_bytes table offsets n, List.drop_left]

/-- The bytes of an entry stand at its offset, and the next entry follows them. -/
theorem serialize_prefix {entry : TableEntry} {rest : List TableEntry} (offsets : ℕ → ℕ)
    (h : entry :: rest <+: table.drop n) :
    serialize offsets entry <+: (table.flatMap (serialize offsets)).drop (byteOffset table n) ∧
      byteOffset table (n + 1) = byteOffset table n + (serialize offsets entry).length ∧
      rest <+: table.drop (n + 1) := by
  obtain ⟨later, hlater⟩ := h
  refine ⟨?_, ?_, later, ?_⟩
  · rw [drop_byteOffset, ← hlater]
    simp [List.prefix_append]
  · have hget : table[n]? = some entry := by
      have := congrArg (·[0]?) hlater
      simpa using this.symm
    rw [byteOffset, List.take_add_one, hget]
    simp [byteOffset, length_serialize offsets (fun _ => 0)]
  · rw [← List.drop_drop, ← hlater]
    rfl

end Offsets

section Generator

variable {table : List TableEntry}

theorem getElem?_of_prefix {data l : List ℕ} {p i : ℕ} (h : l <+: data.drop p) (hi : i < l.length) :
    data[p + i]? = l[i]? := by
  obtain ⟨later, hlater⟩ := h
  rw [← List.getElem?_drop, ← hlater, List.getElem?_append_left hi]

theorem prefix_drop_append {α : Type*} {a b l : List α} {n : ℕ} (h : a ++ b <+: l.drop n) :
    a <+: l.drop n ∧ b <+: l.drop (n + a.length) := by
  obtain ⟨later, hlater⟩ := h
  refine ⟨⟨b ++ later, by rw [← hlater, List.append_assoc]⟩, later, ?_⟩
  rw [← List.drop_drop, ← hlater, List.append_assoc, List.drop_left]

theorem encodes_withChain {node : ℕ → List TableEntry} {t : Trie} {n : ℕ} {chars : List Char}
    (h : ∀ m, node m <+: table.drop m →
      Encodes (table.flatMap (serialize (byteOffset table))) (byteOffset table m) t)
    (hn : withChain n chars node <+: table.drop n) :
    Encodes (table.flatMap (serialize (byteOffset table))) (byteOffset table n)
      (chainOf chars t) := by
  rw [withChain] at hn
  split_ifs at hn with hne
  · rw [hne]
    exact h n hn
  · obtain ⟨hbytes, hnext, hrest⟩ := serialize_prefix (byteOffset table) hn
    refine encodes_chainOf hne hbytes ?_
    have hp : byteOffset table n + chars.length + 1 = byteOffset table (n + 1) := by
      rw [hnext]
      simp [serialize]
      omega
    rw [hp]
    exact h (n + 1) hrest

theorem traverse_encodes (hvalid : ∀ e ∈ table, e.Valid) (t : Trie) (ht : t.Proper) :
    (t ≠ .nil → ∀ n chars, traverse n chars t <+: table.drop n →
      Encodes (table.flatMap (serialize (byteOffset table))) (byteOffset table n)
        (chainOf chars t)) ∧
    ∀ n flag p, (traverseItems n t).2 <+: table.drop n →
      serializeLinks (byteOffset table) flag (traverseItems n t).1 <+:
        (table.flatMap (serialize (byteOffset table))).drop p →
      EncodesLinks (table.flatMap (serialize (byteOffset table))) flag p t := by
  induction t with
  | nil =>
    refine ⟨fun h => absurd rfl h, fun n flag p _ hlinks => .nil ?_⟩
    exact getElem?_of_prefix (i := 0) hlinks (by simp [traverseItems, serializeLinks])
  | leaf entry rest ih =>
    refine ⟨fun _ n chars hn => encodes_withChain (fun m hm => ?_) hn, fun n flag p hn hlinks => ?_⟩
    · obtain ⟨hbytes, -, -⟩ := serialize_prefix (byteOffset table) hm
      exact .leaf (hvalid _ (List.mem_of_mem_drop (hm.subset (by simp)))) hbytes
    · exact .leaf ((ih ht).2 n flag p hn hlinks)
  | item c child rest ihc ihr =>
    obtain ⟨hc, hne, hchild, hrest⟩ := ht
    -- the children of a branch stand one after the other behind it
    have hitems : ∀ n flag p, (traverseItems n (.item c child rest)).2 <+: table.drop n →
        serializeLinks (byteOffset table) flag (traverseItems n (.item c child rest)).1 <+:
          (table.flatMap (serialize (byteOffset table))).drop p →
        EncodesLinks (table.flatMap (serialize (byteOffset table))) flag p
          (.item c child rest) := by
      intro n flag p hn hlinks
      obtain ⟨hfirst, hothers⟩ := prefix_drop_append hn
      have hbyte {i : ℕ} (hi : i < 3) := getElem?_of_prefix (i := i) hlinks (by
        rw [length_serializeLinks]
        simp only [traverseItems, List.length_cons]
        omega)
      refine .item (hbyte (i := 0) (by decide)) (hbyte (i := 1) (by decide))
        (hbyte (i := 2) (by decide)) ?_ ((ihr hrest).2 _ 0 _ hothers ?_)
      · rw [decode_encodeLink]
        exact (ihc hchild).1 hne n [] hfirst
      · have hsplit := prefix_drop_append (a := _ :: encodeLink _) hlinks
        exact hsplit.2
    refine ⟨fun _ n chars hn => ?_, hitems⟩
    by_cases hr : rest = .nil
    · subst hr
      have hchain : chainOf (chars ++ [c]) child = chainOf chars (.item c child .nil) := by
        simp [chainOf]
      exact hchain ▸ (ihc hchild).1 hne n (chars ++ [c]) hn
    · let node (m : ℕ) : List TableEntry :=
        .branch (traverseItems (m + 1) (.item c child rest)).1 ::
          (traverseItems (m + 1) (.item c child rest)).2
      refine @encodes_withChain table node _ n chars (fun m hm => ?_) ?_
      · obtain ⟨hbytes, -, hafter⟩ := serialize_prefix (byteOffset table) hm
        exact .branch (hitems (m + 1) 64 _ hafter hbytes)
      · cases rest with
        | nil => exact absurd rfl hr
        | _ => exact hn

theorem serializeTrie_encodes {t : Trie} {data : List ℕ} (ht : t.Proper) (hne : t ≠ .nil)
    (h : serializeTrie t = some data) : Encodes data 0 t := by
  rw [serializeTrie] at h
  split_ifs at h with hvalid
  cases h
  exact (traverse_encodes hvalid.1 t ht).1 hne 0 [] List.prefix_rfl

end Generator

section Codes

variable {c d : Char}

theorem typoCode_cases (h : IsTypoChar c) :
    (c = '\x27' ∧ typoCode c = 52) ∨ (c = ':' ∧ typoCode c = 44) ∨
      (97 ≤ c.toNat ∧ c.toNat ≤ 122 ∧ typoCode c = c.toNat - 93) := by
  rcases h with rfl | rfl | ⟨h1, h2⟩
  · exact .inl ⟨rfl, rfl⟩
  · exact .inr (.inl ⟨rfl, rfl⟩)
  · have hlow : 97 ≤ c.toNat := h1
    have hhigh : c.toNat ≤ 122 := h2
    have hquot : c ≠ '\x27' := by
      rintro rfl
      exact absurd hlow (by decide)
    have hcolon : c ≠ ':' := by
      rintro rfl
      exact absurd hlow (by decide)
    refine .inr (.inr ⟨hlow, hhigh, ?_⟩)
    rw [typoCode, if_neg hquot, if_neg hcolon]
    change c.toNat + 4 - 97 = c.toNat - 93
    omega

theorem typoCode_bounds (h : IsTypoChar c) : 4 ≤ typoCode c ∧ typoCode c < 64 := by
  rcases typoCode_cases h with ⟨-, h⟩ | ⟨-, h⟩ | ⟨h1, h2, h⟩ <;> omega

theorem typoCode_inj (hc : IsTypoChar c) (hd : IsTypoChar d) : typoCode c = typoCode d ↔ c = d := by
  refine ⟨fun h => ?_, fun h => h ▸ rfl⟩
  rcases typoCode_cases hc with ⟨rfl, hc⟩ | ⟨rfl, hc⟩ | ⟨h1, h2, hc⟩ <;>
    rcases typoCode_cases hd with ⟨rfl, hd⟩ | ⟨rfl, hd⟩ | ⟨h3, h4, hd⟩ <;>
    first
    | rfl
    | omega
    | exact Char.toNat_inj.mp (by omega)

theorem map_typoCode_inj {a b : List Char} (ha : ∀ c ∈ a, IsTypoChar c)
    (hb : ∀ c ∈ b, IsTypoChar c) : a.map typoCode = b.map typoCode ↔ a = b := by
  induction a generalizing b with
  | nil => simp [eq_comm]
  | cons c a ih =>
    cases b with
    | nil => simp
    | cons d b =>
      obtain ⟨hc, ha⟩ := List.forall_mem_cons.mp ha
      obtain ⟨hd, hb⟩ := List.forall_mem_cons.mp hb
      simp [typoCode_inj hc hd, ih ha hb]

theorem suffix_map_typoCode {a b : List Char} (ha : ∀ c ∈ a, IsTypoChar c)
    (hb : ∀ c ∈ b, IsTypoChar c) : a.map typoCode <:+ b.map typoCode ↔ a <:+ b := by
  refine ⟨fun h => ?_, fun h => h.map _⟩
  rw [List.suffix_iff_eq_drop, ← List.map_drop,
    map_typoCode_inj ha fun c hc => hb c (List.mem_of_mem_drop hc)] at h
  exact h ▸ List.drop_suffix _ _

theorem flags_of_lt (x : ℕ) (hx : x < 64) :
    x &&& 64 = 0 ∧ x &&& 128 = 0 ∧ (x ||| 64) &&& 64 ≠ 0 ∧ (x ||| 64) &&& 128 = 0 ∧
      (x ||| 64) &&& 63 = x ∧ (x + 128) &&& 128 ≠ 0 ∧ (x + 128) &&& 63 = x := by
  revert x
  decide

end Codes

section Search

variable {h : Header} {t : Trie} {c : Char} {p : ℕ}

theorem read_of_getElem? {data : List ℕ} {x : ℕ} (hx : data[p]? = some x) : read data p = x := by
  simp [read, hx]

theorem lt_of_getElem? {data : List ℕ} {x : ℕ} (hx : data[p]? = some x) : p < data.length :=
  (List.getElem?_eq_some_iff.mp hx).1

def Trie.linkCode : Trie → ℕ
  | nil => 0
  | leaf _ rest => linkCode rest
  | item c _ _ => typoCode c

theorem linkCode_of_encodes (ht : t.Proper) (he : EncodesLinks h.data 0 p t) :
    h.data[p]? = some t.linkCode := by
  induction t generalizing p with
  | nil =>
    cases he with
    | nil hzero => exact hzero
  | leaf entry rest ih =>
    cases he with
    | leaf hrest => exact ih ht hrest
  | item c child rest ihc ihr =>
    cases he with
    | item hc _ _ _ _ => simpa [Trie.linkCode] using hc

theorem findLink_spec {flag fuel : ℕ} (ht : t.Proper) (hc : IsTypoChar c)
    (he : EncodesLinks h.data flag p t) (hfuel : h.data.length ≤ p + fuel) :
    (∀ a ∈ (findLink h.data (typoCode c) fuel t.linkCode p).1, a.InBounds h) ∧
      (t.get c = none → (findLink h.data (typoCode c) fuel t.linkCode p).2 = none) ∧
      ∀ child, t.get c = some child →
        ∃ q lo hi, (findLink h.data (typoCode c) fuel t.linkCode p).2 = some q ∧
          h.data[q + 1]? = some lo ∧ h.data[q + 2]? = some hi ∧
          Encodes h.data (lo ||| hi <<< 8) child := by
  induction t generalizing flag p fuel with
  | nil =>
    have hpos := (typoCode_bounds hc).1
    cases fuel with
    | zero => exact ⟨by simp [findLink], fun _ => rfl, by simp [Trie.get]⟩
    | succ fuel =>
      have hne : 0 ≠ typoCode c := by omega
      simp [findLink, Trie.linkCode, hne, Trie.get]
  | leaf entry rest ih =>
    cases he with
    | leaf hrest => exact ih ht hrest hfuel
  | item d child rest ihc ihr =>
    obtain ⟨hd, hne, hchild, hrest⟩ := ht
    cases he with
    | @item _ _ _ _ _ lo hi hcode hlo hhi hsub hlinks =>
      have hp := lt_of_getElem? hcode
      obtain ⟨fuel, rfl⟩ : ∃ k, fuel = k + 1 := ⟨fuel - 1, by omega⟩
      have hzero : typoCode d ≠ 0 := by
        have := (typoCode_bounds hd).1
        omega
      simp only [findLink, Trie.linkCode, Trie.get, typoCode_inj hd hc, hzero, if_false]
      split_ifs with hdc
      · refine ⟨by simp, by simp, fun child' h' => ?_⟩
        cases h'
        exact ⟨p, lo, hi, rfl, hlo, hhi, hsub⟩
      · have hnext := linkCode_of_encodes hrest hlinks
        rw [read_of_getElem? hnext]
        obtain ⟨hacc, hnone, hsome⟩ := ihr hrest hlinks (show _ ≤ p + 3 + fuel by omega)
        refine ⟨?_, hnone, hsome⟩
        intro a ha
        rcases List.mem_cons.mp ha with rfl | ha
        · exact lt_of_getElem? hnext
        · exact hacc a ha

theorem typoCode_or_ne_zero {d : Char} (hd : IsTypoChar d) (flag : ℕ) :
    typoCode d ||| flag ≠ 0 := by
  have hpos := (typoCode_bounds hd).1
  have hle := Nat.left_le_or (n := typoCode d) (m := flag)
  omega

/-- A byte that starts a node is not zero, and its high bit marks a leaf. -/
theorem firstByte_of_encodes (ht : t.Proper) (he : Encodes h.data p t) :
    ∃ x, h.data[p]? = some x ∧ x ≠ 0 ∧ (x &&& 128 ≠ 0 ↔ t.leaf?.isSome) := by
  cases he with
  | @leaf _ entry _ hvalid hdata =>
    have hx := getElem?_of_prefix (i := 0) hdata (by simp [Autocorrection.tableEntry, serialize])
    have hflags := flags_of_lt entry.backspaces.toNat (by have := hvalid.1; omega)
    exact ⟨_, hx, by simp, by simpa [Trie.leaf?] using hflags.2.2.2.2.2.1⟩
  | chain hc _ =>
    have hflags := flags_of_lt _ (typoCode_bounds ht.1).2
    exact ⟨_, hc, by simpa using typoCode_or_ne_zero ht.1 0, by simp [Trie.leaf?, hflags.2.1]⟩
  | chainEnd hc _ _ =>
    have hflags := flags_of_lt _ (typoCode_bounds ht.1).2
    exact ⟨_, hc, by simpa using typoCode_or_ne_zero ht.1 0, by simp [Trie.leaf?, hflags.2.1]⟩
  | branch hlinks =>
    cases hlinks with
    | item hc _ _ _ _ =>
      have hflags := flags_of_lt _ (typoCode_bounds ht.1).2
      exact ⟨_, hc, typoCode_or_ne_zero ht.1 64, by simp [Trie.leaf?, hflags.2.2.2.1]⟩

/-- A node with one child, whose position depends on the byte behind the letter. -/
theorem follow_single {d : Char} {child : Trie} {x q : ℕ} (hd : IsTypoChar d) (hc : IsTypoChar c)
    (hcode : h.data[p]? = some (typoCode d)) (hx : h.data[p + 1]? = some x)
    (hq : (if x = 0 then p + 2 else p + 1) = q) (hchild : Encodes h.data q child) :
    (∀ a ∈ (follow h.data (typoCode c) p (read h.data p)).1, a.InBounds h) ∧
      ((Trie.item d child .nil).get c = none →
        (follow h.data (typoCode c) p (read h.data p)).2 = none) ∧
      ∀ child', (Trie.item d child .nil).get c = some child' →
        ∃ q, (follow h.data (typoCode c) p (read h.data p)).2 = some q ∧
          Encodes h.data q child' := by
  have hflag := (flags_of_lt _ (typoCode_bounds hd).2).1
  rw [read_of_getElem? hcode, follow, if_neg (not_not.mpr hflag), read_of_getElem? hx]
  have hnext : (if x = 0 then ([Access.autocorrectData (p + 1)], some (p + 2))
      else ([.autocorrectData (p + 1)], some (p + 1))) =
        ([Access.autocorrectData (p + 1)], some q) := by
    rw [← hq]
    split_ifs <;> rfl
  simp only [hnext, ne_eq, typoCode_inj hd hc, Trie.get]
  split_ifs with hdc
  · refine ⟨by simpa [Access.InBounds] using lt_of_getElem? hx, by simp, fun child' h' => ?_⟩
    exact ⟨q, rfl, Option.some.inj h' ▸ hchild⟩
  · exact ⟨by simp, fun _ => rfl, by simp⟩

theorem follow_branch {d : Char} {child rest : Trie} (ht : (Trie.item d child rest).Proper)
    (hc : IsTypoChar c) (hlinks : EncodesLinks h.data 64 p (.item d child rest)) :
    (∀ a ∈ (follow h.data (typoCode c) p (read h.data p)).1, a.InBounds h) ∧
      ((Trie.item d child rest).get c = none →
        (follow h.data (typoCode c) p (read h.data p)).2 = none) ∧
      ∀ child', (Trie.item d child rest).get c = some child' →
        ∃ q, (follow h.data (typoCode c) p (read h.data p)).2 = some q ∧
          Encodes h.data q child' := by
  have hcode : h.data[p]? = some (typoCode d ||| 64) := by
    cases hlinks with
    | item hcode _ _ _ _ => exact hcode
  have hflags := flags_of_lt _ (typoCode_bounds ht.1).2
  have hlink : (typoCode d ||| 64) &&& 63 = (Trie.item d child rest).linkCode :=
    hflags.2.2.2.2.1
  obtain ⟨hacc, hnone, hsome⟩ := findLink_spec ht hc hlinks
    (show _ ≤ p + h.data.length by omega)
  rw [read_of_getElem? hcode, follow, if_pos hflags.2.2.1, hlink]
  generalize findLink h.data (typoCode c) h.data.length _ p = r at hacc hnone hsome ⊢
  obtain ⟨accesses, q⟩ := r
  cases hget : (Trie.item d child rest).get c with
  | none =>
    obtain rfl : q = none := hnone hget
    exact ⟨hacc, fun _ => rfl, by simp⟩
  | some child' =>
    obtain ⟨q', lo, hi, hq, hlo, hhi, hsub⟩ := hsome child' hget
    obtain rfl : q = some q' := hq
    simp only [read_of_getElem? hlo, read_of_getElem? hhi]
    refine ⟨List.forall_mem_append.mpr ⟨hacc, ?_⟩, by simp, fun child'' h' =>
      ⟨_, rfl, Option.some.inj h' ▸ hsub⟩⟩
    exact List.forall_mem_cons.mpr ⟨lt_of_getElem? hlo,
      List.forall_mem_singleton.mpr (lt_of_getElem? hhi)⟩

theorem follow_spec (ht : t.Proper) (hleaf : t.leaf? = none) (hc : IsTypoChar c)
    (he : Encodes h.data p t) :
    (∀ a ∈ (follow h.data (typoCode c) p (read h.data p)).1, a.InBounds h) ∧
      (t.get c = none → (follow h.data (typoCode c) p (read h.data p)).2 = none) ∧
      ∀ child, t.get c = some child →
        ∃ q, (follow h.data (typoCode c) p (read h.data p)).2 = some q ∧
          Encodes h.data q child := by
  cases he with
  | leaf _ _ => cases hleaf
  | chain hcode hchild =>
    obtain ⟨x, hx, hne, -⟩ := firstByte_of_encodes ht.2.2.1 hchild
    exact follow_single ht.1 hc hcode hx (if_neg hne) hchild
  | chainEnd hcode hzero hchild => exact follow_single ht.1 hc hcode hzero (if_pos rfl) hchild
  | branch hlinks => exact follow_branch ht hc hlinks

theorem search_spec (word : List Char) (hword : ∀ c ∈ word, IsTypoChar c)
    (hlen : word.length ≤ h.maxLength) (ht : t.Proper) (hleaf : t.leaf? = none)
    (he : Encodes h.data p t) :
    (∀ a ∈ (search h.data (word.map typoCode) p (read h.data p)).1, a.InBounds h) ∧
      (t.find word = none → (search h.data (word.map typoCode) p (read h.data p)).2 = none) ∧
      ∀ e, t.find word = some e →
        ∃ state, (search h.data (word.map typoCode) p (read h.data p)).2 = some state ∧
          e.tableEntry.Valid ∧ serialize (fun _ => 0) e.tableEntry <+: h.data.drop state := by
  induction word generalizing p t with
  | nil => exact ⟨by simp [search], fun _ => rfl, by simp [Trie.find]⟩
  | cons c cs ih =>
    have hcs : ∀ c ∈ cs, IsTypoChar c := fun c' hc' => hword c' (List.mem_cons_of_mem _ hc')
    have hkey : (cs.map typoCode).length < h.maxLength := by simpa using hlen
    obtain ⟨hacc, hnone, hsome⟩ := follow_spec ht hleaf (hword c (by simp)) he
    rw [List.map_cons, search, Trie.find]
    generalize follow h.data (typoCode c) p (read h.data p) = r at hacc hnone hsome ⊢
    obtain ⟨accesses, q⟩ := r
    cases hget : t.get c with
    | none =>
      obtain rfl : q = none := hnone hget
      exact ⟨List.forall_mem_cons.mpr ⟨hkey, hacc⟩, fun _ => rfl, by simp⟩
    | some child =>
      obtain ⟨q', hq, hchild⟩ := hsome child hget
      obtain rfl : q = some q' := hq
      obtain ⟨-, hproper⟩ := ht.get hget
      obtain ⟨x, hx, -, hflag⟩ := firstByte_of_encodes hproper hchild
      have hq' := lt_of_getElem? hx
      have hhead : ∀ a ∈ .typoBuffer (cs.map typoCode).length :: accesses ++
          [.autocorrectData q'], a.InBounds h :=
        List.forall_mem_append.mpr
          ⟨List.forall_mem_cons.mpr ⟨hkey, hacc⟩, List.forall_mem_singleton.mpr hq'⟩
      simp only [read_of_getElem? hx, if_neg (not_le.mpr hq'), Option.bind_some]
      cases hl : child.leaf? with
      | some e =>
        rw [if_pos (hflag.mpr (by simp [hl]))]
        refine ⟨hhead, by simp, fun e' he' => ?_⟩
        obtain rfl : e = e' := by simpa using he'
        cases hchild with
        | leaf hvalid hdata =>
          obtain rfl := Option.some.inj hl
          exact ⟨q', rfl, hvalid, hdata⟩
        | _ => cases hl
      | none =>
        rw [if_neg (by simpa [hl] using hflag.not)]
        obtain ⟨hacc', hnone', hsome'⟩ := ih hcs (by simp at hlen; omega) hproper hl hchild
        rw [read_of_getElem? hx] at hacc' hnone' hsome'
        exact ⟨List.forall_mem_append.mpr ⟨hhead, hacc'⟩, hnone', hsome'⟩

end Search

end Qmk.Autocorrect
