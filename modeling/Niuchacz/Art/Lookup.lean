import Niuchacz.Art.Model

namespace Niuchacz.Art

open Lib.Keyed

/-!
# Valid radix trees, and what a search finds in them

* `Node.Holds` — a leaf with this key and value stands below the node.
* `Node.Valid` — the node stands at a path: every key below it, with its terminator, begins with
  the path; an inner node adds its compressed path `q` and one byte for each child.
* `Node.Valid.holds_unique` — a key stands at most once.
* `Node.search_eq_some_iff` — `art_search` finds exactly the keys below, whatever the memory behind
  the searched string holds.
-/

universe u

/-! ### Bytes of a path -/

section Bytes

variable {p q k l : List UInt8} {c : UInt8} {i : ℕ}

/-- Inside the name the bytes are its own. -/
theorem byteAt_of_lt (h : i < k.length) : byteAt k i = k[i] := by
  unfold byteAt
  rw [List.getD_eq_getElem?_getD, List.getElem?_eq_getElem h, Option.getD_some]

/-- Behind it there are only zeros, the first of which is the terminator. -/
theorem byteAt_of_le (h : k.length ≤ i) : byteAt k i = 0 := by
  unfold byteAt
  rw [List.getD_eq_getElem?_getD, List.getElem?_eq_none h, Option.getD_none]

/-- A name without zero bytes has none before its end. -/
theorem byteAt_ne_zero (hk : 0 ∉ k) (h : i < k.length) : byteAt k i ≠ 0 := by
  rw [byteAt_of_lt h]
  intro hzero
  exact hk (hzero ▸ List.getElem_mem h)

/-- Bytes of a path are not changed by what follows it. -/
theorem byteAt_append_left (h : i < p.length) (q : List UInt8) :
    byteAt (p ++ q) i = byteAt p i := by
  rw [byteAt_of_lt h, byteAt_of_lt (by rw [List.length_append]; omega), List.getElem_append_left h]

/-- Behind a path the bytes of what follows it are read. -/
theorem byteAt_append_right (p q : List UInt8) (i : ℕ) :
    byteAt (p ++ q) (p.length + i) = byteAt q i := by
  unfold byteAt
  rw [List.getD_eq_getElem?_getD, List.getElem?_append_right (Nat.le_add_right ..),
    Nat.add_sub_cancel_left, List.getD_eq_getElem?_getD]

/-- The byte that ends a path is read at its length. -/
theorem byteAt_concat (p : List UInt8) (c : UInt8) : byteAt (p ++ [c]) p.length = c := by
  have h := byteAt_append_right p [c] 0
  rwa [Nat.add_zero] at h

/-- A part that is cut off has the bytes of the whole. -/
theorem byteAt_take {j : ℕ} (h : i < j) (q : List UInt8) : byteAt (q.take j) i = byteAt q i := by
  unfold byteAt
  rw [List.getD_eq_getElem?_getD, List.getElem?_take_of_lt h, List.getD_eq_getElem?_getD]

/-- A path leads to a key: it is a beginning of the key with its terminator. -/
theorem leads_iff :
    p <+: k ++ [0] ↔ p.length ≤ k.length + 1 ∧ ∀ i < p.length, byteAt p i = byteAt k i := by
  -- reading behind the end of the name gives zeros, so that the terminator makes no difference
  have hend : ∀ i, byteAt (k ++ [0]) i = byteAt k i := by
    intro i
    rcases Nat.lt_trichotomy i k.length with h | h | h
    · exact byteAt_append_left h [0]
    · subst h
      rw [byteAt_concat, byteAt_of_le (Nat.le_refl _)]
    · rw [byteAt_of_le (by rw [List.length_append]; exact h), byteAt_of_le (by omega)]
  constructor
  · intro h
    refine ⟨by simpa using h.length_le, fun i hi => ?_⟩
    obtain ⟨r, hr⟩ := h
    rw [← hend i, ← hr, byteAt_append_left hi r]
  · rintro ⟨hlen, hbytes⟩
    rw [List.prefix_iff_eq_take]
    refine List.ext_getElem (by simp; omega) fun i hi hi' => ?_
    have hlt : i < (k ++ [0]).length := by
      simp
      omega
    rw [List.getElem_take, ← byteAt_of_lt hi, ← byteAt_of_lt hlt, hbytes i hi, hend i]

/-- A name leads to itself, with its terminator still to come. -/
theorem leads_self (k : List UInt8) : k <+: k ++ [0] :=
  List.prefix_append k [0]

/-- A path with the next byte of the key leads to it too. -/
theorem leads_concat (h : p <+: k ++ [0]) (hlen : p.length ≤ k.length)
    (hc : byteAt k p.length = c) : p ++ [c] <+: k ++ [0] := by
  rw [leads_iff] at h ⊢
  refine ⟨by simp; omega, fun i hi => ?_⟩
  rw [List.length_append, List.length_singleton] at hi
  rcases Nat.lt_succ_iff_lt_or_eq.mp hi with hi | rfl
  · rw [byteAt_append_left hi, h.2 i hi]
  · rw [byteAt_concat, hc]

/-- A path that goes on does not hold the terminator. -/
theorem zero_notMem_of_concat (hk : 0 ∉ k) (h : p ++ [c] <+: k ++ [0]) : 0 ∉ p := by
  intro hzero
  have hp : p <+: k := by
    have hp' : p <+: k ++ [0] := (List.prefix_append p [c]).trans h
    refine List.prefix_of_prefix_length_le hp' (leads_self k) ?_
    have := h.length_le
    simpa using this
  exact hk (hp.subset hzero)

/-- A path without the terminator is not longer than the name to which it leads. -/
theorem le_length_of_zero_notMem (hp : 0 ∉ p) (h : p <+: k ++ [0]) : p.length ≤ k.length := by
  obtain ⟨hlen, hbytes⟩ := leads_iff.mp h
  by_contra hgt
  have hlast : k.length < p.length := by omega
  refine byteAt_ne_zero hp hlast ?_
  rw [hbytes _ hlast, byteAt_of_le (Nat.le_refl _)]

/-- A path leads to one key at most once it holds the terminator. -/
theorem eq_of_leads_terminated (hk : 0 ∉ k) (hl : 0 ∉ l) (hp : 0 ∈ p) (h : p <+: k ++ [0])
    (h' : p <+: l ++ [0]) : k = l := by
  have hwhole : ∀ {k : List UInt8}, 0 ∉ k → p <+: k ++ [0] → p = k ++ [0] := by
    intro k hk h
    refine h.eq_of_length_le ?_
    by_contra hlt
    have hpk : p <+: k := List.prefix_of_prefix_length_le h (leads_self k) (by simp at hlt; omega)
    exact hk (hpk.subset hp)
  have heq := (hwhole hk h).symm.trans (hwhole hl h')
  exact List.append_cancel_right heq

end Bytes

namespace CString

variable {p : List UInt8} {i : ℕ}

/-- Up to the terminator the argument reads as the stored key will. -/
theorem get_eq (s : CString) (h : i ≤ s.bytes.length) : s.toKey.get i = byteAt s.bytes i := by
  unfold Key.get Key.len
  rcases Nat.lt_or_eq_of_le h with h | rfl
  · unfold byteAt
    rw [List.getD_eq_getElem?_getD, List.getD_eq_getElem?_getD, List.getElem?_eq_getElem h]
    rfl
  · rw [byteAt_of_le (Nat.le_refl _), List.getD_eq_getElem?_getD,
      List.getElem?_eq_none (Nat.le_refl _), Nat.sub_self, Option.getD_none]
    exact s.terminated

/-- Along a path that leads to the key, the key has the bytes of the path. -/
theorem get_of_leads (s : CString) (h : p <+: s.bytes ++ [0]) (hi : i < p.length) :
    s.toKey.get i = byteAt p i := by
  obtain ⟨hlen, hbytes⟩ := leads_iff.mp h
  rw [s.get_eq (by omega), hbytes i hi]

end CString

/-! ### The comparison loops -/

/-- The comparison loops return the first position from `idx` on at which the bytes differ, or the
    bound if there is none. -/
theorem mismatch_spec (a b : ℕ → UInt8) (maxCmp idx : ℕ) :
    idx ≤ mismatch a b maxCmp idx ∧ mismatch a b maxCmp idx ≤ max idx maxCmp
      ∧ (∀ i, idx ≤ i → i < mismatch a b maxCmp idx → a i = b i)
      ∧ (mismatch a b maxCmp idx < maxCmp →
        a (mismatch a b maxCmp idx) ≠ b (mismatch a b maxCmp idx)) := by
  fun_induction mismatch a b maxCmp idx with
  | case1 idx hlt hne =>
    exact ⟨by omega, by omega, fun i h h' => absurd h' (by omega), fun _ => hne⟩
  | case2 idx hlt heq ih =>
    obtain ⟨hle, hmax, hsame, hdiff⟩ := ih
    refine ⟨by omega, by omega, fun i hi hi' => ?_, hdiff⟩
    rcases Nat.eq_or_lt_of_le hi with rfl | hi
    · exact not_not.mp heq
    · exact hsame i hi hi'
  | case3 idx hge =>
    exact ⟨by omega, by omega, fun i h h' => absurd h' (by omega), fun h => absurd h hge⟩

/-- If nothing differs, the loop runs up to the bound. -/
theorem mismatch_eq_of_forall {a b : ℕ → UInt8} {maxCmp : ℕ} (h : ∀ i < maxCmp, a i = b i) :
    mismatch a b maxCmp 0 = maxCmp := by
  obtain ⟨-, hmax, -, hdiff⟩ := mismatch_spec a b maxCmp 0
  by_contra hne
  have hlt : mismatch a b maxCmp 0 < maxCmp := by omega
  exact hdiff hlt (h _ hlt)

namespace Node

variable {V : Type u} {n x : Node V} {p q k part : List UInt8} {v w : V} {c : UInt8} {m depth : ℕ}
  {cs : Children (Node V)} {ascii : Prop} {key : Key}

/-! ### Contents -/

/-- A leaf with this key and value stands below the node. -/
inductive Holds : Node V → List UInt8 → V → Prop
  | leaf {k : List UInt8} {v : V} : Holds (leaf k v) k v
  | inner {m : ℕ} {part k : List UInt8} {cs : Children (Node V)} {c : UInt8} {x : Node V} {v : V}
      (found : cs.findChild c = some x) (below : Holds x k v) : Holds (inner m part cs) k v

/-- Unfolding lemma: a leaf holds its own entry. -/
theorem holds_leaf_iff {k' : List UInt8} : Holds (leaf k v) k' w ↔ k' = k ∧ w = v := by
  constructor
  · intro h
    cases h
    exact ⟨rfl, rfl⟩
  · rintro ⟨rfl, rfl⟩
    exact Holds.leaf

/-- Unfolding lemma: an inner node holds what its children hold. -/
theorem holds_inner_iff :
    Holds (inner m part cs) k v ↔ ∃ c x, cs.findChild c = some x ∧ Holds x k v := by
  constructor
  · intro h
    cases h with
    | inner found below => exact ⟨_, _, found, below⟩
  · rintro ⟨c, x, found, below⟩
    exact Holds.inner found below

/-- Every statement about the nodes of a tree that passes from the children of a node to the
    node. -/
@[elab_as_elim] theorem childInduction {motive : Node V → Prop} (n : Node V)
    (leaf : ∀ key value, motive (leaf key value))
    (inner : ∀ m part cs, (∀ c x, (c, x) ∈ cs.entries → motive x) → motive (inner m part cs)) :
    motive n := by
  induction acc_isChild n with
  | intro n _ ih =>
    cases n with
    | leaf key value => exact leaf key value
    | inner m part cs => exact inner m part cs fun c x hx => ih x ⟨c, hx⟩

/-! ### Validity -/

/-- A node at a path from the root.  `ascii` says that all keys of the tree are of 7-bit bytes; then
    the children stand in the order of their bytes. -/
inductive Valid (ascii : Prop) : List UInt8 → Node V → Prop
  | leaf {p k : List UInt8} {v : V} (nonzero : 0 ∉ k) (low : ascii → ∀ b ∈ k, b < 128)
      (leads : p <+: k ++ [0]) : Valid ascii p (leaf k v)
  | inner {p q : List UInt8} {cs : Children (Node V)} (table : cs.Valid)
      (ordered : ascii → cs.Ordered)
      (below : ∀ c x, cs.findChild c = some x → Valid ascii (p ++ q ++ [c]) x) :
      Valid ascii p (inner q.length (q.take maxPrefixLen) cs)

/-- The path to a node leads to all names below it. -/
theorem Valid.leads (h : Valid ascii p n) (hk : Holds n k v) : p <+: k ++ [0] := by
  induction h with
  | leaf _ _ hleads =>
    cases hk
    exact hleads
  | inner _ _ _ ih =>
    obtain ⟨c, x, hx, hbelow⟩ := holds_inner_iff.mp hk
    have hstep := ih c x hx hbelow
    rw [List.append_assoc] at hstep
    exact (List.prefix_append _ _).trans hstep

/-- No name in the tree has a zero byte. -/
theorem Valid.nonzero (h : Valid ascii p n) (hk : Holds n k v) : 0 ∉ k := by
  induction h with
  | leaf hzero _ _ =>
    cases hk
    exact hzero
  | inner _ _ _ ih =>
    obtain ⟨c, x, hx, hbelow⟩ := holds_inner_iff.mp hk
    exact ih c x hx hbelow

/-- In a tree of ASCII names every name below a node is one. -/
theorem Valid.low (h : Valid ascii p n) (hk : Holds n k v) (ha : ascii) : ∀ b ∈ k, b < 128 := by
  induction h with
  | leaf _ hlow _ =>
    cases hk
    exact hlow ha
  | inner _ _ _ ih =>
    obtain ⟨c, x, hx, hbelow⟩ := holds_inner_iff.mp hk
    exact ih c x hx hbelow

/-- Unfolding lemma: `minimum` goes to the first child. -/
theorem minimum_inner (m : ℕ) (part : List UInt8) (cs : Children (Node V)) :
    (inner m part cs).minimum = cs.entries.head?.bind fun child => child.2.minimum := by
  rw [minimum]
  split
  case h_1 hnone => rw [hnone, Option.bind_none]
  case h_2 child hsome => rw [hsome, Option.bind_some]

/-- The least leaf is there, and stands below the node. -/
theorem Valid.minimum_holds (h : Valid ascii p n) :
    ∃ k v, n.minimum = some (k, v) ∧ Holds n k v := by
  induction h with
  | leaf _ _ _ => exact ⟨_, _, by rw [minimum], Holds.leaf⟩
  | @inner p q cs table _ _ ih =>
    have hlen := table.two_le_length
    obtain ⟨e, es, hes⟩ : ∃ e es, cs.entries = e :: es := by
      cases hes : cs.entries with
      | nil => simp [hes] at hlen
      | cons e es => exact ⟨e, es, rfl⟩
    have hx : cs.findChild e.1 = some e.2 := table.shape.mem_entries.mp (by rw [hes]; simp)
    obtain ⟨k, v, hmin, hholds⟩ := ih e.1 e.2 hx
    refine ⟨k, v, ?_, Holds.inner hx hholds⟩
    rw [minimum_inner, hes, List.head?_cons, Option.bind_some, hmin]

section Inner

variable (h : Valid ascii p (inner q.length (q.take maxPrefixLen) cs))
  (below : ∀ c x, cs.findChild c = some x → Valid ascii (p ++ q ++ [c]) x)

include below in
/-- The byte under which a key stands. -/
theorem byte_eq (hx : cs.findChild c = some x) (hk : Holds x k v) :
    byteAt k (p.length + q.length) = c := by
  have hleads := (leads_iff.mp ((below c x hx).leads hk)).2 (p.length + q.length) (by simp)
  rw [← hleads, ← List.length_append, byteAt_concat]

include h below in
/-- No terminator stands on the way to an inner node, nor in its compressed path. -/
theorem zero_notMem_path : 0 ∉ p ++ q := by
  obtain ⟨k, v, -, hholds⟩ := h.minimum_holds
  obtain ⟨c, x, hx, hbelow⟩ := holds_inner_iff.mp hholds
  exact zero_notMem_of_concat (h.nonzero hholds) ((below c x hx).leads hbelow)

end Inner

/-- A key stands at most once below a node. -/
theorem Valid.holds_unique (h : Valid ascii p n) (hv : Holds n k v) (hw : Holds n k w) : v = w := by
  induction h with
  | leaf _ _ _ =>
    obtain ⟨-, rfl⟩ := holds_leaf_iff.mp hv
    obtain ⟨-, rfl⟩ := holds_leaf_iff.mp hw
    rfl
  | inner _ _ below ih =>
    obtain ⟨c, x, hx, hv⟩ := holds_inner_iff.mp hv
    obtain ⟨d, y, hy, hw⟩ := holds_inner_iff.mp hw
    -- the key itself says under which byte it stands
    obtain rfl : c = d := (byte_eq below hx hv).symm.trans (byte_eq below hy hw)
    obtain rfl := Option.some.inj (hx.symm.trans hy)
    exact ih c x hx hv hw

/-! ### Search -/

/-- `leaf_matches` compares the names themselves, lengths included. -/
theorem leafMatches_iff : leafMatches k key = true ↔ k = key.bytes := by
  unfold leafMatches Key.len
  rw [Bool.and_eq_true, beq_iff_eq, beq_iff_eq]
  exact ⟨fun h => h.2, fun h => ⟨congrArg List.length h, h⟩⟩

/-- Unfolding lemma: at a leaf `art_search` compares the whole key. -/
theorem search_leaf :
    (leaf k v).search key depth = if leafMatches k key then some v else none := by
  rw [search]

/-- Unfolding lemma: at an inner node `art_search` compares the stored part of the prefix, skips the
    rest of it, and goes to the child of the next byte. -/
theorem search_inner :
    (inner m part cs).search key depth =
      if m ≠ 0 ∧ checkPrefix m part key depth ≠ min maxPrefixLen m then none
      else (cs.findChild (key.get (depth + m))).bind fun x => x.search key (depth + m + 1) := by
  rw [search]
  split
  · rfl
  · split
    case h_1 hnone => rw [hnone, Option.bind_none]
    case h_2 x hx => rw [hx, Option.bind_some]

/-- What is found is there, on any tree and whatever the search reads. -/
theorem holds_of_search (h : n.search key depth = some v) : Holds n key.bytes v := by
  -- `art_search` follows the children; at the leaf it compares the whole key
  induction n using childInduction generalizing depth with
  | leaf k w =>
    rw [search_leaf] at h
    split at h
    case isTrue hmatch =>
      obtain rfl := Option.some.inj h
      rw [← leafMatches_iff.mp hmatch]
      exact Holds.leaf
    case isFalse => cases h
  | inner m part cs ih =>
    rw [search_inner] at h
    split at h
    · cases h
    · obtain ⟨x, hx, hsearch⟩ := Option.bind_eq_some_iff.mp h
      obtain ⟨c, hmem⟩ : IsChild x (inner m part cs) := isChild_of_findChild hx
      exact Holds.inner hx (ih c x hmem hsearch)

section Path

variable {s : CString} (h : p ++ q ++ [c] <+: s.bytes ++ [0])

include h

/-- On the way through the prefix of a node the key has the bytes of the prefix. -/
theorem get_path {i : ℕ} (hi : i < q.length) : s.toKey.get (p.length + i) = byteAt q i := by
  rw [s.get_of_leads h (by simp; omega), byteAt_append_left (by simp; omega),
    byteAt_append_right]

/-- The byte behind the prefix is the one by which the children are told apart. -/
theorem get_end : s.toKey.get (p.length + q.length) = c := by
  rw [s.get_of_leads h (by simp), ← List.length_append, byteAt_concat]

/-- The byte is in the name or is its terminator. -/
theorem length_path_le : p.length + q.length ≤ s.bytes.length := by
  have := h.length_le
  simp at this
  omega

/-- On the way to a stored key the test of the stored bytes passes. -/
theorem checkPrefix_path :
    checkPrefix q.length (q.take maxPrefixLen) s.toKey p.length = min maxPrefixLen q.length := by
  have hlen := length_path_le h
  have hmax : min (min q.length maxPrefixLen) (s.toKey.len - p.length)
      = min maxPrefixLen q.length := by
    unfold Key.len
    omega
  unfold checkPrefix
  rw [hmax]
  refine mismatch_eq_of_forall fun i hi => ?_
  rw [byteAt_take (by omega), get_path h (by omega)]

end Path

/-- What is there is found. -/
theorem Valid.search_of_holds (h : Valid ascii p n) (s : CString) (hv : Holds n s.bytes v) :
    n.search s.toKey p.length = some v := by
  induction h with
  | leaf _ _ _ =>
    obtain ⟨hk, rfl⟩ := holds_leaf_iff.mp hv
    rw [search_leaf, if_pos (leafMatches_iff.mpr hk.symm)]
  | inner _ _ below ih =>
    obtain ⟨c, x, hx, hv⟩ := holds_inner_iff.mp hv
    have hleads := (below c x hx).leads hv
    have hfound := ih c x hx hv
    rw [search_inner, if_neg (fun hne => hne.2 (checkPrefix_path hleads)), get_end hleads, hx,
      Option.bind_some]
    simpa [Nat.add_assoc] using hfound

/-- **Search.**  From the root, `art_search` finds exactly what the tree holds. -/
theorem Valid.search_eq_some_iff (h : Valid ascii [] n) (s : CString) :
    n.search s.toKey 0 = some v ↔ Holds n s.bytes v :=
  ⟨holds_of_search, h.search_of_holds s⟩

end Node

end Niuchacz.Art
