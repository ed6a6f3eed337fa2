import Mathlib.Data.Tree.Basic
import Mathlib.Data.List.Basic
import Mathlib.Order.Lattice

namespace Lib.SearchTree

open BinaryTree

/-!
# Search trees

Binary trees whose nodes carry keys.  A search for `k` ends at one subtree, `sub k t`; what
stands before and after this subtree in the tree is `before k t` and `after k t`, and an update
at `k` replaces it (`replace`).  Everything else about updates follows from the in-order lists:

* `inorder_eq`, `inorder_replace` — a tree and its update differ only in the subtree.
* `Ordered` — the keys increase from left to right; `Ordered.replace` — an update keeps this.
* `search_eq_some_iff` — in an ordered tree the search finds what is there.
* `put`, `search_put` — storing one entry; `search_cut` — taking one entry out.
-/

variable {α κ : Type*} {a x : α} {l r s t : BinaryTree α}

/-- The entries from left to right. -/
def inorder : BinaryTree α → List α
  | nil => []
  | node a l r => inorder l ++ a :: inorder r

@[simp] theorem inorder_nil : inorder (nil : BinaryTree α) = [] := rfl

@[simp] theorem inorder_node : inorder (node a l r) = inorder l ++ a :: inorder r := rfl

section
variable [LinearOrder κ] (key : α → κ) {k j : κ}

/-- The keys increase from left to right. -/
def Ordered (t : BinaryTree α) : Prop := (inorder t).Pairwise fun x y => key x < key y

theorem ordered_nil : Ordered key (nil : BinaryTree α) := List.Pairwise.nil

/-- Every left key is smaller and every right key is larger, recursively. -/
theorem ordered_node : Ordered key (node a l r) ↔ Ordered key l ∧ Ordered key r ∧
    (∀ x ∈ inorder l, key x < key a) ∧ ∀ x ∈ inorder r, key a < key x := by
  simp only [Ordered, inorder_node, List.pairwise_append, List.pairwise_cons, List.mem_cons,
    forall_eq_or_imp]
  constructor
  · rintro ⟨hl, ⟨ha, hr⟩, hlr⟩
    exact ⟨hl, hr, fun x hx => (hlr x hx).1, ha⟩
  · rintro ⟨hl, hr, hla, har⟩
    exact ⟨hl, ⟨har, hr⟩, fun x hx => ⟨hla x hx, fun y hy => (hla x hx).trans (har y hy)⟩⟩

/-- Two entries of an ordered tree with one key are one entry. -/
theorem Ordered.eq_of_key_eq {key : α → κ} (h : Ordered key t) {y : α} (hx : x ∈ inorder t)
    (hy : y ∈ inorder t) (hk : key x = key y) : x = y := by
  by_contra hne
  have hlt := List.Pairwise.forall_of_forall_of_flip (R := fun x y => x ≠ y → key x ≠ key y)
    (fun x _ hxx => absurd rfl hxx) (h.imp fun hxy _ => hxy.ne)
    (h.imp fun hxy _ => hxy.ne') hx hy hne
  exact hlt hk

/-! ### Where a search ends -/

/-- The subtree at which the search for `k` ends: the one with `k` at its root, or an empty
    one. -/
def sub (k : κ) : BinaryTree α → BinaryTree α
  | nil => nil
  | node a l r => if key a = k then node a l r else if k < key a then sub k l else sub k r

/-- The entries to the left of this subtree. -/
def before (k : κ) : BinaryTree α → List α
  | nil => []
  | node a l r =>
    if key a = k then [] else if k < key a then before k l else inorder l ++ a :: before k r

/-- The entries to the right of it. -/
def after (k : κ) : BinaryTree α → List α
  | nil => []
  | node a l r =>
    if key a = k then [] else if k < key a then after k l ++ a :: inorder r else after k r

/-- The tree with another subtree in its place. -/
def replace (k : κ) (s : BinaryTree α) : BinaryTree α → BinaryTree α
  | nil => s
  | node a l r =>
    if key a = k then s
    else if k < key a then node a (replace k s l) r else node a l (replace k s r)

/-- The entry that the search for `k` finds. -/
def search (k : κ) (t : BinaryTree α) : Option α :=
  match sub key k t with
  | nil => none
  | node a _ _ => some a

variable {key}

/-- If the search ends at a node, it has the key. -/
theorem key_of_sub (h : sub key k t = node a l r) : key a = k := by
  induction t with
  | nil => cases h
  | node b l' r' ihl ihr =>
    simp only [sub] at h
    split at h
    · rename_i hk
      cases h
      exact hk
    · split at h
      · exact ihl h
      · exact ihr h

variable (key) in
/-- **Focus.**  A tree is what stands before the subtree, the subtree, and what stands after. -/
theorem inorder_eq (k : κ) (t : BinaryTree α) :
    inorder t = before key k t ++ (inorder (sub key k t) ++ after key k t) := by
  induction t with
  | nil => rfl
  | node a l r ihl ihr =>
    simp only [before, sub, after]
    split
    · simp
    · split
      · rw [inorder_node, ihl]
        simp
      · rw [inorder_node, ihr]
        simp

variable (key) in
/-- Another subtree in the place of the old one leaves the entries on both sides as they are. -/
theorem inorder_replace (k : κ) (s t : BinaryTree α) :
    inorder (replace key k s t) = before key k t ++ (inorder s ++ after key k t) := by
  induction t with
  | nil => simp [replace, before, after]
  | node a l r ihl ihr =>
    simp only [replace, before, after]
    split
    · simp
    · split
      · rw [inorder_node, ihl]
        simp
      · rw [inorder_node, ihr]
        simp

variable (key) in
theorem replace_sub (k : κ) (t : BinaryTree α) : replace key k (sub key k t) t = t := by
  induction t with
  | nil => rfl
  | node a l r ihl ihr =>
    simp only [replace, sub]
    split
    · rfl
    · split
      · rw [ihl]
      · rw [ihr]

/-- Everything to the left of the place of `k` is smaller than `k`. -/
theorem Ordered.before_lt (h : Ordered key t) : ∀ x ∈ before key k t, key x < k := by
  induction t with
  | nil => simp [before]
  | node a l r ihl ihr =>
    obtain ⟨hl, hr, hla, -⟩ := (ordered_node key).mp h
    simp only [before]
    split
    · simp
    · split
      · exact ihl hl
      · rename_i hne hlt
        -- the search goes to the right: the root and everything to its left come before
        have hak : key a < k := lt_of_le_of_ne (not_lt.mp hlt) hne
        intro x hx
        rcases List.mem_append.mp hx with hx | hx
        · exact (hla x hx).trans hak
        · rcases List.mem_cons.mp hx with rfl | hx
          · exact hak
          · exact ihr hr x hx

theorem Ordered.lt_after (h : Ordered key t) : ∀ x ∈ after key k t, k < key x := by
  induction t with
  | nil => simp [after]
  | node a l r ihl ihr =>
    obtain ⟨hl, hr, -, har⟩ := (ordered_node key).mp h
    simp only [after]
    split
    · simp
    · split
      -- the search goes to the left: the root and everything to its right come after
      · rename_i hlt
        intro x hx
        rcases List.mem_append.mp hx with hx | hx
        · exact ihl hl x hx
        · rcases List.mem_cons.mp hx with rfl | hx
          · exact hlt
          · exact hlt.trans (har x hx)
      · exact ihr hr

/-- A subtree of an ordered tree is ordered. -/
theorem Ordered.sub (h : Ordered key t) : Ordered key (sub key k t) := by
  unfold Ordered at h
  rw [inorder_eq key k t] at h
  exact (List.pairwise_append.mp (List.pairwise_append.mp h).2.1).1

/-- An update with entries of the old subtree, or with key `k`, keeps the order. -/
theorem Ordered.replace (h : Ordered key t) (hs : Ordered key s)
    (hmem : ∀ x ∈ inorder s, key x = k ∨ x ∈ inorder (Lib.SearchTree.sub key k t)) :
    Ordered key (replace key k s t) := by
  have ht := h
  unfold Ordered at ht ⊢
  rw [inorder_eq key k t, List.pairwise_append] at ht
  obtain ⟨hb, hsa, hbs⟩ := ht
  obtain ⟨-, ha, hsa'⟩ := List.pairwise_append.mp hsa
  -- the subtree lies between what comes before and after the key
  rw [inorder_replace, List.pairwise_append]
  refine ⟨hb, List.pairwise_append.mpr ⟨hs, ha, ?_⟩, ?_⟩
  · intro x hx y hy
    rcases hmem x hx with hk | hx
    · rw [hk]
      exact h.lt_after y hy
    · exact hsa' x hx y hy
  · intro x hx y hy
    rcases List.mem_append.mp hy with hy | hy
    · rcases hmem y hy with hk | hy
      · rw [hk]
        exact h.before_lt x hx
      · exact hbs x hx y (List.mem_append_left _ hy)
    · exact hbs x hx y (List.mem_append_right _ hy)

/-! ### Searching -/

/-- What is found is an entry with the key, also in a tree without order. -/
theorem mem_of_search (h : search key k t = some a) : a ∈ inorder t ∧ key a = k := by
  unfold search at h
  split at h
  · cases h
  · rename_i b l r hsub
    cases h
    refine ⟨?_, key_of_sub hsub⟩
    rw [inorder_eq key k t, hsub]
    simp

/-- **Search.**  In an ordered tree the search finds what is there. -/
theorem search_eq_some_iff (h : Ordered key t) :
    search key k t = some a ↔ a ∈ inorder t ∧ key a = k := by
  refine ⟨mem_of_search, ?_⟩
  rintro ⟨hmem, hk⟩
  -- the entry is neither before nor after the place where the search ends
  rw [inorder_eq key k t, List.mem_append, List.mem_append] at hmem
  have hsub : a ∈ inorder (sub key k t) := by
    rcases hmem with hb | hs | ha
    · exact absurd (h.before_lt a hb) (by rw [hk]; exact lt_irrefl k)
    · exact hs
    · exact absurd (h.lt_after a ha) (by rw [hk]; exact lt_irrefl k)
  unfold search
  cases hs : sub key k t with
  | nil => rw [hs] at hsub; cases hsub
  | node b l r =>
    have hb : b ∈ inorder (sub key k t) := by rw [hs]; simp
    rw [(h.sub).eq_of_key_eq hb hsub (by rw [key_of_sub hs, hk])]

/-- In an ordered tree nothing is found exactly if no entry has the key. -/
theorem search_eq_none_iff (h : Ordered key t) :
    search key k t = none ↔ ∀ x ∈ inorder t, key x ≠ k := by
  rw [Option.eq_none_iff_forall_ne_some]
  constructor
  · intro hn x hx hk
    exact hn x ((search_eq_some_iff h).mpr ⟨hx, hk⟩)
  · intro hn x hx
    obtain ⟨hmem, hk⟩ := mem_of_search hx
    exact hn x hmem hk

/-- Searches depend only on the entries. -/
theorem search_congr (hs : Ordered key s) (ht : Ordered key t)
    (h : ∀ x, key x = k → (x ∈ inorder s ↔ x ∈ inorder t)) :
    search key k s = search key k t := by
  ext a
  rw [search_eq_some_iff hs, search_eq_some_iff ht]
  constructor
  · rintro ⟨hmem, hk⟩
    exact ⟨(h a hk).mp hmem, hk⟩
  · rintro ⟨hmem, hk⟩
    exact ⟨(h a hk).mpr hmem, hk⟩

/-! ### Storing and taking out -/

/-- The children of the subtree at `k`, around a new entry. -/
def withRoot (a : α) : BinaryTree α → BinaryTree α
  | nil => node a nil nil
  | node _ l r => node a l r

variable (key) in
/-- Store `a` at the place of its key. -/
def put (a : α) (t : BinaryTree α) : BinaryTree α :=
  replace key (key a) (withRoot a (sub key (key a) t)) t

theorem put_nil : put key a nil = node a nil nil := rfl

/-- Storing goes down the same way as the search. -/
theorem put_node {b : α} : put key a (node b l r) =
    if key b = key a then node a l r
    else if key a < key b then node b (put key a l) r else node b l (put key a r) := by
  simp only [put, sub, replace]
  split
  · rfl
  · split <;> rfl

/-- Storing an entry at the place of its key keeps the order. -/
theorem Ordered.put (h : Ordered key t) : Ordered key (put key a t) := by
  have hsub := h.sub (k := key a)
  refine h.replace ?_ ?_
  · cases hs : Lib.SearchTree.sub key (key a) t with
    | nil => exact (ordered_node key).mpr ⟨ordered_nil key, ordered_nil key, by simp, by simp⟩
    | node b l r =>
      rw [hs] at hsub
      obtain ⟨hl, hr, hla, har⟩ := (ordered_node key).mp hsub
      rw [key_of_sub hs] at hla har
      exact (ordered_node key).mpr ⟨hl, hr, hla, har⟩
  · -- the new root has the key, and the others are of the old subtree
    intro x hx
    cases hs : Lib.SearchTree.sub key (key a) t with
    | nil =>
      rw [hs] at hx
      simp only [withRoot, inorder_node, inorder_nil, List.nil_append, List.mem_singleton] at hx
      exact Or.inl (by rw [hx])
    | node b l r =>
      rw [hs] at hx
      simp only [withRoot, inorder_node, List.mem_append, List.mem_cons] at hx ⊢
      rcases hx with hx | rfl | hx
      · exact Or.inr (Or.inl hx)
      · exact Or.inl rfl
      · exact Or.inr (Or.inr (Or.inr hx))

/-- Storing brings in no other entry, whether or not the tree is ordered. -/
theorem mem_of_mem_put (hx : x ∈ inorder (put key a t)) : x = a ∨ x ∈ inorder t := by
  induction t with
  | nil => simpa [put_nil] using hx
  | node b l r ihl ihr =>
    rw [put_node] at hx
    rw [inorder_node, List.mem_append, List.mem_cons]
    -- the entry goes to the root, or into one of the subtrees
    split at hx
    · rw [inorder_node, List.mem_append, List.mem_cons] at hx
      rcases hx with hx | hx | hx
      · exact Or.inr (Or.inl hx)
      · exact Or.inl hx
      · exact Or.inr (Or.inr (Or.inr hx))
    · split at hx <;> rw [inorder_node, List.mem_append, List.mem_cons] at hx
      · rcases hx with hx | hx | hx
        · exact (ihl hx).imp_right Or.inl
        · exact Or.inr (Or.inr (Or.inl hx))
        · exact Or.inr (Or.inr (Or.inr hx))
      · rcases hx with hx | hx | hx
        · exact Or.inr (Or.inl hx)
        · exact Or.inr (Or.inr (Or.inl hx))
        · exact (ihr hx).imp_right fun h => Or.inr (Or.inr h)

/-- The entries after storing one. -/
theorem mem_put (h : Ordered key t) :
    x ∈ inorder (put key a t) ↔ x = a ∨ (x ∈ inorder t ∧ key x ≠ key a) := by
  have hb : ∀ y ∈ before key (key a) t, key y ≠ key a := fun y hy => (h.before_lt y hy).ne
  have ha : ∀ y ∈ after key (key a) t, key y ≠ key a := fun y hy => (h.lt_after y hy).ne'
  rw [put, inorder_replace, inorder_eq key (key a) t]
  simp only [List.mem_append]
  cases hs : sub key (key a) t with
  | nil =>
    simp only [withRoot, inorder_node, inorder_nil, List.nil_append, List.mem_singleton,
      List.not_mem_nil, false_or]
    constructor
    · rintro (hx | rfl | hx)
      · exact Or.inr ⟨Or.inl hx, hb x hx⟩
      · exact Or.inl rfl
      · exact Or.inr ⟨Or.inr hx, ha x hx⟩
    · rintro (rfl | ⟨hx | hx, -⟩)
      · exact Or.inr (Or.inl rfl)
      · exact Or.inl hx
      · exact Or.inr (Or.inr hx)
  -- only the root of the subtree has the key
  | node b l r =>
    have hsub := h.sub (k := key a)
    rw [hs] at hsub
    obtain ⟨-, -, hla, har⟩ := (ordered_node key).mp hsub
    rw [key_of_sub hs] at hla har
    simp only [withRoot, inorder_node, List.mem_append, List.mem_cons]
    constructor
    · rintro (hx | (hx | rfl | hx) | hx)
      · exact Or.inr ⟨Or.inl hx, hb x hx⟩
      · exact Or.inr ⟨Or.inr (Or.inl (Or.inl hx)), (hla x hx).ne⟩
      · exact Or.inl rfl
      · exact Or.inr ⟨Or.inr (Or.inl (Or.inr (Or.inr hx))), (har x hx).ne'⟩
      · exact Or.inr ⟨Or.inr (Or.inr hx), ha x hx⟩
    · rintro (rfl | ⟨hx | (hx | rfl | hx) | hx, hne⟩)
      · exact Or.inr (Or.inl (Or.inr (Or.inl rfl)))
      · exact Or.inl hx
      · exact Or.inr (Or.inl (Or.inl hx))
      · exact absurd (key_of_sub hs) hne
      · exact Or.inr (Or.inl (Or.inr (Or.inr hx)))
      · exact Or.inr (Or.inr hx)

/-- **Storing.**  The entry is found under its key, and nothing else changes. -/
theorem search_put (h : Ordered key t) (k : κ) :
    search key k (put key a t) = if k = key a then some a else search key k t := by
  split
  · rename_i hk
    rw [search_eq_some_iff h.put, mem_put h]
    exact ⟨Or.inl rfl, hk.symm⟩
  · rename_i hk
    refine search_congr h.put h ?_
    intro x hx
    rw [mem_put h]
    constructor
    · rintro (rfl | ⟨hm, -⟩)
      · exact absurd hx.symm hk
      · exact hm
    · exact fun hm => Or.inr ⟨hm, by rw [hx]; exact hk⟩

/-- **Taking out.**  A subtree with the same entries but its root in place of the old one. -/
theorem search_cut (h : Ordered key t) (hsub : sub key k t = node a l r)
    (hs : inorder s = inorder l ++ inorder r) :
    Ordered key (replace key k s t) ∧
      (∀ x, x ∈ inorder (replace key k s t) ↔ x ∈ inorder t ∧ key x ≠ k) := by
  have hk := key_of_sub hsub
  have hord := h.sub (k := k)
  rw [hsub] at hord
  obtain ⟨hl, hr, hla, har⟩ := (ordered_node key).mp hord
  rw [hk] at hla har
  refine ⟨h.replace ?_ ?_, ?_⟩
  · unfold Ordered
    rw [hs, List.pairwise_append]
    exact ⟨hl, hr, fun x hx y hy => (hla x hx).trans (har y hy)⟩
  · intro x hx
    rw [hs, List.mem_append] at hx
    rw [hsub, inorder_node, List.mem_append, List.mem_cons]
    rcases hx with hx | hx
    · exact Or.inr (Or.inl hx)
    · exact Or.inr (Or.inr (Or.inr hx))
  · intro x
    rw [inorder_replace, inorder_eq key k t, hsub, hs]
    simp only [inorder_node, List.mem_append, List.mem_cons]
    constructor
    · -- what is left has smaller keys before and larger keys after the gap
      rintro (hx | (hx | hx) | hx)
      · exact ⟨Or.inl hx, (h.before_lt x hx).ne⟩
      · exact ⟨Or.inr (Or.inl (Or.inl hx)), (hla x hx).ne⟩
      · exact ⟨Or.inr (Or.inl (Or.inr (Or.inr hx))), (har x hx).ne'⟩
      · exact ⟨Or.inr (Or.inr hx), (h.lt_after x hx).ne'⟩
    · rintro ⟨hx | (hx | rfl | hx) | hx, hne⟩
      · exact Or.inl hx
      · exact Or.inr (Or.inl (Or.inl hx))
      · exact absurd hk hne
      · exact Or.inr (Or.inl (Or.inr hx))
      · exact Or.inr (Or.inr hx)

end

end Lib.SearchTree
