import Niuchacz.Bst.Delete

namespace Niuchacz.Bst

open BinaryTree Timer Lib.SearchTree

/-!
# Single deletions

`bst_delete` on any search tree, keys of all 64-bit values and nodes with two children included.
The key is passed on as an `int`, and so is the key of the successor that takes the place of a
node with two children.

* `deleteNode_inorder` — the nodes that a deletion leaves, from left to right.
* `deleteNode_correct` — for small keys exactly the key is gone, and one node is released.
* `delete_removes_key` — when exactly the key is gone.
* `delete_keeps_others` — when, for small keys, the other entries are what they were.
-/

variable {t l r : BinaryTree Node} {key : UInt64} {k : Int32} {n s : Node}
  {q p : BinaryTree Node × ℕ}

/-! ### Keys -/

/-- The keys from left to right. -/
def keys (t : BinaryTree Node) : List UInt64 := (inorder t).map Node.key

/-- A tree is ordered if its keys increase. -/
theorem ordered_iff_keys : Ordered Node.key t ↔ (keys t).Pairwise (· < ·) :=
  List.pairwise_map.symm

/-- A key of the tree is that of an entry. -/
theorem mem_keys_iff : key ∈ keys t ↔ ∃ x ∈ inorder t, x.key = key := List.mem_map

/-- In an ordered tree it is one at which the search ends at a node. -/
theorem mem_keys_iff_sub (hord : Ordered Node.key t) :
    key ∈ keys t ↔ ∃ n l r, sub Node.key key t = node n l r := by
  have hnone := search_eq_none_iff hord (k := key)
  rw [mem_keys_iff]
  cases hsub : sub Node.key key t with
  | nil =>
    rw [search, hsub] at hnone
    simpa using hnone.mp rfl
  | node n l r =>
    have hn : search Node.key key t = some n := by rw [search, hsub]
    exact ⟨fun _ => ⟨n, l, r, rfl⟩, fun _ => ⟨n, mem_of_search hn⟩⟩

/-- The key survives the conversion to `int` and back: it is small, or so large that it is the
    sign extension of an `int`. -/
def FitsInt (key : UInt64) : Prop := key.toNat < 2 ^ 31 ∨ 2 ^ 64 - 2 ^ 31 ≤ key.toNat

instance : DecidablePred FitsInt := fun _ => inferInstanceAs (Decidable (_ ∨ _))

/-- A key survives the conversion to `int` and back exactly if it fits. -/
theorem ofInt_toInt_eq_iff : ofInt (toInt key) = key ↔ FitsInt key := by
  have hk : key.toBitVec.toNat = key.toNat := rfl
  have hlt := key.toNat_lt
  rw [← UInt64.toBitVec_inj, toBitVec_ofInt_toInt, ← BitVec.toNat_inj, BitVec.toNat_signExtend,
    BitVec.msb_eq_decide, FitsInt]
  simp only [BitVec.toNat_setWidth, hk, Nat.add_one_sub_one, decide_eq_true_eq]
  split <;> omega

/-! ### The smallest node -/

/-- `i_bst_min_value` is the leftmost entry. -/
theorem minValue_eq_head? (t : BinaryTree Node) : minValue t = (inorder t).head? := by
  induction t with
  | nil => rw [minValue]; rfl
  | node n l r ihl _ =>
    cases l with
    | nil => rw [minValue]; rfl
    | node b l' r' =>
      rw [minValue, ihl, inorder_node (l := node b l' r'), List.head?_append_of_ne_nil _ (by simp)]

/-- Deleting the smallest node takes the first entry away. -/
theorem inorder_delete_min (hord : Ordered Node.key r) (hmin : minValue r = some s)
    (hfits : FitsInt s.key) (h : deleteNode r (toInt s.key) = some p) :
    inorder r = s :: inorder p.1 := by
  rw [minValue_eq_head?] at hmin
  have hmem : s ∈ inorder r := List.mem_of_head? hmin
  cases hsub : sub Node.key s.key r with
  | nil =>
    obtain ⟨n, l, r', hnode⟩ := (mem_keys_iff_sub hord).mp (mem_keys_iff.mpr ⟨s, hmem, rfl⟩)
    rw [hsub] at hnode
    cases hnode
  | node n l' r' =>
    have hord' := hord.sub (k := s.key)
    rw [hsub] at hord'
    have hkey : n.key = s.key := key_of_sub hsub
    have hns : n = s := by
      refine hord.eq_of_key_eq ?_ hmem hkey
      rw [inorder_eq Node.key s.key r, hsub]
      simp
    -- nothing stands to the left of the smallest node
    have hsplit := inorder_eq Node.key s.key r
    rw [hsub, inorder_node, hns] at hsplit
    have hbefore : before Node.key s.key r = [] := by
      cases hb : before Node.key s.key r with
      | nil => rfl
      | cons x xs =>
        rw [hsplit, hb] at hmin
        cases hmin
        exact absurd (hord.before_lt s (by rw [hb]; simp)) (lt_irrefl _)
    have hleft : inorder l' = [] := by
      cases hl : inorder l' with
      | nil => rfl
      | cons x xs =>
        rw [hsplit, hbefore, hl] at hmin
        cases hmin
        have hlt := ((ordered_node _).mp hord').2.2.1 s (by rw [hl]; simp)
        exact absurd (hns ▸ hlt) (lt_irrefl _)
    have hnil : l' = nil := by
      cases l' with
      | nil => rfl
      | node => simp at hleft
    have hk := ofInt_toInt_eq_iff.mpr hfits
    rw [deleteNode_eq_replace (by rw [hk, hsub]) (Or.inl hnil), hk, if_pos hnil] at h
    cases h
    rw [inorder_replace, hsplit, hbefore, hleft]
    rfl

/-! ### What a deletion leaves -/

theorem sub_eq_nil_of_not_mem (hord : Ordered Node.key t) (h : key ∉ keys t) :
    sub Node.key key t = nil := by
  cases hsub : sub Node.key key t with
  | nil => rfl
  | node n l r => exact absurd ((mem_keys_iff_sub hord).mpr ⟨n, l, r, hsub⟩) h

/-- The node whose key replaces `key`, if the node with `key` has two children. -/
def successor (key : UInt64) (t : BinaryTree Node) : Option Node :=
  match sub Node.key key t with
  | nil => none
  | node _ l r => if l = nil then none else minValue r

/-- The successor is in the tree. -/
theorem mem_keys_of_successor (h : successor key t = some s) : s.key ∈ keys t := by
  refine mem_keys_iff.mpr ⟨s, ?_, rfl⟩
  rw [inorder_eq Node.key key t]
  unfold successor at h
  split at h
  · cases h
  · rename_i n l r hsub
    split at h
    · cases h
    · rw [minValue_eq_head?] at h
      simp [hsub, List.mem_of_head? h]

/-- **Deletion.**  The node is taken out, or gets the key of its successor, which is then deleted to
    its right. -/
theorem deleteNode_inorder (hsub : sub Node.key (ofInt k) t = node n l r)
    (h : deleteNode t k = some q) :
    match successor (ofInt k) t with
    | none => inorder q.1 = before Node.key (ofInt k) t ++ inorder l ++
        (inorder r ++ after Node.key (ofInt k) t)
    | some s => ∃ p, minValue r = some s ∧ deleteNode r (toInt s.key) = some p ∧
        inorder q.1 = before Node.key (ofInt k) t ++ inorder l ++
          ({ n with key := s.key } :: inorder p.1 ++ after Node.key (ofInt k) t) := by
  rw [deleteNode_focus, hsub, deleteNode, ← key_of_sub hsub, if_neg (lt_irrefl _),
    if_neg (lt_irrefl _)] at h
  simp only [successor, ← key_of_sub hsub, key_of_sub hsub ▸ hsub]
  by_cases hl : l = nil
  · -- without a left child the right one takes the place of the node
    rw [if_pos hl] at h ⊢
    cases h
    simp [inorder_replace, hl]
  · rw [if_neg hl] at h ⊢
    by_cases hr : r = nil
    · rw [if_pos hr] at h
      cases h
      simp [inorder_replace, hr, minValue]
    · -- with both children the successor is deleted from the right one
      obtain ⟨s, hs⟩ := minValue_isSome hr
      obtain ⟨p, hp, -⟩ := deleteNode_data r (toInt s.key)
      simp only [if_neg hr, hs, hp] at h
      cases h
      rw [hs]
      refine ⟨p, rfl, hp, ?_⟩
      simp [inorder_replace]

/-- Entries with smaller keys stay. -/
theorem mem_deleteNode_of_lt (hord : Ordered Node.key t) (h : deleteNode t k = some q) {x : Node}
    (hx : x ∈ inorder t) (hlt : x.key < ofInt k) : x ∈ inorder q.1 := by
  cases hsub : sub Node.key (ofInt k) t with
  | nil =>
    rw [deleteNode_of_absent hsub] at h
    cases h
    exact hx
  | node n l r =>
    have hord' := hord.sub (k := ofInt k)
    rw [hsub] at hord'
    have hkey := key_of_sub hsub
    -- it stands before the node or to its left, and all of that is left as it is
    have hleft : x ∈ before Node.key (ofInt k) t ++ inorder l := by
      rw [inorder_eq Node.key (ofInt k) t, hsub] at hx
      simp only [inorder_node, List.mem_append, List.mem_cons] at hx ⊢
      rcases hx with hx | (hx | rfl | hx) | hx
      · exact Or.inl hx
      · exact Or.inr hx
      · exact absurd hkey hlt.ne
      · have hgt := ((ordered_node _).mp hord').2.2.2 x hx
        rw [hkey] at hgt
        exact absurd hlt hgt.not_gt
      · exact absurd hlt (hord.lt_after x hx).not_gt
    have hres := deleteNode_inorder hsub h
    split at hres
    · rw [hres]
      exact List.mem_append_left _ hleft
    · obtain ⟨p, -, -, hres⟩ := hres
      rw [hres]
      exact List.mem_append_left _ hleft

/-- A smallest node whose key does not fit into an `int` stays, whatever else is deleted. -/
theorem min_mem_deleteNode (hord : Ordered Node.key r) (hmin : minValue r = some s)
    (hne : ofInt (toInt s.key) ≠ s.key) (h : deleteNode r (toInt s.key) = some p) :
    s ∈ inorder p.1 := by
  rw [minValue_eq_head?] at hmin
  obtain ⟨rest, hrest⟩ := List.head?_eq_some_iff.mp hmin
  cases hsub : sub Node.key (ofInt (toInt s.key)) r with
  | nil =>
    rw [deleteNode_of_absent hsub] at h
    cases h
    exact List.mem_of_head? hmin
  | node m l' r' =>
    -- the node that is found is another one, and therefore has a larger key
    refine mem_deleteNode_of_lt hord h (List.mem_of_head? hmin) ?_
    have hm := mem_of_search (show search Node.key _ r = some m by rw [search, hsub])
    unfold Ordered at hord
    rw [hrest] at hord hm
    rcases List.mem_cons.mp hm.1 with rfl | hm'
    · exact absurd hm.2.symm hne
    · rw [← hm.2]
      exact (List.pairwise_cons.mp hord).1 m hm'

/-- If the tree stays ordered, the key that has been searched for is gone. -/
theorem not_mem_keys_deleteNode (hord : Ordered Node.key t) (h : deleteNode t k = some q)
    (hord' : Ordered Node.key q.1) : ofInt k ∉ keys q.1 := by
  rw [mem_keys_iff]
  rintro ⟨x, hx, hxk⟩
  cases hsub : sub Node.key (ofInt k) t with
  | nil =>
    rw [deleteNode_of_absent hsub] at h
    cases h
    obtain ⟨n, l, r, hnode⟩ := (mem_keys_iff_sub hord).mp (mem_keys_iff.mpr ⟨x, hx, hxk⟩)
    rw [hsub] at hnode
    cases hnode
  | node n l r =>
    have hsub' := hord.sub (k := ofInt k)
    rw [hsub, ordered_node, key_of_sub hsub] at hsub'
    obtain ⟨-, -, hl, hr⟩ := hsub'
    have hres := deleteNode_inorder hsub h
    split at hres
    · rw [hres] at hx
      simp only [List.mem_append] at hx
      rcases hx with (hx | hx) | hx | hx
      · exact (hord.before_lt x hx).ne hxk
      · exact (hl x hx).ne hxk
      · exact (hr x hx).ne' hxk
      · exact (hord.lt_after x hx).ne' hxk
    · rename_i s _
      obtain ⟨p, hmin, -, hres⟩ := hres
      rw [minValue_eq_head?] at hmin
      have hs : ofInt k < s.key := hr s (List.mem_of_head? hmin)
      unfold Ordered at hord'
      rw [hres, List.pairwise_append] at hord'
      rw [hres] at hx
      simp only [List.mem_append, List.cons_append, List.mem_cons] at hx
      rcases hx with (hx | hx) | rfl | hx | hx
      · exact (hord.before_lt x hx).ne hxk
      · exact (hl x hx).ne hxk
      · exact hs.ne' hxk
      · -- what is left of the right subtree has larger keys than the successor
        have hgt := (List.pairwise_cons.mp hord'.2.1).1 x (List.mem_append_left _ hx)
        exact (hs.trans hgt).ne' hxk
      · exact (hord.lt_after x hx).ne' hxk

/-- If the key of the successor fits, the successor is the next entry, and is gone. -/
theorem deleteNode_next (hord : Ordered Node.key t)
    (hsub : sub Node.key (ofInt k) t = node n l r) (h : deleteNode t k = some q)
    (hfits : ∀ s, successor (ofInt k) t = some s → FitsInt s.key) :
    ∃ A B, inorder t = A ++ n :: B ∧
      match successor (ofInt k) t with
      | none => inorder q.1 = A ++ B
      | some s => ∃ C, B = s :: C ∧ inorder q.1 = A ++ { n with key := s.key } :: C := by
  refine ⟨before Node.key (ofInt k) t ++ inorder l, inorder r ++ after Node.key (ofInt k) t, ?_, ?_⟩
  · rw [inorder_eq Node.key (ofInt k) t, hsub]
    simp
  · have hres := deleteNode_inorder hsub h
    split at hres
    · exact hres
    · rename_i s hs
      obtain ⟨p, hmin, hp, hres⟩ := hres
      have hord' := hord.sub (k := ofInt k)
      rw [hsub, ordered_node] at hord'
      refine ⟨inorder p.1 ++ after Node.key (ofInt k) t, ?_, hres⟩
      rw [inorder_delete_min hord'.2.1 hmin (hfits s hs) hp, List.cons_append]

/-- Then exactly one key is gone. -/
theorem deleteNode_keys (hord : Ordered Node.key t) (h : deleteNode t k = some q)
    (hmem : ofInt k ∈ keys t) (hfits : ∀ s, successor (ofInt k) t = some s → FitsInt s.key) :
    ∃ A B, keys t = A ++ ofInt k :: B ∧ keys q.1 = A ++ B := by
  obtain ⟨n, l, r, hsub⟩ := (mem_keys_iff_sub hord).mp hmem
  obtain ⟨A, B, ht, hq⟩ := deleteNode_next hord hsub h hfits
  refine ⟨A.map Node.key, B.map Node.key, ?_, ?_⟩
  · rw [keys, ht, List.map_append, List.map_cons, key_of_sub hsub]
  · split at hq
    · rw [keys, hq, List.map_append]
    · obtain ⟨C, rfl, hq⟩ := hq
      rw [keys, hq, List.map_append, List.map_cons, List.map_cons]

/-- If the key is in the tree and the successor's fits an `int`, exactly the key is removed. -/
theorem deleteNode_exact (hord : Ordered Node.key t) (h : deleteNode t k = some q)
    (hmem : ofInt k ∈ keys t) (hfits : ∀ s, successor (ofInt k) t = some s → FitsInt s.key) :
    Ordered Node.key q.1 ∧ ∀ j, j ∈ keys q.1 ↔ j ∈ keys t ∧ j ≠ ofInt k := by
  obtain ⟨A, B, hkeys, hkeys'⟩ := deleteNode_keys hord h hmem hfits
  have hpair := ordered_iff_keys.mp hord
  rw [hkeys, List.pairwise_append, List.pairwise_cons] at hpair
  obtain ⟨hA, ⟨hkB, hB⟩, hAB⟩ := hpair
  refine ⟨ordered_iff_keys.mpr ?_, ?_⟩
  · rw [hkeys', List.pairwise_append]
    exact ⟨hA, hB, fun x hx y hy => hAB x hx y (List.mem_cons_of_mem _ hy)⟩
  · intro j
    rw [hkeys, hkeys', List.mem_append, List.mem_append, List.mem_cons]
    constructor
    · -- keys before the node are smaller, keys after it larger
      rintro (hj | hj)
      · exact ⟨Or.inl hj, (hAB j hj _ List.mem_cons_self).ne⟩
      · exact ⟨Or.inr (Or.inr hj), (hkB j hj).ne'⟩
    · rintro ⟨hj | hj | hj, hne⟩
      · exact Or.inl hj
      · exact absurd hj hne
      · exact Or.inr hj

/-! ### Released nodes -/

/-- Every node that is released is missing, also in place of the one with the key. -/
theorem length_deleteNode (h : deleteNode t k = some q) :
    (inorder t).length = (inorder q.1).length + q.2 := by
  induction t generalizing k q with
  | nil =>
    cases h
    rfl
  | node n l r ihl ihr =>
    have hlen : ∀ (m : Node) (l' r' : BinaryTree Node),
        (inorder (node m l' r')).length = (inorder l').length + (inorder r').length + 1 := by
      intro m l' r'
      rw [inorder_node, List.length_append, List.length_cons, Nat.add_assoc]
    rw [hlen]
    simp only [deleteNode] at h
    split at h
    · obtain ⟨p, hp, rfl⟩ := Option.map_eq_some_iff.mp h
      rw [hlen, ihl hp]
      omega
    · split at h
      · obtain ⟨p, hp, rfl⟩ := Option.map_eq_some_iff.mp h
        rw [hlen, ihr hp]
        omega
      · split at h
        · rename_i hl
          cases h
          simp [hl]
        · split at h
          · rename_i hr
            cases h
            simp [hr]
          · -- the node stays with another key, and the successor goes
            split at h
            · cases h
            · obtain ⟨p, hp, rfl⟩ := Option.map_eq_some_iff.mp h
              rw [hlen, ihr hp]
              omega

theorem toNat_ofInt (h : 0 ≤ k) : (ofInt k).toNat = k.toNatClampNeg := by
  have hk : (0 : Int64) ≤ k.toInt64 := by
    rw [Int64.le_iff_toInt_le, Int32.toInt_toInt64]
    exact Int32.le_iff_toInt_le.mp h
  rw [ofInt, Int64.toNat_toUInt64_of_le hk, ← Int64.toNat_toInt, Int32.toInt_toInt64,
    Int32.toNat_toInt]

/-- **`i_bst_delete_node` on small keys.**  For a tree with keys below `2 ^ 31` and a key that is
    not negative it returns an ordered tree with the same keys but for this one, and releases one
    node, or none if the key is not there; then it returns the tree itself. -/
theorem deleteNode_correct (key : Int32) (hord : Ordered Node.key t)
    (hsmall : ∀ j ∈ keys t, j.toNat < 2 ^ 31) (hkey : 0 ≤ key) :
    ∃ t' released, deleteNode t key = some (t', released) ∧ Ordered Node.key t' ∧
      (keys t').map UInt64.toNat = ((keys t).map UInt64.toNat).erase key.toNatClampNeg ∧
      released = (if key.toNatClampNeg ∈ (keys t).map UInt64.toNat then 1 else 0) ∧
      (key.toNatClampNeg ∉ (keys t).map UInt64.toNat → t' = t) := by
  have hinj : Function.Injective UInt64.toNat := fun _ _ => UInt64.toNat_inj.mp
  simp only [← toNat_ofInt hkey, List.mem_map_of_injective hinj]
  by_cases hmem : ofInt key ∈ keys t
  · obtain ⟨q, hq, -⟩ := deleteNode_data t key
    have hfits : ∀ s, successor (ofInt key) t = some s → FitsInt s.key := fun s hs =>
      Or.inl (hsmall _ (mem_keys_of_successor hs))
    obtain ⟨hord', -⟩ := deleteNode_exact hord hq hmem hfits
    obtain ⟨A, B, hkeys, hkeys'⟩ := deleteNode_keys hord hq hmem hfits
    refine ⟨q.1, q.2, hq, hord', ?_, ?_, fun hno => absurd hmem hno⟩
    · -- no key is there twice, so that the first occurrence is the only one
      have hA : ofInt key ∉ A := by
        intro hA
        have hpair := ordered_iff_keys.mp hord
        rw [hkeys, List.pairwise_append] at hpair
        exact lt_irrefl _ (hpair.2.2 _ hA _ List.mem_cons_self)
      rw [← List.map_erase hinj, hkeys, hkeys', List.erase_append_right _ hA,
        List.erase_cons_head]
    · rw [if_pos hmem]
      have hlen := length_deleteNode hq
      have hcount : ∀ t, (inorder t).length = (keys t).length := fun t => (List.length_map _).symm
      rw [hcount, hcount, hkeys, hkeys', List.length_append, List.length_append,
        List.length_cons] at hlen
      omega
  · have habsent := sub_eq_nil_of_not_mem hord hmem
    refine ⟨t, 0, deleteNode_of_absent habsent, hord, ?_, ?_, fun _ => rfl⟩
    · rw [← List.map_erase hinj, List.erase_of_not_mem hmem]
    · rw [if_neg hmem]

/-- A node with two children, the key of whose successor takes its place. -/
theorem deleteNode_correct_two : ∃ t' released,
    deleteNode (node ⟨2, ⟨0, 0⟩, []⟩ (node ⟨1, ⟨0, 0⟩, []⟩ nil nil)
      (node ⟨4, ⟨0, 0⟩, []⟩ (node ⟨3, ⟨0, 0⟩, []⟩ nil nil) nil)) 2 = some (t', released) ∧
      Ordered Node.key t' ∧ (keys t').map UInt64.toNat = [1, 3, 4] ∧ released = 1 := by
  have hord : Ordered Node.key (node ⟨2, ⟨0, 0⟩, []⟩ (node ⟨1, ⟨0, 0⟩, []⟩ nil nil)
      (node ⟨4, ⟨0, 0⟩, []⟩ (node ⟨3, ⟨0, 0⟩, []⟩ nil nil) nil)) := by
    unfold Ordered
    decide
  obtain ⟨t', released, h, hord', hkeys, hreleased, -⟩ :=
    deleteNode_correct 2 hord (by simp [keys, inorder]) (by decide)
  exact ⟨t', released, h, hord', hkeys, hreleased⟩

/-! ### Exactly the key -/

/-- **Deletion removes exactly its key**, if the node it finds has the key (and not only the key as
    an `int`), and the key of its successor fits into an `int`; or if it finds no node because
    there is none. -/
theorem delete_removes_key (key : UInt64) (hord : Ordered Node.key t) :
    (∃ t', bstDelete t key = some t' ∧ Ordered Node.key t' ∧
      ∀ j, j ∈ keys t' ↔ j ∈ keys t ∧ j ≠ key) ↔
    if ofInt (toInt key) ∈ keys t then
      FitsInt key ∧ ∀ s, successor key t = some s → FitsInt s.key
    else key ∉ keys t := by
  obtain ⟨q, hq, -⟩ := deleteNode_data t (toInt key)
  have hdel : bstDelete t key = some q.1 := by rw [bstDelete, hq]; rfl
  simp only [hdel, Option.some.injEq, exists_eq_left']
  by_cases hmem : ofInt (toInt key) ∈ keys t
  · rw [if_pos hmem]
    constructor
    · rintro ⟨hord', hkeys⟩
      -- the key that is deleted is the key
      have hkey : ofInt (toInt key) = key := by
        by_contra hne
        exact not_mem_keys_deleteNode hord hq hord' ((hkeys _).mpr ⟨hmem, hne⟩)
      refine ⟨ofInt_toInt_eq_iff.mp hkey, ?_⟩
      intro s hs
      rw [← ofInt_toInt_eq_iff]
      by_contra hne
      obtain ⟨n, l, r, hsub⟩ := (mem_keys_iff_sub hord).mp hmem
      have hres := deleteNode_inorder hsub hq
      rw [hkey] at hres hsub
      rw [hs] at hres
      obtain ⟨p, hmin, hp, hres⟩ := hres
      have hr := ((ordered_node _).mp (hsub ▸ hord.sub (k := key))).2.1
      have hstays := min_mem_deleteNode hr hmin hne hp
      unfold Ordered at hord'
      rw [hres, List.pairwise_append, List.cons_append, List.pairwise_cons] at hord'
      exact lt_irrefl _ (hord'.2.1.1 s (List.mem_append_left _ hstays))
    · rintro ⟨hfit, hfits⟩
      have hkey := ofInt_toInt_eq_iff.mpr hfit
      have hexact := deleteNode_exact hord hq hmem (by rw [hkey]; exact hfits)
      rwa [hkey] at hexact
  · rw [if_neg hmem]
    -- nothing is found, and nothing is deleted
    rw [deleteNode_of_absent (sub_eq_nil_of_not_mem hord hmem)] at hq
    cases hq
    constructor
    · rintro ⟨-, hkeys⟩ hk
      exact ((hkeys key).mp hk).2 rfl
    · intro hk
      refine ⟨hord, fun j => ⟨fun hj => ⟨hj, ?_⟩, And.left⟩⟩
      rintro rfl
      exact hk hj

/-- A node with two children. -/
theorem delete_removes_key_two : ∃ t',
    bstDelete (node ⟨2, ⟨0, 0⟩, []⟩ (node ⟨1, ⟨0, 0⟩, []⟩ nil nil)
      (node ⟨3, ⟨0, 0⟩, []⟩ nil nil)) 2 = some t' ∧
      Ordered Node.key t' ∧ ∀ j, j ∈ keys t' ↔ j ∈ [1, 2, 3] ∧ j ≠ 2 := by
  have hord : Ordered Node.key
      (node ⟨2, ⟨0, 0⟩, []⟩ (node ⟨1, ⟨0, 0⟩, []⟩ nil nil) (node ⟨3, ⟨0, 0⟩, []⟩ nil nil)) := by
    unfold Ordered
    decide
  refine (delete_removes_key 2 hord).mpr ?_
  rw [if_pos (by decide)]
  refine ⟨by decide, ?_⟩
  intro s hs
  simp only [successor, sub, minValue_eq_head?] at hs
  cases hs
  decide

/-- An entry with the key of an address in the upper half is not found. -/
theorem delete_misses_large_key :
    Ordered Node.key (node ⟨0x80000000, ⟨0, 0⟩, []⟩ nil nil) ∧
      bstDelete (node ⟨0x80000000, ⟨0, 0⟩, []⟩ nil nil) 0x80000000 =
        some (node ⟨0x80000000, ⟨0, 0⟩, []⟩ nil nil) :=
  ⟨List.pairwise_singleton _ _, by decide +kernel⟩

/-! ### The other entries -/

/-- **Deletion leaves every other entry alone**, for keys below `2 ^ 31`, exactly if the node has at
    most one child, or the same payload and deadline as its successor: of these only the key
    is moved to its place. -/
theorem delete_keeps_others (key : UInt64) (hord : Ordered Node.key t)
    (hsmall : ∀ j ∈ keys t, j.toNat < 2 ^ 31) (hkey : key.toNat < 2 ^ 31) :
    (∃ t', bstDelete t key = some t' ∧ ∀ j ∈ keys t, j ≠ key → find j t' = find j t) ↔
      ∀ n s, search Node.key key t = some n → successor key t = some s →
        s.data = n.data ∧ s.dataTimeout = n.dataTimeout := by
  obtain ⟨q, hq, -⟩ := deleteNode_data t (toInt key)
  have hdel : bstDelete t key = some q.1 := by rw [bstDelete, hq]; rfl
  have hk := ofInt_toInt_of_lt hkey
  simp only [hdel, Option.some.injEq, exists_eq_left', find_eq_search]
  cases hsub : sub Node.key key t with
  | nil =>
    rw [deleteNode_of_absent (by rw [hk, hsub])] at hq
    cases hq
    simp [search, hsub]
  | node n l r =>
    have hn : search Node.key key t = some n := by rw [search, hsub]
    have hfits : ∀ s, successor key t = some s → FitsInt s.key := fun s hs =>
      Or.inl (hsmall _ (mem_keys_of_successor hs))
    have hmem : ofInt (toInt key) ∈ keys t := by
      rw [hk]
      exact (mem_keys_iff_sub hord).mpr ⟨n, l, r, hsub⟩
    obtain ⟨hord', -⟩ := deleteNode_exact hord hq hmem (by rw [hk]; exact hfits)
    obtain ⟨A, B, ht, hres⟩ := deleteNode_next hord (by rw [hk, hsub]) hq (by rw [hk]; exact hfits)
    -- the nodes under another key are the same as long as `n` is the only one that is gone
    have hothers : inorder q.1 = A ++ B → ∀ j ∈ keys t, j ≠ key →
        search Node.key j q.1 = search Node.key j t := by
      intro h j _ hj
      refine search_congr hord' hord fun x hx => ?_
      have hne : x ≠ n := by
        rintro rfl
        exact hj (hx.symm.trans (key_of_sub hsub))
      rw [h, ht]
      simp [hne]
    rw [hk] at hres
    cases hs : successor key t with
    | none =>
      rw [hs] at hres
      exact ⟨fun _ => by rintro _ _ _ ⟨⟩, fun _ => hothers hres⟩
    | some s =>
      rw [hs] at hres
      obtain ⟨C, rfl, hres⟩ := hres
      constructor
      · intro h n' s' hn' hs'
        rw [hn] at hn'
        cases hn'
        cases hs'
        have hst : s ∈ inorder t := by rw [ht]; simp
        have hlt : n.key < s.key := by
          unfold Ordered at hord
          rw [ht, List.pairwise_append, List.pairwise_cons] at hord
          exact hord.2.1.1 s List.mem_cons_self
        have hfound := h s.key (mem_keys_iff.mpr ⟨s, hst, rfl⟩)
          (by rw [← key_of_sub hsub]; exact hlt.ne')
        rw [(search_eq_some_iff hord).mpr ⟨hst, rfl⟩, (search_eq_some_iff hord').mpr
          ⟨show { n with key := s.key } ∈ inorder q.1 by rw [hres]; simp, rfl⟩] at hfound
        injection hfound with hfound
        rw [← hfound]
        exact ⟨rfl, rfl⟩
      · intro h
        obtain ⟨hdata, htimeout⟩ := h n s hn rfl
        have hsame : { n with key := s.key } = s := by
          rw [← hdata, ← htimeout]
        rw [hsame] at hres
        exact hothers hres

/-- A node with one child. -/
theorem delete_keeps_others_leaf : ∃ t',
    bstDelete (node ⟨2, ⟨0, 0⟩, [7]⟩ (node ⟨1, ⟨5, 0⟩, [8]⟩ nil nil) nil) 2 = some t' ∧
      ∀ j ∈ [1, 2], j ≠ 2 →
        find j t' = find j (node ⟨2, ⟨0, 0⟩, [7]⟩ (node ⟨1, ⟨5, 0⟩, [8]⟩ nil nil) nil) := by
  have hord : Ordered Node.key (node ⟨2, ⟨0, 0⟩, [7]⟩ (node ⟨1, ⟨5, 0⟩, [8]⟩ nil nil) nil) := by
    unfold Ordered
    decide
  refine (delete_keeps_others 2 hord (by simp [keys, inorder]) (by decide)).mpr ?_
  intro n s _ hs
  simp only [successor, sub, minValue_eq_head?] at hs
  cases hs

/-- A node with two children: its payload and its deadline are found under the key 3. -/
theorem delete_mixes_entries : ∃ t',
    bstDelete (node ⟨2, ⟨4, 0⟩, [7]⟩ (node ⟨1, ⟨5, 0⟩, [8]⟩ nil nil)
      (node ⟨3, ⟨6, 0⟩, [9]⟩ nil nil)) 2 = some t' ∧ find 3 t' = some ⟨3, ⟨4, 0⟩, [7]⟩ :=
  ⟨node ⟨3, ⟨4, 0⟩, [7]⟩ (node ⟨1, ⟨5, 0⟩, [8]⟩ nil nil) nil,
    by simp only [bstDelete, deleteNode, minValue_eq_head?]; decide +kernel, rfl⟩

end Niuchacz.Bst
