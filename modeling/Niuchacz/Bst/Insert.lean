import Niuchacz.Bst.Refine

namespace Niuchacz.Bst

open BinaryTree Timer Lib.SearchTree

/-!
# Single insertions

`bst_insert` on any search tree: payloads of any sizes, with or without a deadline.  It has four
exits (overwrite in place, replace by a larger node, first root, attach to a parent), and a `goto`
that skips some of the assignments.

* `insertLoop_focus` — only the place of the key matters, and whether it is the root.
* `stored` — the node that ends up there; `bstInsert_eq_put` — as long as no link is cleared,
  `bst_insert` stores that node and does nothing else.
* `insert_keeps_order` — when the tree stays a search tree and gets the key.
-/

variable {t t' : BinaryTree Node} {key : UInt64} {mem : Block} {pbuf : List UInt8}
  {dataTimeout : Option Timespec} {n : Node} {l r : BinaryTree Node}

/-! ### Where the loop ends -/

/-- The loop of `bst_insert` ends without a parent. -/
def atRoot (key : UInt64) : BinaryTree Node → Bool
  | nil => true
  | node n _ _ => n.key = key

/-- A key that is not in the tree goes to the root of the empty tree only. -/
theorem atRoot_nil_iff (h : sub Node.key key t = nil) : atRoot key t = true ↔ t = nil := by
  cases t with
  | nil => simp [atRoot]
  | node n l r =>
    have hne : n.key ≠ key := by
      intro hk
      simp [sub, hk] at h
    simp [atRoot, hne]

/-- **Focus.**  `bst_insert` changes the subtree at the place of its key only. -/
theorem insertLoop_focus (mem : Block) (key : UInt64) (pbuf : List UInt8)
    (dataTimeout : Option Timespec) (isRoot : Bool) (t : BinaryTree Node) :
    insertLoop mem key pbuf dataTimeout isRoot t =
      (insertLoop mem key pbuf dataTimeout (isRoot && atRoot key t) (sub Node.key key t)).map
        (replace Node.key key · t) := by
  induction t generalizing isRoot with
  | nil => simp [atRoot, sub, replace]
  | node n l r ihl ihr =>
    by_cases hk : n.key = key
    · simp [atRoot, sub, replace, hk]
    · -- below the root there is a parent
      have hroot : (isRoot && atRoot key (node n l r)) = false := by simp [atRoot, hk]
      rw [hroot]
      simp only [insertLoop, sub, replace, if_neg hk]
      by_cases hlt : n.key > key
      · rw [if_pos hlt, if_pos hlt, ihl false, Bool.false_and, Option.map_map]
        simp only [if_pos hlt]
        rfl
      · rw [if_neg hlt, if_neg hlt, ihr false, Bool.false_and, Option.map_map]
        simp only [if_neg hlt]
        rfl

/-- The node that `bst_insert` leaves at the place of its key; an enlarged root has no parent that
    could be made to point to it. -/
def stored (mem : Block) (key : UInt64) (pbuf : List UInt8) (dataTimeout : Option Timespec)
    (t : BinaryTree Node) : Option Node :=
  let new := allocNode mem key pbuf.length
  let deadline := dataTimeout.getD mem.dataTimeout
  match search Node.key key t with
  | none =>
      some (if t = nil then new.write pbuf else { new.write pbuf with dataTimeout := deadline })
  | some n =>
      if pbuf.length ≤ n.dataSize then some (n.write pbuf)
      else if atRoot key t then none
      else some { new with dataTimeout := deadline }

theorem key_stored {a : Node} (h : stored mem key pbuf dataTimeout t = some a) : a.key = key := by
  unfold stored at h
  dsimp only at h
  split at h
  · cases h
    split <;> rfl
  · rename_i n hn
    split at h
    · cases h
      exact (mem_of_search hn).2
    · split at h <;> cases h
      rfl

/-- The assignments behind `__insert` are reached without a deadline, and clear the key and the left
    link of the node. -/
def clears (key : UInt64) (pbuf : List UInt8) (dataTimeout : Option Timespec)
    (t : BinaryTree Node) : Bool :=
  dataTimeout.isNone &&
    match search Node.key key t with
    | none => t ≠ nil
    | some n => n.dataSize < pbuf.length

/-- With a deadline, or for the key 0, the node keeps its key and its links. -/
theorem setTimeout_eq (hl : dataTimeout = none → n.key = 0 ∧ l = nil) :
    setTimeout dataTimeout n l r =
      node { n with dataTimeout := dataTimeout.getD n.dataTimeout } l r := by
  cases dataTimeout with
  | none =>
    obtain ⟨hk, rfl⟩ := hl rfl
    obtain ⟨k, ts, d⟩ := n
    cases hk
    rfl
  | some ts => rfl

/-- There is no key below 0. -/
theorem left_eq_nil (hord : Ordered Node.key (node n l r)) (hk : n.key = 0) : l = nil := by
  cases l with
  | nil => rfl
  | node b l' r' =>
    have hlt := ((ordered_node _).mp hord).2.2.1 b (by simp)
    rw [hk] at hlt
    exact absurd hlt UInt64.not_lt_zero

/-- **Insertion.**  As long as no key is cleared, `bst_insert` stores one node. -/
theorem bstInsert_eq_put (hord : Ordered Node.key t) (hfit : sizeofNode + pbuf.length < 2 ^ 64)
    (hclears : clears key pbuf dataTimeout t = true → key = 0) :
    bstInsert mem t key pbuf dataTimeout = (stored mem key pbuf dataTimeout t).map fun a =>
      (put Node.key a t, Int32.ofNat pbuf.length) := by
  have hbig : ¬ 2 ^ 64 ≤ sizeofNode + pbuf.length := Nat.not_le.mpr hfit
  rw [bstInsert, insertLoop_focus, Bool.true_and]
  cases hsub : sub Node.key key t with
  | nil =>
    have hnone : search Node.key key t = none := by rw [search, hsub]
    have hput : ∀ a : Node, a.key = key →
        put Node.key a t = replace Node.key key (node a nil nil) t := by
      rintro a rfl
      rw [put, hsub, withRoot]
    simp only [insertLoop, if_neg hbig, stored, hnone]
    by_cases hnil : t = nil
    · rw [if_pos ((atRoot_nil_iff hsub).mpr hnil), if_pos hnil, Option.map_some, Option.map_some,
        Option.map_some, hput _ rfl]
    · -- without a deadline the key of the new node is cleared, and it was 0
      have hlink : dataTimeout = none → ((allocNode mem key pbuf.length).write pbuf).key = 0 ∧
          (nil : BinaryTree Node) = nil := by
        rintro rfl
        exact ⟨hclears (by simp [clears, hnone, hnil]), rfl⟩
      rw [if_neg (fun h => hnil ((atRoot_nil_iff hsub).mp h)), if_neg hnil, setTimeout_eq hlink,
        Option.map_some, Option.map_some, Option.map_some, hput]
      · rfl
      · rfl
  | node n l r =>
    have hsome : search Node.key key t = some n := by rw [search, hsub]
    have hk : n.key = key := key_of_sub hsub
    have hput : ∀ a : Node, a.key = key →
        put Node.key a t = replace Node.key key (node a l r) t := by
      rintro a rfl
      rw [put, hsub, withRoot]
    simp only [insertLoop, if_pos hk, stored, hsome]
    by_cases hle : pbuf.length ≤ n.dataSize
    · rw [if_pos hle, if_pos hle, Option.map_some, Option.map_some, Option.map_some,
        hput (n.write pbuf) hk]
    · rw [if_neg hle, if_neg hle, decide_eq_false hbig, Bool.false_or]
      cases hroot : atRoot key t with
      -- for the root the missing parent would be dereferenced
      | true => rfl
      | false =>
        -- the left link is cleared as well, but a node with key 0 has no left child
        have hlink : dataTimeout = none → (allocNode mem n.key pbuf.length).key = 0 ∧ l = nil := by
          rintro rfl
          have h0 : key = 0 := hclears (by simpa [clears, hsome] using Nat.lt_of_not_le hle)
          have hord' := hord.sub (k := key)
          rw [hsub] at hord'
          exact ⟨hk.trans h0, left_eq_nil hord' (hk.trans h0)⟩
        simp only [Bool.false_eq_true, if_false]
        rw [setTimeout_eq hlink, Option.map_some, Option.map_some, Option.map_some, hput]
        · rw [hk]
          rfl
        · rfl

/-- The key is that of the root, and its payload is to become larger. -/
def enlargesRoot (key : UInt64) (pbuf : List UInt8) : BinaryTree Node → Bool
  | nil => false
  | node n _ _ => n.key = key && n.dataSize < pbuf.length

/-- Nothing is stored exactly if the root would have to be enlarged. -/
theorem stored_eq_none_iff (mem : Block) (dataTimeout : Option Timespec) :
    stored mem key pbuf dataTimeout t = none ↔ enlargesRoot key pbuf t = true := by
  cases t with
  | nil => simp [stored, search, sub, enlargesRoot]
  | node n l r =>
    by_cases hk : n.key = key
    · have hsome : search Node.key key (node n l r) = some n := by simp [search, sub, hk]
      by_cases hle : pbuf.length ≤ n.dataSize
      · simp [stored, hsome, enlargesRoot, hle, Nat.not_lt.mpr hle]
      · simp [stored, hsome, enlargesRoot, hle, Nat.lt_of_not_le hle, atRoot, hk]
    · simp only [stored, enlargesRoot, atRoot, decide_eq_false hk, Bool.false_and]
      split
      · simp
      · split <;> simp

/-! ### Order and keys -/

/-- `t'` is a search tree with the keys of `t` and the key `key`, and has all other nodes of `t`. -/
structure Gains (t t' : BinaryTree Node) (key : UInt64) : Prop where
  ordered : Ordered Node.key t'
  keys : ∀ k, (∃ n ∈ inorder t', n.key = k) ↔ k = key ∨ ∃ n ∈ inorder t, n.key = k
  others : ∀ n ∈ inorder t, n.key ≠ key → n ∈ inorder t'

/-- A stored entry adds its key to those of the tree. -/
theorem gains_put (hord : Ordered Node.key t) (a : Node) : Gains t (put Node.key a t) a.key where
  ordered := hord.put
  keys := by
    intro k
    constructor
    · rintro ⟨x, hx, rfl⟩
      rcases (mem_put hord).mp hx with rfl | ⟨hx, -⟩
      · exact Or.inl rfl
      · exact Or.inr ⟨x, hx, rfl⟩
    · intro h
      by_cases hk : k = a.key
      · exact ⟨a, (mem_put hord).mpr (Or.inl rfl), hk.symm⟩
      · obtain ⟨x, hx, rfl⟩ := h.resolve_left hk
        exact ⟨x, (mem_put hord).mpr (Or.inr ⟨hx, hk⟩), rfl⟩
  others := fun x hx hne => (mem_put hord).mpr (Or.inr ⟨hx, hne⟩)

/-- A key that is cleared is missing afterwards. -/
theorem key_missing_of_clears (hord : Ordered Node.key t) {i : Int32}
    (h : bstInsert mem t key pbuf dataTimeout = some (t', i))
    (hclears : clears key pbuf dataTimeout t = true) (hk : key ≠ 0) :
    ∀ x ∈ inorder t', x.key ≠ key := by
  simp only [clears, Bool.and_eq_true, Option.isNone_iff_eq_none] at hclears
  obtain ⟨rfl, hexit⟩ := hclears
  -- a subtree with the key 0 at its root, and otherwise only larger keys, takes the place
  have hreplaced : ∀ s : BinaryTree Node, (∀ x ∈ inorder s, x.key ≠ key) →
      ∀ x ∈ inorder (replace Node.key key s t), x.key ≠ key := by
    intro s hs x hx
    rw [inorder_replace, List.mem_append, List.mem_append] at hx
    rcases hx with hx | hx | hx
    · exact (hord.before_lt x hx).ne
    · exact hs x hx
    · exact (hord.lt_after x hx).ne'
  rw [bstInsert, insertLoop_focus, Bool.true_and] at h
  obtain ⟨u, hu, hpair⟩ := Option.map_eq_some_iff.mp h
  obtain ⟨s, hs, hrepl⟩ := Option.map_eq_some_iff.mp hu
  obtain rfl : u = t' := congrArg Prod.fst hpair
  rw [← hrepl]
  refine hreplaced s ?_
  cases hsub : sub Node.key key t with
  | nil =>
    rw [search, hsub] at hexit
    have hroot : atRoot key t = false := by
      rw [← Bool.not_eq_true, atRoot_nil_iff hsub]
      simpa using hexit
    rw [hsub, hroot] at hs
    simp only [insertLoop, Bool.false_eq_true, if_false] at hs
    split at hs <;> cases hs
    intro x hx
    rw [List.mem_singleton.mp hx]
    exact Ne.symm hk
  | node n l r =>
    rw [search, hsub] at hexit
    have hord' := hord.sub (k := key)
    rw [hsub] at hord' hs
    have hkey : n.key = key := key_of_sub hsub
    have hle : ¬ pbuf.length ≤ n.dataSize := Nat.not_le.mpr (by simpa using hexit)
    simp only [insertLoop, if_pos hkey, if_neg hle] at hs
    split at hs <;> cases hs
    intro x hx
    rcases List.mem_cons.mp hx with rfl | hx
    · exact Ne.symm hk
    · rw [← hkey]
      exact (((ordered_node _).mp hord').2.2.2 x hx).ne'

/-- **Insertion keeps a search tree.**  `bst_insert` leaves a search tree with its key added and
    nothing lost exactly if it neither enlarges the payload of the root nor, without a deadline,
    clears a key other than 0: that is, attaches a node to a tree or enlarges a payload. -/
theorem insert_keeps_order (mem : Block) (key : UInt64) (pbuf : List UInt8)
    (dataTimeout : Option Timespec) (hord : Ordered Node.key t)
    (hfit : sizeofNode + pbuf.length < 2 ^ 64) :
    (∃ t' i, bstInsert mem t key pbuf dataTimeout = some (t', i) ∧ Gains t t' key) ↔
      enlargesRoot key pbuf t = false ∧ (clears key pbuf dataTimeout t = true → key = 0) := by
  constructor
  · -- a key that has been cleared is missing in the new tree
    rintro ⟨t', i, hins, hgains⟩
    have hclears : clears key pbuf dataTimeout t = true → key = 0 := by
      intro hclears
      by_contra hk
      obtain ⟨x, hx, hxk⟩ := (hgains.keys key).mpr (Or.inl rfl)
      exact key_missing_of_clears hord hins hclears hk x hx hxk
    refine ⟨?_, hclears⟩
    rw [bstInsert_eq_put hord hfit hclears] at hins
    obtain ⟨a, ha, -⟩ := Option.map_eq_some_iff.mp hins
    rw [← Bool.not_eq_true, ← stored_eq_none_iff mem dataTimeout, ha]
    simp
  · -- otherwise one node is stored
    rintro ⟨hroot, hclears⟩
    rw [← Bool.not_eq_true, ← stored_eq_none_iff mem dataTimeout] at hroot
    obtain ⟨a, ha⟩ := Option.ne_none_iff_exists'.mp hroot
    refine ⟨put Node.key a t, Int32.ofNat pbuf.length, ?_, ?_⟩
    · rw [bstInsert_eq_put hord hfit hclears, ha]
      rfl
    · rw [← key_stored ha]
      exact gains_put hord a

/-- A second node with a deadline. -/
theorem insert_keeps_order_two :
    ∃ t' i, bstInsert ⟨⟨0, 0⟩, fun _ => 0⟩ (node ⟨1, ⟨9, 0⟩, []⟩ nil nil) 2 [7] (some ⟨9, 0⟩) =
        some (t', i) ∧
      Gains (node ⟨1, ⟨9, 0⟩, []⟩ nil nil) t' 2 :=
  (insert_keeps_order (t := node ⟨1, ⟨9, 0⟩, []⟩ nil nil) ⟨⟨0, 0⟩, fun _ => 0⟩ 2 [7] (some ⟨9, 0⟩)
    (List.pairwise_singleton _ _) (by decide)).mpr (by decide)

/-- A second node without a deadline: its key is cleared, and the key 0 stands to the right of 1. -/
theorem insert_clears_key : ∃ t',
    bstInsert ⟨⟨0, 0⟩, fun _ => 0⟩ (node ⟨1, ⟨9, 0⟩, []⟩ nil nil) 2 [7] none = some (t', 1) ∧
      Ordered Node.key (node ⟨1, ⟨9, 0⟩, []⟩ nil nil) ∧ ¬ Ordered Node.key t' ∧
      ¬ ∃ n ∈ inorder t', n.key = 2 :=
  ⟨node ⟨1, ⟨9, 0⟩, []⟩ nil (node ⟨0, ⟨0, 0⟩, [7]⟩ nil nil), by decide +kernel,
    List.pairwise_singleton _ _, by unfold Ordered; decide, by decide⟩

end Niuchacz.Bst
