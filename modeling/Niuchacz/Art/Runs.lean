import Niuchacz.Art.Delete
import Niuchacz.Art.Iter
import Niuchacz.Lib.Refinement
import Mathlib.Data.Set.Card
import Mathlib.Logic.Relation

namespace Niuchacz.Art

open Lib.Keyed Lib.Refinement

/-!
# The radix tree as a map from names

A tree that starts empty and answers insertions, searches and deletions of C strings, against the
map that it stands for.

* `Represents` — the relation between tree and map.
* `simulates` — every request keeps it and is answered as the map says.
* `art_refines_map`, `art_iter_visits_map`, `art_iter_prefix_visits`, `art_tree_compact` — the same
  for whole runs, with iteration and the shape of the tree.
-/

universe u w

variable {V : Type u} {ascii : Prop} {t : Tree V} {map : List UInt8 → Option V}

/-- The entries of a tree, in the order of iteration. -/
def Tree.leaves (t : Tree V) : List (List UInt8 × V) :=
  (t.root.map Node.leaves).getD []

/-- The tree stands for the map: it is valid, its leaves are the entries of the map, and it counts
    them. -/
structure Represents (ascii : Prop) (t : Tree V) (map : List UInt8 → Option V) : Prop where
  valid : ∀ n, t.root = some n → Node.Valid ascii [] n
  lists : Lists t.leaves map
  size : t.size = UInt64.ofNat t.leaves.length

theorem represents_artTreeInit : Represents ascii (artTreeInit : Tree V) (fun _ => none) where
  valid := fun n hn => by cases hn
  lists := ⟨distinct_nil, fun k v => by simp [Tree.leaves, artTreeInit]⟩
  size := rfl

theorem leaves_of_root {n : Node V} (h : t.root = some n) : t.leaves = n.leaves := by
  unfold Tree.leaves
  rw [h]
  rfl

/-- The entries below the root are those of the map. -/
theorem Represents.holds_iff (h : Represents ascii t map) {n : Node V} (hn : t.root = some n)
    {k : List UInt8} {v : V} : n.Holds k v ↔ map k = some v := by
  rw [← h.lists.mem_iff, leaves_of_root hn, (h.valid n hn).mem_leaves]

/-- A tree without a root is the empty map. -/
theorem Represents.of_none (h : Represents ascii t map) (hn : t.root = none) (k : List UInt8) :
    map k = none := by
  cases hk : map k with
  | none => rfl
  | some v =>
    have hmem := (h.lists.mem_iff k v).mpr hk
    simp [Tree.leaves, hn] at hmem

/-- `art_search` answers as the map. -/
theorem Represents.artSearch_eq (h : Represents ascii t map) (s : CString) :
    artSearch t s.toKey = map s.bytes := by
  unfold artSearch
  cases hn : t.root with
  | none => rw [h.of_none hn, Option.bind_none]
  | some n =>
    apply Option.ext
    intro v
    rw [Option.bind_some, (h.valid n hn).search_eq_some_iff, h.holds_iff hn]

/-! ### Insertion -/

/-- The entries after a map has got a new value for a key. -/
theorem lists_update {l : List (List UInt8 × V)} {k : List UInt8} {P : V → Prop}
    (hdistinct : Distinct l) (hmem : ∀ j w, (j, w) ∈ l ↔ if j = k then P w else map j = some w)
    {o : Option V} (ho : ∀ w, P w ↔ o = some w) : Lists l (Function.update map k o) := by
  refine ⟨hdistinct, fun j w => ?_⟩
  rw [hmem, Function.update_apply]
  by_cases hj : j = k
  · rw [if_pos hj, if_pos hj, ho]
  · rw [if_neg hj, if_neg hj]

/-- `art_insert` updates the map and returns the old value. -/
theorem Represents.artInsert (h : Represents ascii t map) (s : CString)
    (hlow : ascii → ∀ b ∈ s.bytes, b < 128) (v : V) :
    Represents ascii (artInsert t s.toKey v).1 (Function.update map s.bytes (some v))
      ∧ (artInsert t s.toKey v).2 = map s.bytes := by
  unfold Art.artInsert
  cases hn : t.root with
  -- ==> the first name becomes the root
  | none =>
    have hmap := h.of_none hn
    have hsize : t.size = 0 := by
      rw [h.size]
      simp [Tree.leaves, hn]
    have hvalid : Node.Valid ascii [] (Node.leaf s.bytes v) :=
      Node.valid_newLeaf s hlow (List.nil_prefix) v
    simp only
    refine ⟨⟨?_, lists_update (P := fun w => w = v) ?_ ?_ ?_, ?_⟩, (hmap _).symm⟩
    · intro n hn'
      obtain rfl := Option.some.inj hn'
      exact hvalid
    · exact hvalid.distinct_leaves
    · intro j w
      show (j, w) ∈ (Node.leaf s.bytes v).leaves ↔ _
      rw [hvalid.mem_leaves, Node.holds_leaf_iff]
      by_cases hj : j = s.bytes <;> simp [hj, hmap]
    · intro w
      simp [eq_comm]
    · rw [hsize]
      simp [Tree.leaves]
  | some n =>
    obtain ⟨hvalid, hholds, hold⟩ := (h.valid n hn).inserted s hlow v List.nil_prefix
    simp only [List.length_nil] at hvalid hholds hold ⊢
    generalize n.recursiveInsert s.toKey v 0 = r at hvalid hholds hold ⊢
    -- what is returned is what the tree held under the name
    have hanswer : r.2 = map s.bytes := by
      apply Option.ext
      intro w
      rw [hold, h.holds_iff hn]
    have hlists : Lists r.1.leaves (Function.update map s.bytes (some v)) := by
      refine lists_update (P := fun w => w = v) hvalid.distinct_leaves (fun j w => ?_)
        fun w => by simp [eq_comm]
      rw [hvalid.mem_leaves, hholds, h.holds_iff hn]
    refine ⟨⟨fun n' hn' => ?_, hlists, ?_⟩, hanswer⟩
    · obtain rfl := Option.some.inj hn'
      exact hvalid
    · show (if r.2.isSome then t.size else t.size + 1) = UInt64.ofNat r.1.leaves.length
      rw [h.size, hanswer]
      -- the size goes up exactly if the name is new
      cases hmap : map s.bytes with
      | none =>
        rw [length_of_update h.lists hlists hmap, UInt64.ofNat_add]
        rfl
      | some w =>
        rw [length_of_update_some h.lists hlists hmap]
        rfl

/-! ### Deletion -/

/-- A tree in which a name has been deleted has one entry less. -/
theorem Represents.deleted (h : Represents ascii t map) {root : Option (Node V)} {k : List UInt8}
    {v : V} (hvalid : ∀ n, root = some n → Node.Valid ascii [] n)
    (hlists : Lists ((root.map Node.leaves).getD []) (Function.update map k none))
    (hmap : map k = some v) :
    Represents ascii ⟨root, t.size - 1⟩ (Function.update map k none) := by
  refine ⟨hvalid, hlists, ?_⟩
  have hlen := length_of_update_none h.lists hlists hmap
  show t.size - 1 = UInt64.ofNat _
  rw [h.size, ← hlen, UInt64.ofNat_add]
  show UInt64.ofNat _ + 1 - 1 = _
  rw [UInt64.add_sub_cancel]
  rfl

/-- `art_delete` removes from the map and returns the old value. -/
theorem Represents.artDelete (h : Represents ascii t map) (s : CString) :
    Represents ascii (artDelete t s.toKey).1 (Function.update map s.bytes none)
      ∧ (artDelete t s.toKey).2 = map s.bytes := by
  -- nothing is deleted that is not there
  have hnone : map s.bytes = none →
      Represents ascii t (Function.update map s.bytes none) := by
    intro hmap
    rwa [← hmap, Function.update_eq_self]
  unfold Art.artDelete
  cases hn : t.root with
  | none => exact ⟨hnone (h.of_none hn _), (h.of_none hn _).symm⟩
  | some n =>
    rw [Option.bind_some]
    have hiff := fun {k v} => h.holds_iff hn (k := k) (v := v)
    have hvalid := h.valid n hn
    cases n with
    | leaf k v =>
      simp only [Node.recursiveDelete]
      split
      case h_1 hmiss =>
        have hmap : map s.bytes = none := by
          cases hmap : map s.bytes with
          | none => rfl
          | some w =>
            rw [if_pos (Node.leafMatches_iff.mpr (Node.holds_leaf_iff.mp (hiff.mpr hmap)).1.symm)]
              at hmiss
            cases hmiss
        exact ⟨hnone hmap, hmap.symm⟩
      case h_2 root w hhit =>
        split at hhit
        case isTrue hmatch =>
          obtain ⟨rfl, rfl⟩ := Prod.mk.inj (Option.some.inj hhit)
          obtain rfl := Node.leafMatches_iff.mp hmatch
          have hmap : map s.bytes = some v := hiff.mp Node.Holds.leaf
          refine ⟨h.deleted (fun n hn => by cases hn) ⟨distinct_nil, fun j w => ?_⟩ hmap,
            hmap.symm⟩
          -- the only leaf is gone
          have hleaf := h.holds_iff hn (k := j) (v := w)
          rw [Node.holds_leaf_iff] at hleaf
          rw [Function.update_apply]
          by_cases hj : j = s.bytes
          · simp [hj]
          · simp [hj, ← hleaf]
        case isFalse => cases hhit
    | inner m part cs =>
      simp only [Node.recursiveDelete]
      cases hr : Node.deleteBelow m part cs s.toKey 0 with
      | none =>
        have hmap : map s.bytes = none := by
          cases hmap : map s.bytes with
          | none => rfl
          | some w =>
            have := hvalid.deleteBelow_isSome rfl s (hiff.mpr hmap)
            rw [List.length_nil, hr] at this
            cases this
        exact ⟨hnone hmap, hmap.symm⟩
      | some r =>
        obtain ⟨n', v⟩ := r
        obtain ⟨hvalid', hfound, hholds⟩ := hvalid.deleted rfl hr
        have hmap : map s.bytes = some v := hiff.mp hfound
        refine ⟨h.deleted ?_ ?_ hmap, hmap.symm⟩
        · intro n hn
          obtain rfl := Option.some.inj hn
          exact hvalid'
        · refine lists_update (P := fun _ => False) hvalid'.distinct_leaves (fun j w => ?_)
            fun w => by simp
          rw [hvalid'.mem_leaves, hholds, hiff]
          by_cases hj : j = s.bytes <;> simp [hj]

/-! ### Runs -/

/-- A call of the tree's interface. -/
inductive Request (V : Type u) where
  | insert (name : CString) (value : V)
  | search (name : CString)
  | delete (name : CString)

def Request.name : Request V → CString
  | insert name _ => name
  | search name => name
  | delete name => name

/-- The name has 7-bit bytes only. -/
def Request.Ascii (r : Request V) : Prop :=
  ∀ b ∈ r.name.bytes, b < 128

/-- One call on the tree, with its return value. -/
def artStep (t : Tree V) : Request V → Tree V × Option V
  | .insert name value => artInsert t name.toKey value
  | .search name => (t, artSearch t name.toKey)
  | .delete name => artDelete t name.toKey

/-- The same call on a map: always the value that stood at the name. -/
def mapStep (map : List UInt8 → Option V) (r : Request V) : (List UInt8 → Option V) × Option V :=
  match r with
  | .insert name value => (Function.update map name.bytes (some value), map name.bytes)
  | .search name => (map, map name.bytes)
  | .delete name => (Function.update map name.bytes none, map name.bytes)

/-- One call keeps the tree and the map together, with the same answer. -/
theorem simulates (ascii : Prop) :
    Simulates artStep (mapStep (V := V)) (fun r => ascii → r.Ascii) (Represents ascii) where
  keeps := by
    intro t map r h hr
    cases r with
    | insert name value => exact (h.artInsert name hr value).1
    | search name => exact h
    | delete name => exact (h.artDelete name).1
  answer := by
    intro t map r h hr
    cases r with
    | insert name value => exact (h.artInsert name hr value).2
    | search name => exact h.artSearch_eq name
    | delete name => exact (h.artDelete name).2

/-- The tree and the map after a list of calls, from the empty tree. -/
def treeAfter (reqs : List (Request V)) : Tree V :=
  final artStep artTreeInit reqs

def mapAfter (reqs : List (Request V)) : List UInt8 → Option V :=
  final mapStep (fun _ => none) reqs

/-- Any number of calls, with ASCII names where order is asked for, have the same answers and end in
    corresponding states. -/
theorem represents_after (reqs : List (Request V)) (h : ∀ r ∈ reqs, ascii → r.Ascii) :
    answers artStep artTreeInit reqs = answers mapStep (fun _ => none) reqs
      ∧ Represents ascii (treeAfter reqs) (mapAfter reqs) :=
  (simulates ascii).run represents_artTreeInit reqs h

/-- Without the order nothing is asked of the names. -/
theorem represents_after_any (reqs : List (Request V)) :
    Represents False (treeAfter reqs) (mapAfter reqs) :=
  (represents_after reqs fun _ _ h => h.elim).2

/-- The map has as many names as the tree has leaves. -/
theorem Represents.ncard_eq (h : Represents ascii t map) :
    {k | map k ≠ none}.ncard = t.leaves.length := by
  classical
  have hset : {k | map k ≠ none} = ((t.leaves.map Prod.fst).toFinset : Set (List UInt8)) := by
    ext k
    rw [Set.mem_ofPred_eq, Option.ne_none_iff_exists', List.coe_toFinset, Set.mem_ofPred_eq,
      List.mem_map]
    constructor
    · rintro ⟨v, hv⟩
      exact ⟨(k, v), (h.lists.mem_iff k v).mpr hv, rfl⟩
    · rintro ⟨⟨k, v⟩, hmem, rfl⟩
      exact ⟨v, (h.lists.mem_iff k v).mp hmem⟩
  rw [hset, Set.ncard_coe_finset, List.toFinset_card_of_nodup h.lists.distinct, List.length_map]

/-- **Refinement.**  However `art_insert`, `art_search` and `art_delete` are called with C strings,
    every return value is the value last inserted under that very name and not deleted since, and
    `art_size` is the number of names. -/
theorem art_refines_map (reqs : List (Request V)) :
    answers artStep artTreeInit reqs = answers mapStep (fun _ => none) reqs
      ∧ (treeAfter reqs).size = UInt64.ofNat {k | mapAfter reqs k ≠ none}.ncard := by
  obtain ⟨hanswers, h⟩ := represents_after reqs fun _ _ (h : False) => h.elim
  exact ⟨hanswers, by rw [h.ncard_eq, h.size]⟩

/-- `art_iter` is one loop over the entries of the tree. -/
theorem artIter_eq {σ : Type w} (t : Tree V) (cb : σ → List UInt8 → V → σ × Int32) (data : σ) :
    artIter t cb data = Node.visit cb t.leaves data := by
  unfold artIter Tree.leaves
  cases t.root with
  | none => rfl
  | some n => exact Node.recursiveIter_eq cb n data

/-- `art_minimum` is the first entry that `art_iter` visits. -/
theorem Represents.artMinimum_eq (h : Represents ascii t map) : artMinimum t = t.leaves.head? := by
  unfold artMinimum
  cases hn : t.root with
  | none => simp [Tree.leaves, hn]
  | some n => rw [leaves_of_root hn, Option.bind_some, (h.valid n hn).minimum_eq]

theorem Represents.artMaximum_eq (h : Represents ascii t map) :
    artMaximum t = t.leaves.getLast? := by
  unfold artMaximum
  cases hn : t.root with
  | none => simp [Tree.leaves, hn]
  | some n => rw [leaves_of_root hn, Option.bind_some, (h.valid n hn).maximum_eq]

/-- With ASCII names the entries are in the order of their names. -/
theorem Represents.ordered_leaves (h : Represents ascii t map) (ha : ascii) :
    (t.leaves.map Prod.fst).Pairwise (· < ·) := by
  cases hn : t.root with
  | none => simp [Tree.leaves, hn]
  | some n =>
    rw [leaves_of_root hn]
    exact (h.valid n hn).ordered_leaves ha

/-- **Iteration.**  After any calls `art_iter` hands every entry of the map to the callback once,
    until the callback stops it; `art_minimum` and `art_maximum` are the first and the last of them.
    If only names of 7-bit bytes were ever used, the entries come in the order of the names.  (A
    node16 sorts its bytes as signed ones, a node4 as unsigned ones.) -/
theorem art_iter_visits_map (reqs : List (Request V)) :
    ∃ entries : List (List UInt8 × V),
      (entries.map Prod.fst).Nodup
      ∧ (∀ k v, (k, v) ∈ entries ↔ mapAfter reqs k = some v)
      ∧ (∀ (σ : Type w) (cb : σ → List UInt8 → V → σ × Int32) (data : σ),
          artIter (treeAfter reqs) cb data = Node.visit cb entries data)
      ∧ artMinimum (treeAfter reqs) = entries.head?
      ∧ artMaximum (treeAfter reqs) = entries.getLast?
      ∧ ((∀ r ∈ reqs, r.Ascii) → (entries.map Prod.fst).Pairwise (· < ·)) := by
  have h := (represents_after reqs fun r hr (ha : ∀ r ∈ reqs, r.Ascii) => ha r hr).2
  exact ⟨(treeAfter reqs).leaves, h.lists.distinct, h.lists.mem_iff,
    fun σ cb data => artIter_eq _ cb data, h.artMinimum_eq, h.artMaximum_eq, h.ordered_leaves⟩

/-- **Iteration below a prefix.**  If a stored name begins with the prefix, `art_iter_prefix` hands
    exactly the entries to the callback that begin with it, in the order of `art_iter`.  (Without
    such a name it may go past a difference in a compressed path.) -/
theorem art_iter_prefix_visits (reqs : List (Request V)) (s : CString)
    (h : ∃ k, s.bytes <+: k ∧ mapAfter reqs k ≠ none) :
    ∃ entries : List (List UInt8 × V),
      (entries.map Prod.fst).Nodup
      ∧ (∀ k v, (k, v) ∈ entries ↔ mapAfter reqs k = some v)
      ∧ ∀ (σ : Type w) (cb : σ → List UInt8 → V → σ × Int32) (data : σ),
        artIter (treeAfter reqs) cb data = Node.visit cb entries data
        ∧ artIterPrefix (treeAfter reqs) s.toKey cb data
          = Node.visit cb (entries.filter fun e => s.bytes.isPrefixOf e.1) data := by
  have hrep := represents_after_any reqs
  obtain ⟨k, hpre, hk⟩ := h
  obtain ⟨v, hv⟩ := Option.ne_none_iff_exists'.mp hk
  refine ⟨(treeAfter reqs).leaves, hrep.lists.distinct, hrep.lists.mem_iff,
    fun σ cb data => ⟨artIter_eq _ cb data, ?_⟩⟩
  unfold artIterPrefix
  cases hn : (treeAfter reqs).root with
  | none =>
    rw [hrep.of_none hn] at hv
    cases hv
  | some n =>
    rw [leaves_of_root hn]
    exact (hrep.valid n hn).iterPrefix_eq s List.nil_prefix ((hrep.holds_iff hn).mpr hv) hpre cb
      data

/-- The names `abc`, `b` and `ab` are inserted. -/
def sampleRequests : List (Request ℕ) :=
  [.insert (literal "abc" (by decide)) 7, .insert (literal "b" (by decide)) 8,
    .insert (literal "ab" (by decide)) 9]

/-- The map after these calls. -/
theorem mapAfter_sampleRequests (k : List UInt8) : mapAfter sampleRequests k =
    if k = nameBytes "ab" then some 9 else if k = nameBytes "b" then some 8
    else if k = nameBytes "abc" then some 7 else none := by
  simp only [mapAfter, sampleRequests, final, List.foldl_cons, List.foldl_nil, mapStep,
    Function.update_apply, literal_bytes]

/-- Two of them begin with `ab`. -/
theorem art_iter_prefix_visits_sample :
    ∃ visited : List (List UInt8 × ℕ),
      (∀ k v, (k, v) ∈ visited ↔ k = nameBytes "ab" ∧ v = 9 ∨ k = nameBytes "abc" ∧ v = 7)
      ∧ ∀ (σ : Type) (cb : σ → List UInt8 → ℕ → σ × Int32) (data : σ),
        artIterPrefix (treeAfter sampleRequests) (literal "ab" (by decide)).toKey cb data
          = Node.visit cb visited data := by
  obtain ⟨entries, -, hmem, hvisit⟩ := art_iter_prefix_visits sampleRequests
    (literal "ab" (by decide))
    ⟨nameBytes "ab", List.prefix_rfl, by rw [mapAfter_sampleRequests, if_pos rfl]; simp⟩
  refine ⟨_, fun k v => ?_, fun σ cb data => (hvisit σ cb data).2⟩
  rw [List.mem_filter, hmem, mapAfter_sampleRequests, literal_bytes]
  have hprefix : (nameBytes "ab").isPrefixOf (nameBytes "ab") = true
      ∧ (nameBytes "ab").isPrefixOf (nameBytes "b") = false
      ∧ (nameBytes "ab").isPrefixOf (nameBytes "abc") = true := by decide
  have hne : nameBytes "b" ≠ nameBytes "abc" := by decide
  split_ifs with hab hb habc
  · have hother : nameBytes "ab" ≠ nameBytes "abc" := by decide
    simp [hab, hprefix.1, hother, eq_comm]
  · simp [hb, hprefix.2.1, hne, hb ▸ hab]
  · simp [habc, hprefix.2.2, habc ▸ hab, eq_comm]
  · simp [hab, habc]

/-! ### Shape -/

section Shape

variable {n x : Node V} {p : List UInt8}

/-- The number of inner nodes at and below a node. -/
def Node.inners (n : Node V) : ℕ :=
  match n with
  | .leaf _ _ => 0
  | .inner _ _ cs => (cs.entries.attach.map fun child => inners child.1.2).sum + 1
termination_by n
decreasing_by exact ⟨child.1.1, child.2⟩

/-- The number of inner nodes of a tree. -/
def Tree.inners (t : Tree V) : ℕ := (t.root.map Node.inners).getD 0

/-- Unfolding lemma: a node counts itself and those below it. -/
theorem inners_inner (m : ℕ) (part : List UInt8) (cs : Children (Node V)) :
    (Node.inner m part cs).inners = (cs.entries.map fun child => child.2.inners).sum + 1 := by
  rw [Node.inners]
  congr 2
  exact List.attach_map_val (f := fun child : UInt8 × Node V => child.2.inners)

/-- The blocks of an inner node are those of its children and its own. -/
theorem destroyNode_inner (m : ℕ) (part : List UInt8) (cs : Children (Node V)) :
    (Node.inner m part cs).destroyNode
      = (cs.entries.map fun child => child.2.destroyNode).sum + 1 := by
  rw [Node.destroyNode]
  congr 2
  exact List.attach_map_val (f := fun child : UInt8 × Node V => child.2.destroyNode)

/-- A block for every leaf and for every inner node. -/
theorem destroyNode_eq (h : Node.Valid ascii p n) :
    n.destroyNode = n.leaves.length + n.inners := by
  induction h with
  | leaf _ _ _ => simp [Node.destroyNode, Node.inners]
  | @inner p q cs table _ _ ih =>
    have hmap : cs.entries.map (fun child => child.2.destroyNode) =
        cs.entries.map fun child => child.2.leaves.length + child.2.inners :=
      List.map_congr_left fun e he => ih e.1 e.2 (table.shape.mem_entries.mp he)
    rw [destroyNode_inner, inners_inner, Node.leaves_inner, List.length_flatMap, hmap,
      List.sum_map_add, Nat.add_assoc]

/-- There are fewer inner nodes than leaves: every inner node joins two subtrees. -/
theorem destroyNode_bounds (h : Node.Valid ascii p n) :
    n.leaves.length ≤ n.destroyNode ∧ n.destroyNode + 1 ≤ 2 * n.leaves.length := by
  induction h with
  | leaf _ _ _ => simp [Node.destroyNode]
  | @inner p q cs table _ _ ih =>
    -- the bounds, summed up over the children: each of them counts at least one block less than
    -- twice its leaves
    have hsum : ∀ es : List (UInt8 × Node V), (∀ e ∈ es, e ∈ cs.entries) →
        (es.flatMap fun child => child.2.leaves).length
          ≤ (es.map fun child => child.2.destroyNode).sum
        ∧ (es.map fun child => child.2.destroyNode).sum + es.length
          ≤ 2 * (es.flatMap fun child => child.2.leaves).length := by
      intro es
      induction es with
      | nil => simp
      | cons e es ih' =>
        intro hmem
        have hhead := ih e.1 e.2 (table.shape.mem_entries.mp (hmem e List.mem_cons_self))
        have htail := ih' fun d hd => hmem d (List.mem_cons_of_mem e hd)
        simp only [List.flatMap_cons, List.length_append, List.map_cons, List.sum_cons,
          List.length_cons]
        omega
    have hall := hsum cs.entries fun e he => he
    -- two children at least make up for the block of the node itself
    have htwo := table.two_le_length
    rw [destroyNode_inner, Node.leaves_inner]
    omega

/-- Whatever stands below a valid node is valid, at some path. -/
theorem valid_of_below (h : Node.Valid ascii p n) (hx : Relation.ReflTransGen Node.IsChild x n) :
    ∃ p', Node.Valid ascii p' x := by
  induction hx using Relation.ReflTransGen.head_induction_on with
  | refl => exact ⟨p, h⟩
  | head hchild _ ih =>
    obtain ⟨p', hy⟩ := ih
    cases hy with
    | leaf _ _ _ => exact hchild.elim
    | inner table _ below =>
      obtain ⟨c, hc⟩ := hchild
      exact ⟨_, below c _ (table.shape.mem_entries.mp hc)⟩

end Shape

/-- **Shape of the tree.**  After any calls every inner node is as full as its layout asks: it has 2
    to 4, 4 to 16, 13 to 48 or at least 38 children, each byte once and all links and the count of
    children right.  `art_tree_destroy` frees a block for every name and every inner node, of which
    a tree that is not empty has fewer than names. -/
theorem art_tree_compact (reqs : List (Request V)) :
    (∀ root m part cs, (treeAfter reqs).root = some root →
        Relation.ReflTransGen Node.IsChild (Node.inner m part cs) root →
        cs.Shape ∧ cs.Occupied)
      ∧ {k | mapAfter reqs k ≠ none}.ncard ≤ artTreeDestroy (treeAfter reqs)
      ∧ artTreeDestroy (treeAfter reqs) ≤ 2 * {k | mapAfter reqs k ≠ none}.ncard - 1
      ∧ artTreeDestroy (treeAfter reqs)
        = {k | mapAfter reqs k ≠ none}.ncard + (treeAfter reqs).inners
      ∧ (treeAfter reqs).inners ≤ {k | mapAfter reqs k ≠ none}.ncard - 1 := by
  have h := represents_after_any reqs
  rw [h.ncard_eq]
  refine ⟨fun root m part cs hroot hbelow => ?_, ?_⟩
  · obtain ⟨p, hvalid⟩ := valid_of_below (h.valid root hroot) hbelow
    cases hvalid with
    | inner table _ _ => exact ⟨table.shape, table.occupied⟩
  · unfold artTreeDestroy Tree.inners
    cases hn : (treeAfter reqs).root with
    | none => simp [Tree.leaves, hn]
    | some n =>
      have hbounds := destroyNode_bounds (h.valid n hn)
      have hblocks := destroyNode_eq (h.valid n hn)
      rw [leaves_of_root hn, Option.map_some, Option.getD_some, Option.map_some, Option.getD_some]
      omega

end Niuchacz.Art
