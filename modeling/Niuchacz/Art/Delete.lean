import Niuchacz.Art.Insert

namespace Niuchacz.Art

open Lib.Keyed

namespace Node

/-!
# Deletion from the radix tree

* `collapse_inner` — a node4 with one child left gives the child its path: the stored bytes are
  again the first ones of the joined path.
* `valid_removeChild` — `remove_child` takes one child out of a valid node.
* `Valid.deleted` — `recursive_delete` at an inner node takes the one key out and keeps the tree
  valid, whatever the search for it reads behind the string.
* `Valid.deleteBelow_isSome` — and it finds every key that stands below.
-/

universe u

variable {V : Type u} {n x y : Node V} {p q k part : List UInt8} {v w : V} {c d : UInt8}
  {depth m : ℕ} {cs : Children (Node V)} {ascii : Prop} {key : Key}

/-! ### Taking a child out -/

/-- The stored bytes of the joined path. -/
theorem collapse_inner (q q' : List UInt8) (c : UInt8) (cs : Children (Node V)) :
    collapse q.length (q.take maxPrefixLen) c (inner q'.length (q'.take maxPrefixLen) cs)
      = inner (q ++ [c] ++ q').length ((q ++ [c] ++ q').take maxPrefixLen) cs := by
  have hlen : q'.length + (q.length + 1) = (q ++ [c] ++ q').length := by
    simp
    omega
  simp only [collapse, hlen]
  congr 1
  by_cases hshort : q.length < maxPrefixLen
  · rw [if_pos hshort, if_pos hshort, List.take_of_length_le (Nat.le_of_lt hshort)]
    have hone : (q ++ [c]).length = q.length + 1 := by simp
    split
    case isTrue hroom =>
      -- bytes of the child fill up what is left
      rw [List.take_take, List.take_append, hone, List.take_of_length_le (l := q ++ [c]) (by omega)]
      congr 1
      rw [List.take_eq_take_iff]
      omega
    case isFalse hfull => rw [List.take_append_of_le_length (by omega),
        List.take_of_length_le (by omega)]
  · rw [if_neg hshort, if_neg hshort, if_neg hshort, List.append_assoc,
      List.take_append_of_le_length (Nat.le_of_not_lt hshort)]

/-- A node with one child left is replaced by the child, to whose prefix its own and the byte
    between them are added. -/
theorem valid_collapse (hx : Valid ascii (p ++ q ++ [c]) x) :
    Valid ascii p (collapse q.length (q.take maxPrefixLen) c x)
      ∧ ∀ k w, Holds (collapse q.length (q.take maxPrefixLen) c x) k w ↔ Holds x k w := by
  cases hx with
  | leaf hk hlow hleads =>
    refine ⟨Valid.leaf hk hlow ?_, fun k w => Iff.rfl⟩
    rw [List.append_assoc] at hleads
    exact (List.prefix_append _ _).trans hleads
  | @inner _ q' cs table ordered below =>
    rw [collapse_inner]
    refine ⟨Valid.inner table ordered fun d y hy => ?_, fun k w => ?_⟩
    · have hy' := below d y hy
      simpa only [List.append_assoc] using hy'
    · rw [holds_inner_iff, holds_inner_iff]

section Inner

variable (table : cs.Valid) (ordered : ascii → cs.Ordered)
  (below : ∀ c x, cs.findChild c = some x → Valid ascii (p ++ q ++ [c]) x)

include table ordered below in
/-- One child goes, all others stay. -/
theorem valid_removeChild (hx : cs.findChild c = some x) :
    Valid ascii p (removeChild q.length (q.take maxPrefixLen) cs c)
      ∧ ∀ k w, Holds (removeChild q.length (q.take maxPrefixLen) cs c) k w
        ↔ ∃ d y, d ≠ c ∧ cs.findChild d = some y ∧ Holds y k w := by
  have hothers : ∀ {d y}, Function.update (fun d => cs.findChild d) c none d = some y ↔
      d ≠ c ∧ cs.findChild d = some y := by
    intro d y
    rw [Function.update_apply]
    by_cases hd : d = c <;> simp [hd]
  by_cases htwo : ∃ es, cs = .node4 es ∧ es.length = 2
  · -- two children: the other one takes the place of the node
    obtain ⟨es, rfl, hlen⟩ := htwo
    have hone := length_remove (mem_map_fst (mem_of_lookup hx))
    obtain ⟨⟨d, y⟩, hes⟩ := List.length_eq_one_iff.mp (show (remove c es).length = 1 by omega)
    have hlook := fun b => congrFun (lookup_remove (l := es) table.shape c) b
    rw [hes] at hlook
    have hy : d ≠ c ∧ es.lookup d = some y := by
      have := hlook d
      simp only [List.lookup_cons_self] at this
      exact hothers.mp this.symm
    have hrem : (Children.node4 es).removeChild c = .node4 [(d, y)] := by
      rw [Children.removeChild, hes]
    obtain ⟨hvalid, hholds⟩ := valid_collapse (below d y hy.2)
    unfold removeChild
    rw [hrem]
    refine ⟨hvalid, fun k w => (hholds k w).trans ?_⟩
    constructor
    · exact fun hw => ⟨d, y, hy.1, hy.2, hw⟩
    · rintro ⟨b, z, hb, hz, hw⟩
      have := (hlook b).trans (hothers.mpr ⟨hb, hz⟩)
      obtain ⟨rfl, rfl⟩ : b = d ∧ z = y := by
        have hmem := mem_of_lookup this
        simpa using hmem
      exact hw
  · obtain ⟨hvalid, hfind⟩ := Children.removeChild_spec table hx fun es hes => by
      have hocc := table.occupied
      rw [hes] at hocc
      have hne : es.length ≠ 2 := fun h2 => htwo ⟨es, hes, h2⟩
      have := hocc.1
      omega
    unfold removeChild
    split
    case h_1 d y hsingle =>
      have := hvalid.two_le_length
      rw [hsingle] at this
      simp at this
    case h_2 cs' =>
      refine ⟨Valid.inner hvalid (fun ha => Children.ordered_removeChild (ordered ha) c)
        fun d y hy => ?_, fun k w => ?_⟩
      · rw [congrFun hfind d] at hy
        exact below d y (hothers.mp hy).2
      · simp only [holds_inner_iff, fun d => congrFun hfind d, hothers, and_assoc]

end Inner

/-! ### Deletion -/

/-- The key is below the node, and afterwards everything else is. -/
structure Deleted (ascii : Prop) (p : List UInt8) (n : Node V) (key : List UInt8) (n' : Node V)
    (v : V) : Prop where
  valid : Valid ascii p n'
  found : Holds n key v
  holds : ∀ k w, Holds n' k w ↔ k ≠ key ∧ Holds n k w

/-- A deletion under one byte of a node. -/
theorem Deleted.of_child {n' : Node V}
    (below : ∀ c x, cs.findChild c = some x → Valid ascii (p ++ q ++ [c]) x)
    (hx : cs.findChild c = some x) (hvalid : Valid ascii p n') (hfound : Holds x k v)
    (hholds : ∀ l w, Holds n' l w ↔ (∃ d y, d ≠ c ∧ cs.findChild d = some y ∧ Holds y l w)
      ∨ l ≠ k ∧ Holds x l w) :
    Deleted ascii p (inner q.length (q.take maxPrefixLen) cs) k n' v := by
  refine ⟨hvalid, Holds.inner hx hfound, fun l w => ?_⟩
  rw [hholds, holds_inner_iff]
  constructor
  · rintro (⟨d, y, hd, hy, hw⟩ | ⟨hl, hw⟩)
    · refine ⟨?_, d, y, hy, hw⟩
      rintro rfl
      exact hd ((byte_eq below hy hw).symm.trans (byte_eq below hx hfound))
    · exact ⟨hl, c, x, hx, hw⟩
  · rintro ⟨hl, d, y, hy, hw⟩
    by_cases hd : d = c
    · subst hd
      obtain rfl := Option.some.inj (hx.symm.trans hy)
      exact Or.inr ⟨hl, hw⟩
    · exact Or.inl ⟨d, y, hd, hy, hw⟩

/-- What `recursive_delete` leaves below an inner node is valid, and holds what was there without
    the entry of the key. -/
theorem Valid.deleted (h : Valid ascii p n) (hn : n = Node.inner m part cs) {n' : Node V}
    (hr : deleteBelow m part cs key depth = some (n', v)) : Deleted ascii p n key.bytes n' v := by
  induction h generalizing m part cs depth n' with
  | leaf _ _ _ => cases hn
  | @inner p q cs' table ordered below ih =>
    cases hn
    rw [deleteBelow] at hr
    split at hr
    case isTrue => cases hr
    case isFalse =>
      split at hr
      case h_1 => cases hr
      case h_2 l w hx =>
        -- the leaf itself goes
        split at hr
        case isTrue hmatch =>
          obtain ⟨rfl, rfl⟩ := Prod.mk.inj (Option.some.inj hr)
          obtain ⟨hvalid, hholds⟩ := valid_removeChild table ordered below hx
          refine Deleted.of_child below hx hvalid ?_ fun l' w' => ?_
          · rw [← leafMatches_iff.mp hmatch]
            exact Holds.leaf
          · rw [hholds, holds_leaf_iff, leafMatches_iff.mp hmatch]
            exact ⟨Or.inl, fun h => h.resolve_right fun hl => hl.1 hl.2.1⟩
        case isFalse => cases hr
      case h_3 m' part' cs' hx =>
        split at hr
        case h_1 => cases hr
        case h_2 y w hy =>
          obtain ⟨rfl, rfl⟩ := Prod.mk.inj (Option.some.inj hr)
          obtain ⟨hvalid, hfound, hholds⟩ := ih _ _ hx rfl hy
          refine Deleted.of_child below hx (valid_setChild table ordered below hx hvalid) hfound
            fun l w' => ?_
          simp only [holds_inner_iff,
            fun d => congrFun (Children.findChild_setChild table.shape hx y) d,
            Function.update_apply]
          rw [← holds_inner_iff, ← hholds]
          constructor
          · rintro ⟨d, z, hz, hw⟩
            split at hz
            · obtain rfl := Option.some.inj hz
              exact Or.inr hw
            case isFalse hd => exact Or.inl ⟨d, z, hd, hz, hw⟩
          · rintro (⟨d, z, hd, hz, hw⟩ | hw)
            · exact ⟨d, z, by rw [if_neg hd]; exact hz, hw⟩
            · exact ⟨_, y, by rw [if_pos rfl], hw⟩

/-- What is there is found, as by a search. -/
theorem Valid.deleteBelow_isSome (h : Valid ascii p n) (hn : n = Node.inner m part cs) (s : CString)
    (hv : Holds n s.bytes v) : (deleteBelow m part cs s.toKey p.length).isSome := by
  induction h generalizing m part cs with
  | leaf _ _ _ => cases hn
  | @inner p q cs' table ordered below ih =>
    cases hn
    obtain ⟨c, x, hx, hv⟩ := holds_inner_iff.mp hv
    have hleads := (below c x hx).leads hv
    -- the name is below the node, so its prefix matches
    rw [deleteBelow, if_neg (fun hne => hne.2 (checkPrefix_path hleads)), get_end hleads]
    split
    case h_1 hnone =>
      rw [hx] at hnone
      cases hnone
    case h_2 l w hleaf =>
      obtain rfl := Option.some.inj (hx.symm.trans hleaf)
      rw [if_pos (leafMatches_iff.mpr (holds_leaf_iff.mp hv).1.symm)]
      rfl
    -- the child is an inner node: the recursion
    case h_3 m' part' cs' hinner =>
      obtain rfl := Option.some.inj (hx.symm.trans hinner)
      have hfound := ih c _ hx rfl hv
      rw [List.length_append, List.length_append, List.length_singleton] at hfound
      obtain ⟨⟨y, w⟩, hy⟩ := Option.isSome_iff_exists.mp hfound
      rw [hy]
      rfl

end Node

end Niuchacz.Art
