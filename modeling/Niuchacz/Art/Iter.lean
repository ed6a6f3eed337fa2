import Niuchacz.Art.Insert
import Mathlib.Data.List.Nodup

namespace Niuchacz.Art

open Lib.Keyed

namespace Node

/-!
# Iteration over the radix tree

* `leaves` — the entries below a node in the order of the child tables.
* `recursiveIter_eq` — `recursive_iter` hands them to the callback one by one, until it returns a
  non-zero value.
* `Valid.lists_leaves` — every entry once; `Valid.ordered_leaves` — in the order of the keys, if
  these are of 7-bit bytes.
* `Valid.minimum_eq`, `Valid.maximum_eq` — the ends of that list.
* `Valid.iterPrefix_eq` — `art_iter_prefix` visits the entries with the prefix, if there are any.
-/

universe u w

variable {V : Type u} {σ : Type w} {n x : Node V} {p q k l part : List UInt8} {v w : V} {c : UInt8}
  {m depth : ℕ} {cs : Children (Node V)} {ascii : Prop}

/-! ### The entries of a node -/

/-- The leaves below a node, in the order of the child tables. -/
def leaves (n : Node V) : List (List UInt8 × V) :=
  match n with
  | leaf key value => [(key, value)]
  | inner _ _ cs => cs.entries.attach.flatMap fun child => leaves child.1.2
termination_by n
decreasing_by exact ⟨child.1.1, child.2⟩

/-- Unfolding lemma: a leaf has one entry. -/
@[simp] theorem leaves_leaf : (leaf k v).leaves = [(k, v)] := by
  rw [leaves]

/-- Unfolding lemma: the entries of an inner node are those of its children in turn. -/
@[simp] theorem leaves_inner :
    (inner m part cs).leaves = cs.entries.flatMap fun child => child.2.leaves := by
  rw [leaves, List.flatMap_def, List.flatMap_def]
  congr 1
  exact List.attach_map_val (f := fun child : UInt8 × Node V => child.2.leaves)

/-- The entries of a node are what it holds. -/
theorem Valid.mem_leaves (h : Valid ascii p n) : (k, v) ∈ n.leaves ↔ Holds n k v := by
  induction h with
  | leaf _ _ _ => rw [leaves_leaf, List.mem_singleton, Prod.mk.injEq, holds_leaf_iff]
  | inner table _ _ ih =>
    rw [leaves_inner, List.mem_flatMap, holds_inner_iff]
    constructor
    · rintro ⟨⟨c, x⟩, he, hmem⟩
      have hx := table.shape.mem_entries.mp he
      exact ⟨c, x, hx, (ih c x hx).mp hmem⟩
    · rintro ⟨c, x, hx, hholds⟩
      exact ⟨(c, x), table.shape.mem_entries.mpr hx, (ih c x hx).mpr hholds⟩

theorem Valid.leaves_ne_nil (h : Valid ascii p n) : n.leaves ≠ [] := by
  obtain ⟨k, v, -, hholds⟩ := h.minimum_holds
  exact List.ne_nil_of_mem (h.mem_leaves.mpr hholds)

/-- A relation between keys that stand below different children, in the order of the children, holds
    all along the leaves. -/
theorem Valid.pairwise_leaves {r : List UInt8 → List UInt8 → Prop} {t : UInt8 → UInt8 → Prop}
    (htable : ∀ {cs : Children (Node V)}, cs.Valid → (ascii → cs.Ordered) →
      cs.entries.Pairwise fun a b => t a.1 b.1)
    (hfork : ∀ {k l : List UInt8} {d}, (∀ i < d, byteAt k i = byteAt l i) →
      t (byteAt k d) (byteAt l d) → r k l)
    (h : Valid ascii p n) : (n.leaves.map Prod.fst).Pairwise r := by
  induction h with
  | leaf _ _ _ => simp
  | @inner p q cs table ordered below ih =>
    rw [leaves_inner, List.map_flatMap, List.pairwise_flatMap]
    refine ⟨fun e he => ih e.1 e.2 (table.shape.mem_entries.mp he), ?_⟩
    refine (htable table ordered).imp_of_mem ?_
    rintro ⟨c, x⟩ ⟨d, y⟩ hx hy hcd k hk l hl
    rw [table.shape.mem_entries] at hx hy
    obtain ⟨⟨k, v⟩, hkv, rfl⟩ := List.mem_map.mp hk
    obtain ⟨⟨l, w⟩, hlw, rfl⟩ := List.mem_map.mp hl
    have hk' := (below c x hx).mem_leaves.mp hkv
    have hl' := (below d y hy).mem_leaves.mp hlw
    -- the keys agree along the path of the node, and part at the bytes of the children
    refine hfork (d := p.length + q.length) (fun i hi => ?_) ?_
    · have hik := (leads_iff.mp ((below c x hx).leads hk')).2 i (by simp; omega)
      have hil := (leads_iff.mp ((below d y hy).leads hl')).2 i (by simp; omega)
      have hi' : i < (p ++ q).length := by rwa [List.length_append]
      rw [← hik, ← hil, byteAt_append_left hi', byteAt_append_left hi']
    · rw [byte_eq below hx hk', byte_eq below hy hl']
      exact hcd

/-- Every entry stands once in the list. -/
theorem Valid.distinct_leaves (h : Valid ascii p n) : Distinct n.leaves := by
  refine h.pairwise_leaves (t := (· ≠ ·)) (fun table _ => ?_) ?_
  · exact List.pairwise_map.mp table.shape.distinct
  · rintro k l d - hne rfl
    exact hne rfl

/-- Keys compare as their bytes do where they part; the end of a key comes before every byte. -/
theorem lt_of_byteAt_lt {d : ℕ} (hsame : ∀ i < d, byteAt k i = byteAt l i)
    (hlt : byteAt k d < byteAt l d) : k < l := by
  -- over the first place at which the names differ; names that end have zeros there
  induction d generalizing k l with
  | zero =>
    cases l with
    | nil => exact absurd hlt (by simp [byteAt])
    | cons b l =>
      cases k with
      | nil => exact List.nil_lt_cons b l
      | cons a k => exact List.cons_lt_cons_iff.mpr (Or.inl hlt)
  | succ d ih =>
    cases l with
    | nil => exact absurd hlt (by simp [byteAt])
    | cons b l =>
      cases k with
      | nil => exact List.nil_lt_cons b l
      | cons a k =>
        have hhead : a = b := hsame 0 (Nat.succ_pos d)
        refine List.cons_lt_cons_iff.mpr (Or.inr ⟨hhead, ih (fun i hi => ?_) hlt⟩)
        exact hsame (i + 1) (Nat.succ_lt_succ hi)

/-- Keys of 7-bit bytes are listed in their order. -/
theorem Valid.ordered_leaves (h : Valid ascii p n) (ha : ascii) :
    (n.leaves.map Prod.fst).Pairwise (· < ·) :=
  h.pairwise_leaves (t := (· < ·)) (fun _ ordered => List.pairwise_map.mp (ordered ha))
    lt_of_byteAt_lt

/-! ### The ends -/

/-- Unfolding lemma: `maximum` goes to the last child. -/
theorem maximum_inner (m : ℕ) (part : List UInt8) (cs : Children (Node V)) :
    (inner m part cs).maximum = cs.entries.getLast?.bind fun child => child.2.maximum := by
  rw [maximum]
  split
  case h_1 hnone => rw [hnone, Option.bind_none]
  case h_2 child hsome => rw [hsome, Option.bind_some]

/-- `minimum` is the first entry. -/
theorem Valid.minimum_eq (h : Valid ascii p n) : n.minimum = n.leaves.head? := by
  induction h with
  | leaf _ _ _ => rw [minimum, leaves_leaf, List.head?_cons]
  | inner table _ below ih =>
    rw [minimum_inner, leaves_inner]
    cases hes : Children.entries _ with
    | nil => rfl
    | cons e es =>
      have hx := table.shape.mem_entries.mp (by rw [hes]; exact List.mem_cons_self)
      have hne := (below e.1 e.2 hx).leaves_ne_nil
      rw [List.head?_cons, Option.bind_some, List.flatMap_cons, List.head?_append_of_ne_nil _ hne]
      exact ih e.1 e.2 hx

theorem Valid.maximum_eq (h : Valid ascii p n) : n.maximum = n.leaves.getLast? := by
  induction h with
  | leaf _ _ _ => rw [maximum, leaves_leaf, List.getLast?_singleton]
  | inner table _ below ih =>
    rw [maximum_inner, leaves_inner]
    rcases List.eq_nil_or_concat (Children.entries _) with hes | ⟨es, e, hes⟩
    · rw [hes]
      rfl
    · rw [List.concat_eq_append] at hes
      have hx := table.shape.mem_entries.mp (by rw [hes]; exact List.mem_concat_self)
      have hne := (below e.1 e.2 hx).leaves_ne_nil
      rw [hes, List.getLast?_concat, Option.bind_some, List.flatMap_append, List.flatMap_singleton,
        List.getLast?_append_of_ne_nil _ hne]
      exact ih e.1 e.2 hx

/-! ### The callback -/

section Callback

variable {α β : Type*} (f : α → σ → σ × Int32) (s : σ)

/-- A loop over two lists in turn stops in the first, or goes on with the second. -/
theorem iterLoop_append (xs ys : List α) :
    iterLoop f (xs ++ ys) s =
      if (iterLoop f xs s).2 ≠ 0 then iterLoop f xs s else iterLoop f ys (iterLoop f xs s).1 := by
  induction xs generalizing s with
  | nil => simp [iterLoop]
  | cons x xs ih =>
    simp only [List.cons_append, iterLoop]
    by_cases hne : (f x s).2 ≠ 0
    · simp only [if_pos hne]
    · simp only [if_neg hne]
      exact ih _

/-- A loop over images is a loop with the function in its body. -/
theorem iterLoop_map (g : β → α) (xs : List β) :
    iterLoop f (xs.map g) s = iterLoop (fun x => f (g x)) xs s := by
  induction xs generalizing s with
  | nil => rfl
  | cons x xs ih =>
    simp only [List.map_cons, iterLoop]
    rw [ih]

variable {f} in
/-- Only what the body does on the elements matters. -/
theorem iterLoop_congr {g : α → σ → σ × Int32} {xs : List α} (h : ∀ x ∈ xs, ∀ s, f x s = g x s) :
    iterLoop f xs s = iterLoop g xs s := by
  induction xs generalizing s with
  | nil => rfl
  | cons x xs ih =>
    simp only [iterLoop]
    rw [h x List.mem_cons_self s, ih _ fun y hy => h y (List.mem_cons_of_mem x hy)]

/-- A loop in the body of a loop is one loop over all of the elements: this turns the recursion of
    `recursive_iter` into one loop over the leaves. -/
theorem iterLoop_flatMap (g : β → List α) (xs : List β) :
    iterLoop f (xs.flatMap g) s = iterLoop (fun x => iterLoop f (g x)) xs s := by
  induction xs generalizing s with
  | nil => rfl
  | cons x xs ih =>
    rw [List.flatMap_cons, iterLoop_append]
    simp only [iterLoop]
    split
    · rfl
    · exact ih _

end Callback

/-- `cb(data, l->key, l->key_len, l->value)` for the entries in turn, until a call returns a
    non-zero value. -/
def visit (cb : σ → List UInt8 → V → σ × Int32) (es : List (List UInt8 × V)) (s : σ) : σ × Int32 :=
  iterLoop (fun e s => cb s e.1 e.2) es s

theorem visit_singleton (cb : σ → List UInt8 → V → σ × Int32) (k : List UInt8) (v : V) (s : σ) :
    visit cb [(k, v)] s = cb s k v := by
  simp only [visit, iterLoop]
  split
  · rfl
  case isFalse hzero => rw [← not_not.mp hzero]

/-- `recursive_iter` calls back for the entries below the node, in their order, until a call returns
    something other than 0. -/
theorem recursiveIter_eq (cb : σ → List UInt8 → V → σ × Int32) (n : Node V) (s : σ) :
    n.recursiveIter cb s = visit cb n.leaves s := by
  induction n using childInduction generalizing s with
  | leaf k v => rw [recursiveIter, leaves_leaf, visit_singleton]
  | inner m part cs ih =>
    rw [recursiveIter, leaves_inner, visit, iterLoop_flatMap,
      iterLoop_congr s (fun child _ s => ih child.1.1 child.1.2 child.2 s)]
    have hattach := iterLoop_map (fun (child : UInt8 × Node V) s => visit cb child.2.leaves s) s
      Subtype.val cs.entries.attach
    rw [List.attach_map_subtype_val] at hattach
    exact hattach.symm

/-! ### Iteration below a prefix -/

/-- `leaf_prefix_matches` tests that the name begins with the prefix. -/
theorem leafPrefixMatches_iff {key : Key} : leafPrefixMatches k key = true ↔ key.bytes <+: k := by
  unfold leafPrefixMatches Key.len
  rw [Bool.and_eq_true, decide_eq_true_iff, beq_iff_eq, List.prefix_iff_eq_take]
  constructor
  · exact fun h => h.2.symm
  · intro h
    refine ⟨?_, h.symm⟩
    have := congrArg List.length h
    rw [List.length_take] at this
    omega

/-- The entries whose key begins with the given bytes. -/
def withPrefix (pre : List UInt8) (es : List (List UInt8 × V)) : List (List UInt8 × V) :=
  es.filter fun e => pre.isPrefixOf e.1

/-- If all names begin with the prefix, none is left out. -/
theorem withPrefix_eq_self {es : List (List UInt8 × V)} {pre : List UInt8}
    (h : ∀ e ∈ es, pre <+: e.1) : withPrefix pre es = es := by
  refine List.filter_eq_self.mpr fun e he => ?_
  exact List.isPrefixOf_iff_prefix.mpr (h e he)

/-- Only one child has keys with a prefix that reaches below the node. -/
theorem withPrefix_leaves_inner (table : cs.Valid)
    (below : ∀ c x, cs.findChild c = some x → Valid ascii (p ++ q ++ [c]) x)
    (hx : cs.findChild c = some x) {pre : List UInt8}
    (hlen : p.length + q.length < pre.length) (hc : byteAt pre (p.length + q.length) = c) :
    withPrefix pre (inner m part cs).leaves = withPrefix pre x.leaves := by
  -- below another byte no name begins with the prefix
  have hnone : ∀ e ∈ cs.entries, e.1 ≠ c → withPrefix pre e.2.leaves = [] := by
    rintro ⟨d, y⟩ he hd
    refine List.filter_eq_nil_iff.mpr fun ⟨k, v⟩ hk hpre => hd ?_
    have hy := table.shape.mem_entries.mp he
    have hholds := (below d y hy).mem_leaves.mp hk
    rw [← byte_eq below hy hholds, ← hc]
    obtain ⟨r, hr⟩ := List.isPrefixOf_iff_prefix.mp hpre
    simp only at hr
    rw [← hr, byteAt_append_left hlen]
  -- the child of the byte stands once among the children
  obtain ⟨l₁, l₂, hes⟩ := List.append_of_mem (table.shape.mem_entries.mpr hx)
  have hdistinct := table.shape.distinct
  rw [hes] at hdistinct
  have hne : ∀ e, e ∈ l₁ ∨ e ∈ l₂ → e.1 ≠ c := by
    intro e he heq
    have hperm := hdistinct.perm List.perm_middle
    refine (distinct_cons.mp hperm).1 ?_
    have hmem := List.mem_map_of_mem (f := Prod.fst) (List.mem_append.mpr he)
    rwa [heq] at hmem
  -- so the children before it and after it contribute nothing
  have hskip : ∀ es : List (UInt8 × Node V), (∀ e ∈ es, e ∈ cs.entries ∧ e.1 ≠ c) →
      withPrefix pre (es.flatMap fun child => child.2.leaves) = [] := by
    intro es hall
    refine List.filter_eq_nil_iff.mpr fun e he => ?_
    obtain ⟨child, hchild, he⟩ := List.mem_flatMap.mp he
    have := hnone child (hall child hchild).1 (hall child hchild).2
    exact List.filter_eq_nil_iff.mp this e he
  rw [leaves_inner, hes, List.flatMap_append, List.flatMap_cons]
  have h₁ := hskip l₁ fun e he => ⟨by rw [hes]; simp [he], hne e (Or.inl he)⟩
  have h₂ := hskip l₂ fun e he => ⟨by rw [hes]; simp [he], hne e (Or.inr he)⟩
  unfold withPrefix at h₁ h₂ ⊢
  rw [List.filter_append, List.filter_append, h₁, h₂, List.append_nil, List.nil_append]

/-- All keys below a node begin with a string that its path covers. -/
theorem Valid.withPrefix_leaves (h : Valid ascii p n) {pre : List UInt8} (hzero : 0 ∉ pre)
    (hpre : ∀ k v, Holds n k v → pre <+: k ++ [0]) : withPrefix pre n.leaves = n.leaves := by
  refine withPrefix_eq_self fun ⟨k, v⟩ hk => ?_
  have hleads := hpre k v (h.mem_leaves.mp hk)
  exact List.prefix_of_prefix_length_le hleads (leads_self k)
    (le_length_of_zero_notMem hzero hleads)

/-- If some key below has the prefix, then exactly the entries with the prefix are visited. -/
theorem Valid.iterPrefix_eq (h : Valid ascii p n) (s : CString) (hp : p <+: s.bytes)
    (hk : Holds n k v) (hpre : s.bytes <+: k) (cb : σ → List UInt8 → V → σ × Int32) (data : σ) :
    n.iterPrefix cb s.toKey p.length data = visit cb (withPrefix s.bytes n.leaves) data := by
  induction h with
  | leaf _ _ _ =>
    obtain ⟨rfl, rfl⟩ := holds_leaf_iff.mp hk
    rw [iterPrefix, if_pos (leafPrefixMatches_iff.mpr hpre), leaves_leaf,
      withPrefix_eq_self (by simpa using hpre), visit_singleton]
  | @inner p q cs table ordered below ih =>
    have h := Valid.inner (p := p) (q := q) table ordered below
    have hlen := hp.length_le
    -- the prefix as a path, for as far as the compressed path goes
    obtain ⟨c, x, hx, hk'⟩ := holds_inner_iff.mp hk
    have hleads := (below c x hx).leads hk'
    have hbytes : ∀ i, i < q.length → p.length + i < s.bytes.length →
        byteAt q i = byteAt s.bytes (p.length + i) := by
      intro i hi hi'
      have hpath := (leads_iff.mp hleads).2 (p.length + i) (by simp; omega)
      rw [byteAt_append_left (by simp; omega), byteAt_append_right] at hpath
      obtain ⟨r, rfl⟩ := hpre
      rw [hpath, byteAt_append_left hi']
    have hall : ∀ len, len ≤ q.length → s.bytes.length = p.length + len →
        withPrefix s.bytes (Node.inner q.length (q.take maxPrefixLen) cs).leaves
          = (Node.inner q.length (q.take maxPrefixLen) cs).leaves := by
      intro len hlen' heq
      have hs : s.bytes = p ++ q.take len := by
        refine List.ext_getElem (by simp; omega) fun i hi hi' => ?_
        rw [← byteAt_of_lt hi, ← byteAt_of_lt hi']
        rcases Nat.lt_or_ge i p.length with hlt | hge
        · obtain ⟨r, hr⟩ := hp
          rw [← hr, byteAt_append_left hlt, byteAt_append_left hlt]
        · obtain ⟨j, rfl⟩ := Nat.exists_eq_add_of_le hge
          rw [byteAt_append_right, byteAt_take (by omega), hbytes j (by omega) hi]
      refine h.withPrefix_leaves s.nonzero fun k v hk => ?_
      obtain ⟨d, y, hy, hk⟩ := holds_inner_iff.mp hk
      have hd := (below d y hy).leads hk
      rw [List.append_assoc] at hd
      rw [hs]
      refine List.IsPrefix.trans ?_ hd
      rw [List.prefix_append_right_inj]
      exact (List.take_prefix len q).trans (List.prefix_append q [d])
    obtain ⟨hend, hsame, hdiff⟩ := prefixMismatch_spec h below s hlen rfl
    rw [iterPrefix]
    split
    case isTrue hdepth =>
      obtain ⟨l, w, hmin, hholds⟩ := h.minimum_holds
      rw [hall 0 (Nat.zero_le _) (by rw [hdepth]; rfl), hmin]
      have hl : s.bytes <+: l := by
        have hmem := h.mem_leaves.mpr hholds
        rw [← hall 0 (Nat.zero_le _) (by rw [hdepth]; rfl)] at hmem
        exact List.isPrefixOf_iff_prefix.mp (List.mem_filter.mp hmem).2
      simp only
      rw [if_pos (leafPrefixMatches_iff.mpr hl), recursiveIter_eq]
    case isFalse hdepth =>
      have hdepth' : p.length ≠ s.bytes.length := hdepth
      generalize prefixMismatch q.length (q.take maxPrefixLen) cs s.toKey p.length = diff at *
      -- a difference within the prefix is excluded by the key that has it
      have hfull : diff < q.length → p.length + diff = s.bytes.length := by
        intro hlt
        by_contra hne
        exact hdiff hlt (hbytes diff hlt (by omega))
      simp only
      split
      case isTrue hzero =>
        have := hfull (by omega)
        omega
      case isFalse =>
        split
        case isTrue hcover =>
          have hcover' : p.length + min diff q.length = s.bytes.length := hcover.2
          rw [hall _ (Nat.min_le_right _ _) hcover'.symm, recursiveIter_eq]
        case isFalse hcover =>
          have hlong : q.length ≤ diff := by
            by_contra hlt
            refine hcover ⟨by omega, ?_⟩
            have := hfull (by omega)
            rw [Nat.min_eq_left (by omega)]
            exact this
          have hshort : p.length + q.length < s.bytes.length := by
            rcases Nat.eq_zero_or_pos q.length with hq | hq
            · omega
            · have hne : p.length + q.length ≠ s.bytes.length := by
                intro heq
                refine hcover ⟨by omega, ?_⟩
                rw [Nat.min_eq_right hlong]
                exact heq
              omega
          have hget : s.toKey.get (p.length + q.length) = c := by
            have hpath := (leads_iff.mp hleads).2 (p.length + q.length) (by simp)
            rw [← List.length_append, byteAt_concat, List.length_append] at hpath
            obtain ⟨r, hr⟩ := hpre
            rw [s.get_eq (by omega), hpath, ← hr, byteAt_append_left hshort]
          rw [hget]
          have hpath : p ++ q ++ [c] <+: s.bytes := by
            refine List.prefix_of_prefix_length_le hleads ?_ (by simp; omega)
            exact hpre.trans (leads_self k)
          split
          case h_1 hnone =>
            rw [hx] at hnone
            cases hnone
          case h_2 y hy =>
            obtain rfl := Option.some.inj (hx.symm.trans hy)
            have hstep := ih c x hx hpath hk'
            rw [List.length_append, List.length_append, List.length_singleton] at hstep
            rw [hstep, withPrefix_leaves_inner table below hx hshort ?_]
            rw [← hget, s.get_eq (by omega)]

end Node

end Niuchacz.Art
