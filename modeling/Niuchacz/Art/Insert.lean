import Niuchacz.Art.Lookup

namespace Niuchacz.Art

open Lib.Keyed

namespace Node

/-!
# Insertion into the radix tree

* `valid_join` — the node4 above two nodes whose paths part.
* `fork` — where two keys part, for the leaf that a new key meets.
* `prefixMismatch_spec` — where a key leaves the compressed path of a node, also where the stored
  bytes do not tell and a leaf below has to.
* `splitPrefix_eq` — the two halves of a compressed path that is split.
* `Valid.inserted` — `recursive_insert` keeps the tree valid, adds or overwrites the one key, and
  returns the value that stood there.
-/

universe u

variable {V : Type u} {n x y : Node V} {p q k : List UInt8} {v w : V} {c d : UInt8} {depth : ℕ}
  {cs : Children (Node V)} {ascii : Prop}

/-! ### Slices -/

theorem length_slice (bytes : ℕ → UInt8) (offset len : ℕ) :
    (slice bytes offset len).length = len := by
  simp [slice]

/-- Cutting a slice shortens it; so the stored part of a prefix is a slice too. -/
theorem take_slice (bytes : ℕ → UInt8) (offset len j : ℕ) :
    (slice bytes offset len).take j = slice bytes offset (min j len) := by
  simp [slice, ← List.map_take, List.take_range]

/-- The bytes of a slice are read where they come from. -/
theorem byteAt_slice (bytes : ℕ → UInt8) (offset : ℕ) {len i : ℕ} (h : i < len) :
    byteAt (slice bytes offset len) i = bytes (offset + i) := by
  rw [byteAt_of_lt (by rwa [length_slice])]
  simp [slice]

/-- A path is prolonged along a key. -/
theorem leads_append (hp : p <+: k ++ [0]) (hlen : p.length + q.length ≤ k.length + 1)
    (hq : ∀ i < q.length, byteAt q i = byteAt k (p.length + i)) : p ++ q <+: k ++ [0] := by
  rw [leads_iff] at hp ⊢
  refine ⟨by rwa [List.length_append], fun i hi => ?_⟩
  rcases Nat.lt_or_ge i p.length with hlt | hge
  · rw [byteAt_append_left hlt, hp.2 i hlt]
  · obtain ⟨j, rfl⟩ := Nat.exists_eq_add_of_le hge
    rw [List.length_append] at hi
    rw [byteAt_append_right, hq j (by omega)]

/-! ### Two nodes below a new one -/

/-- The last byte of a path is one of the keys there. -/
theorem Valid.byte_lt (h : Valid ascii (p ++ [c]) x) (ha : ascii) : c < 128 := by
  obtain ⟨k, v, -, hholds⟩ := h.minimum_holds
  have hbyte := (leads_iff.mp (h.leads hholds)).2 p.length (by simp)
  rw [byteAt_concat] at hbyte
  rcases Nat.lt_or_ge p.length k.length with hlt | hge
  · rw [byteAt_of_lt hlt] at hbyte
    rw [hbyte]
    exact h.low hholds ha _ (List.getElem_mem hlt)
  · rw [byteAt_of_le hge] at hbyte
    rw [hbyte]
    decide

theorem ordered_nil : (Children.node4 ([] : List (UInt8 × Node V))).Ordered :=
  List.Pairwise.nil

/-- Two nodes of different next bytes under a new node4: this is what a split of a leaf and a
    split of a prefix both come to. -/
theorem valid_join (hx : Valid ascii (p ++ q ++ [c]) x) (hy : Valid ascii (p ++ q ++ [d]) y)
    (hcd : c ≠ d) :
    Valid ascii p (join q.length (q.take maxPrefixLen) c x d y)
      ∧ ∀ k w, Holds (join q.length (q.take maxPrefixLen) c x d y) k w
        ↔ Holds x k w ∨ Holds y k w := by
  obtain ⟨htable, hfind⟩ := Children.pair_spec hcd x y
  have hfind' := fun b => congrFun hfind b
  constructor
  · refine Valid.inner htable (fun ha => ?_) (fun b z hz => ?_)
    · -- both bytes are of 7 bits, so either comparison puts them in order
      have hone : ((Children.node4 []).addChild c x).entries = [(c, x)] := by
        simp [Children.addChild, Children.addChild4, insertBefore]
      have hnone : ((Children.node4 []).addChild c x).findChild d = none := by
        simp [Children.addChild, Children.addChild4, insertBefore, List.lookup_cons,
          beq_false_of_ne hcd.symm]
      refine Children.ordered_addChild ?_ ?_ (hy.byte_lt ha) hnone y
      · exact Children.ordered_addChild ordered_nil (by simp) (hx.byte_lt ha) rfl x
      · intro e he
        rw [hone, List.mem_singleton] at he
        rw [he]
        exact hx.byte_lt ha
    · rw [hfind' b, Function.update_apply, Function.update_apply] at hz
      split at hz
      case isTrue hb =>
        obtain rfl := Option.some.inj hz
        rw [hb]
        exact hy
      case isFalse =>
        split at hz
        case isTrue hb =>
          obtain rfl := Option.some.inj hz
          rw [hb]
          exact hx
        case isFalse => cases hz
  · intro k w
    unfold join
    rw [holds_inner_iff]
    constructor
    · rintro ⟨b, z, hz, hholds⟩
      rw [hfind' b, Function.update_apply, Function.update_apply] at hz
      split at hz
      · obtain rfl := Option.some.inj hz
        exact Or.inr hholds
      · split at hz
        · obtain rfl := Option.some.inj hz
          exact Or.inl hholds
        · cases hz
    · rintro (hholds | hholds)
      · exact ⟨c, x, by rw [hfind' c, Function.update_of_ne hcd, Function.update_self], hholds⟩
      · exact ⟨d, y, by rw [hfind' d, Function.update_self], hholds⟩

/-! ### A leaf in the way -/

/-- Two different keys on one path part behind their longest common part, at the latest where one
    of them ends. -/
theorem fork (s : CString) {l : ℕ} (hk : 0 ∉ k) (hne : k ≠ s.bytes) (hpk : p <+: k ++ [0])
    (hps : p <+: s.bytes ++ [0]) (hl : l = longestCommonPrefix k s.bytes p.length) :
    p ++ slice s.toKey.get p.length l <+: s.bytes ++ [0]
      ∧ p ++ slice s.toKey.get p.length l <+: k ++ [0]
      ∧ p.length + l ≤ k.length ∧ p.length + l ≤ s.bytes.length
      ∧ byteAt k (p.length + l) ≠ byteAt s.bytes (p.length + l) := by
  have hzero : 0 ∉ p := fun h => hne (eq_of_leads_terminated hk s.nonzero h hpk hps)
  have hpk' := le_length_of_zero_notMem hzero hpk
  have hps' := le_length_of_zero_notMem hzero hps
  obtain ⟨-, hmax, hsame, hdiff⟩ := mismatch_spec (fun i => byteAt k (p.length + i))
    (fun i => byteAt s.bytes (p.length + i)) (min k.length s.bytes.length - p.length) 0
  rw [show mismatch (fun i => byteAt k (p.length + i)) (fun i => byteAt s.bytes (p.length + i))
    (min k.length s.bytes.length - p.length) 0 = l from hl.symm] at hmax hsame hdiff
  have hslice : ∀ i < l,
      byteAt (slice s.toKey.get p.length l) i = byteAt s.bytes (p.length + i) := by
    intro i hi
    rw [byteAt_slice _ _ hi, s.get_eq (by omega)]
  refine ⟨?_, ?_, by omega, by omega, ?_⟩
  · exact leads_append hps (by rw [length_slice]; omega)
      (fun i hi => hslice i (by rwa [length_slice] at hi))
  · refine leads_append hpk (by rw [length_slice]; omega) (fun i hi => ?_)
    rw [length_slice] at hi
    rw [hslice i hi, hsame i (Nat.zero_le i) hi]
  · rcases Nat.lt_or_ge l (min k.length s.bytes.length - p.length) with hlt | hge
    · exact hdiff hlt
    · intro heq
      -- the shorter key ends here, so that the other one has to end here as well
      have hlen : k.length = s.bytes.length := by
        rcases Nat.lt_trichotomy k.length s.bytes.length with hlt | hlen | hlt
        · refine absurd ?_ (byteAt_ne_zero s.nonzero (i := p.length + l) (by omega))
          rw [← heq, byteAt_of_le (by omega)]
        · exact hlen
        · refine absurd ?_ (byteAt_ne_zero hk (i := p.length + l) (by omega))
          rw [heq, byteAt_of_le (by omega)]
      refine hne (List.ext_getElem hlen fun i hi hi' => ?_)
      rw [← byteAt_of_lt hi, ← byteAt_of_lt hi']
      rcases Nat.lt_or_ge i p.length with hlt | hge'
      · rw [← (leads_iff.mp hpk).2 i hlt, ← (leads_iff.mp hps).2 i hlt]
      · obtain ⟨j, rfl⟩ := Nat.exists_eq_add_of_le hge'
        exact hsame j (Nat.zero_le j) (by omega)

/-! ### A compressed path in the way -/

section Inner

variable (h : Valid ascii p (inner q.length (q.take maxPrefixLen) cs))
  (below : ∀ c x, cs.findChild c = some x → Valid ascii (p ++ q ++ [c]) x)

include h below in
/-- The least leaf below a node spells its compressed path out. -/
theorem minimum_path :
    ∃ l v, (inner q.length (q.take maxPrefixLen) cs).minimum = some (l, v)
      ∧ p.length + q.length ≤ l.length
      ∧ ∀ i < q.length, byteAt l (p.length + i) = byteAt q i := by
  obtain ⟨l, v, hmin, hholds⟩ := h.minimum_holds
  obtain ⟨c, x, hx, hbelow⟩ := holds_inner_iff.mp hholds
  obtain ⟨hlen, hbytes⟩ := leads_iff.mp ((below c x hx).leads hbelow)
  refine ⟨l, v, hmin, ?_, fun i hi => ?_⟩
  · simp at hlen
    omega
  · rw [← hbytes (p.length + i) (by simp; omega), byteAt_append_left (by simp; omega),
      byteAt_append_right]

include h below in
/-- `prefix_mismatch` tells how far a key follows the compressed path: within the key, and if it
    stays below the length of the path then the next bytes differ. -/
theorem prefixMismatch_spec (s : CString) {diff : ℕ} (hp : p.length ≤ s.bytes.length)
    (hd : diff = prefixMismatch q.length (q.take maxPrefixLen) cs s.toKey p.length) :
    p.length + diff ≤ s.bytes.length
      ∧ (∀ i < diff, i < q.length → byteAt q i = byteAt s.bytes (p.length + i))
      ∧ (diff < q.length → byteAt q diff ≠ byteAt s.bytes (p.length + diff)) := by
  have hq : 0 ∉ q := fun hz => zero_notMem_path h below (List.mem_append_right p hz)
  -- a key that ends on the path differs from it by its terminator
  have hends : ∀ d, p.length + d = s.bytes.length → d < q.length →
      byteAt q d ≠ byteAt s.bytes (p.length + d) := by
    intro d hlen hlt
    rw [byteAt_of_le (k := s.bytes) (by omega)]
    exact byteAt_ne_zero hq hlt
  have hkey : s.toKey.len = s.bytes.length := rfl
  simp only [prefixMismatch] at hd
  obtain ⟨-, hmax, hsame, hdiff⟩ := mismatch_spec (byteAt (q.take maxPrefixLen))
    (fun i => s.toKey.get (p.length + i))
    (min (min maxPrefixLen q.length) (s.toKey.len - p.length)) 0
  generalize mismatch (byteAt (q.take maxPrefixLen)) (fun i => s.toKey.get (p.length + i))
    (min (min maxPrefixLen q.length) (s.toKey.len - p.length)) 0 = idx at hd hmax hsame hdiff
  have hstored : ∀ i < idx, byteAt q i = byteAt s.bytes (p.length + i) := by
    intro i hi
    have := hsame i (Nat.zero_le i) hi
    rwa [byteAt_take (by omega), s.get_eq (by omega)] at this
  split at hd
  case isTrue hlt =>
    subst hd
    refine ⟨by omega, fun i hi _ => hstored i hi, fun _ => ?_⟩
    have := hdiff hlt
    rwa [byteAt_take (by omega), s.get_eq (by omega)] at this
  case isFalse hge =>
    split at hd
    case isTrue hlong =>
      obtain ⟨l, v, hmin, hlen, hl⟩ := minimum_path h below
      rw [hmin] at hd
      simp only at hd
      obtain ⟨hle, hmax', hsame', hdiff'⟩ := mismatch_spec (fun i => byteAt l (p.length + i))
        (fun i => s.toKey.get (p.length + i)) (min l.length s.toKey.len - p.length) idx
      rw [← hd] at hle hmax' hsame' hdiff'
      refine ⟨by omega, fun i hi hiq => ?_, fun hlt => ?_⟩
      · rcases Nat.lt_or_ge i idx with hi' | hi'
        · exact hstored i hi'
        · have := hsame' i hi' hi
          rwa [hl i hiq, s.get_eq (by omega)] at this
      · rcases Nat.lt_or_ge diff (min l.length s.toKey.len - p.length) with hlt' | hge'
        · have := hdiff' hlt'
          rwa [hl diff hlt, s.get_eq (by omega)] at this
        · exact hends diff (by omega) hlt
    case isFalse hshort =>
      subst hd
      exact ⟨by omega, fun i hi _ => hstored i hi, fun hlt => hends _ (by omega) hlt⟩

include h below in
/-- The node4 of a split has the path up to the byte where the key leaves it, the old node what is
    behind. -/
theorem splitPrefix_eq (s : CString) {diff : ℕ} (hlt : diff < q.length)
    (hlen : p.length + diff ≤ s.bytes.length) :
    splitPrefix q.length (q.take maxPrefixLen) cs s.toKey v p.length diff
      = join (q.take diff).length ((q.take diff).take maxPrefixLen) (byteAt q diff)
        (inner (q.drop (diff + 1)).length ((q.drop (diff + 1)).take maxPrefixLen) cs)
        (byteAt s.bytes (p.length + diff)) (leaf s.bytes v) := by
  have htake : (q.take maxPrefixLen).take (min maxPrefixLen diff)
      = (q.take diff).take maxPrefixLen := by
    rw [List.take_take, List.take_take]
    congr 1
    omega
  have hlength : (q.take diff).length = diff := by
    rw [List.length_take]
    omega
  have hdrop : q.length - (diff + 1) = (q.drop (diff + 1)).length := by
    rw [List.length_drop]
  unfold splitPrefix
  simp only [htake, s.get_eq hlen, hlength, hdrop]
  split
  -- ==> the whole prefix is stored in the node
  case isTrue hshort =>
    rw [List.take_of_length_le hshort]
    congr 2
    rw [List.take_eq_take_iff]
    omega
  -- ==> the prefix is longer than what is stored: its bytes are taken from the least leaf
  case isFalse hlong =>
    obtain ⟨l, w, hmin, hlen', hl⟩ := minimum_path h below
    rw [hmin, Option.map_some, Option.getD_some, hl diff hlt]
    congr 2
    refine List.ext_getElem (by rw [length_slice, List.length_take]) fun i hi hi' => ?_
    rw [length_slice, List.length_drop] at hi
    rw [← byteAt_of_lt, byteAt_slice _ _ (by rw [List.length_drop]; exact hi), List.getElem_take,
      List.getElem_drop, ← byteAt_of_lt, ← hl _ (by omega)]
    congr 1
    omega

end Inner

/-! ### Insertion -/

/-- What insertion of a string with a value makes of a node. -/
structure Inserted (ascii : Prop) (p : List UInt8) (n : Node V) (s : CString) (v : V)
    (r : Node V × Option V) : Prop where
  valid : Valid ascii p r.1
  holds : ∀ k w, Holds r.1 k w ↔ if k = s.bytes then w = v else Holds n k w
  old : ∀ w, r.2 = some w ↔ Holds n s.bytes w

/-- A new leaf is valid on every path that leads to its name. -/
theorem valid_newLeaf (s : CString) (hlow : ascii → ∀ b ∈ s.bytes, b < 128)
    (hp : p <+: s.bytes ++ [0]) (v : V) : Valid ascii p (leaf s.bytes v) :=
  Valid.leaf s.nonzero hlow hp

/-- The string is new: its leaf comes to stand beside what was there. -/
theorem Inserted.of_new {s : CString} {n' : Node V} (hvalid : Valid ascii p n')
    (hnew : ∀ w, ¬ Holds n s.bytes w)
    (hholds : ∀ k w, Holds n' k w ↔ Holds n k w ∨ Holds (leaf s.bytes v) k w) :
    Inserted ascii p n s v (n', none) := by
  refine ⟨hvalid, fun k w => ?_, fun w => ?_⟩
  · rw [hholds, holds_leaf_iff]
    by_cases hk : k = s.bytes
    · subst hk
      simp [hnew w]
    · simp [hk]
  · simp [hnew w]

/-- At a leaf the value is replaced, or the leaf is split at the first byte in which the names
    differ. -/
theorem inserted_leaf (s : CString) (hlow : ascii → ∀ b ∈ s.bytes, b < 128) (v : V)
    (h : Valid ascii p (leaf k w)) (hp : p <+: s.bytes ++ [0]) :
    Inserted ascii p (leaf k w) s v ((leaf k w).recursiveInsert s.toKey v p.length) := by
  have hk : 0 ∉ k := h.nonzero Holds.leaf
  have hpk : p <+: k ++ [0] := h.leads Holds.leaf
  rw [recursiveInsert]
  split
  -- ==> the name is there: its value is replaced
  case isTrue hmatch =>
    obtain rfl := leafMatches_iff.mp hmatch
    refine ⟨valid_newLeaf s hlow hp v, fun k' w' => ?_, fun w' => ?_⟩
    · rw [holds_leaf_iff, holds_leaf_iff]
      by_cases hk' : k' = s.bytes <;> simp [hk']
    · rw [holds_leaf_iff]
      simp [eq_comm]
  -- ==> another name: both leaves go below a new node for their common part
  case isFalse hmatch =>
    have hne : k ≠ s.bytes := fun heq => hmatch (leafMatches_iff.mpr heq)
    obtain ⟨hs, hk', hlenk, hlens, hbyte⟩ := fork s hk hne hpk hp rfl
    generalize longestCommonPrefix k s.bytes p.length = l at *
    have hold : Valid ascii (p ++ slice s.toKey.get p.length l ++ [byteAt k (p.length + l)])
        (leaf k w) := by
      refine Valid.leaf hk (h.low Holds.leaf) (leads_concat hk' ?_ ?_) <;>
        simp [length_slice, hlenk]
    have hnew : Valid ascii (p ++ slice s.toKey.get p.length l ++ [byteAt s.bytes (p.length + l)])
        (leaf s.bytes v) := by
      refine valid_newLeaf s hlow (leads_concat hs ?_ ?_) v <;>
        simp [length_slice, hlens]
    obtain ⟨hvalid, hholds⟩ := valid_join hold hnew hbyte
    rw [length_slice, take_slice] at hvalid hholds
    refine Inserted.of_new hvalid (fun w' hw' => ?_) hholds
    exact hne (holds_leaf_iff.mp hw').1.symm

section Inner

variable (s : CString) (hlow : ascii → ∀ b ∈ s.bytes, b < 128) (v : V)
  (table : cs.Valid) (ordered : ascii → cs.Ordered)
  (below : ∀ c x, cs.findChild c = some x → Valid ascii (p ++ q ++ [c]) x)

include hlow table ordered below in
/-- The key leaves the compressed path. -/
theorem inserted_split {diff : ℕ} (hlt : diff < q.length) (hp : p <+: s.bytes ++ [0])
    (hlen : p.length + diff ≤ s.bytes.length)
    (hsame : ∀ i < diff, i < q.length → byteAt q i = byteAt s.bytes (p.length + i))
    (hdiff : byteAt q diff ≠ byteAt s.bytes (p.length + diff)) :
    Inserted ascii p (inner q.length (q.take maxPrefixLen) cs) s v
      (splitPrefix q.length (q.take maxPrefixLen) cs s.toKey v p.length diff, none) := by
  have h := Valid.inner (p := p) (q := q) table ordered below
  have hpath : q.take diff ++ [byteAt q diff] ++ q.drop (diff + 1) = q := by
    rw [byteAt_of_lt hlt, List.append_assoc, List.singleton_append, ← List.drop_eq_getElem_cons hlt,
      List.take_append_drop]
  have htake : (q.take diff).length = diff := by
    rw [List.length_take]
    omega
  -- the old node, with what is left of its prefix
  have hold : Valid ascii (p ++ q.take diff ++ [byteAt q diff])
      (inner (q.drop (diff + 1)).length ((q.drop (diff + 1)).take maxPrefixLen) cs) := by
    refine Valid.inner table ordered fun c x hx => ?_
    have hx' := below c x hx
    rw [← hpath] at hx'
    simpa only [List.append_assoc] using hx'
  have hs : p ++ q.take diff <+: s.bytes ++ [0] := by
    refine leads_append hp (by omega) fun i hi => ?_
    rw [byteAt_take (by omega), hsame i (by omega) (by omega)]
  -- the new leaf branches off at the first byte that differs
  have hnew : Valid ascii (p ++ q.take diff ++ [byteAt s.bytes (p.length + diff)])
      (leaf s.bytes v) := by
    refine valid_newLeaf s hlow (leads_concat hs ?_ ?_) v
    · rw [List.length_append, htake]
      exact hlen
    · rw [List.length_append, htake]
  obtain ⟨hvalid, hholds⟩ := valid_join hold hnew hdiff
  rw [splitPrefix_eq h below s hlt hlen]
  refine Inserted.of_new hvalid (fun w hw => ?_) (fun k w => ?_)
  -- the name is not below the old node: it differs in a byte of the prefix
  · obtain ⟨c, x, hx, hw⟩ := holds_inner_iff.mp hw
    have hbyte := (leads_iff.mp ((below c x hx).leads hw)).2 (p.length + diff) (by simp; omega)
    rw [byteAt_append_left (by simp; omega), byteAt_append_right] at hbyte
    exact hdiff hbyte
  · rw [hholds, holds_inner_iff, holds_inner_iff]

include table ordered below in
/-- The node below a byte is replaced. -/
theorem valid_setChild (hx : cs.findChild c = some x) (hy : Valid ascii (p ++ q ++ [c]) y) :
    Valid ascii p (inner q.length (q.take maxPrefixLen) (cs.setChild c y)) := by
  refine Valid.inner (Children.valid_setChild table hx y)
    (fun ha => Children.ordered_setChild (ordered ha) c y) fun d z hz => ?_
  rw [congrFun (Children.findChild_setChild table.shape hx y) d, Function.update_apply] at hz
  split at hz
  case isTrue hd =>
    obtain rfl := Option.some.inj hz
    exact hd ▸ hy
  case isFalse => exact below d z hz

include below in
/-- The string can only stand below its own next byte. -/
theorem eq_of_holds_below (hs : p ++ q ++ [c] <+: s.bytes ++ [0]) (hx : cs.findChild d = some x)
    (hw : Holds x s.bytes w) : d = c := by
  have hbyte := (leads_iff.mp hs).2 (p.length + q.length) (by simp)
  rw [← List.length_append, byteAt_concat, List.length_append] at hbyte
  rw [hbyte, byte_eq below hx hw]

include table ordered below in
/-- The string goes on below the node. -/
theorem inserted_setChild (hs : p ++ q ++ [c] <+: s.bytes ++ [0]) (hx : cs.findChild c = some x)
    {r : Node V × Option V} (h : Inserted ascii (p ++ q ++ [c]) x s v r) :
    Inserted ascii p (inner q.length (q.take maxPrefixLen) cs) s v
      (inner q.length (q.take maxPrefixLen) (cs.setChild c r.1), r.2) := by
  obtain ⟨hvalid, hholds, hold⟩ := h
  have hfind := fun d => congrFun (Children.findChild_setChild table.shape hx r.1) d
  refine ⟨valid_setChild table ordered below hx hvalid, fun k w => ?_, fun w => ?_⟩
  · simp only [holds_inner_iff, hfind, Function.update_apply]
    constructor
    · rintro ⟨d, z, hz, hw⟩
      -- an entry of the new node is below the replaced child or below another one
      split at hz
      · obtain rfl := Option.some.inj hz
        rw [hholds] at hw
        by_cases hk : k = s.bytes
        · rwa [if_pos hk] at hw ⊢
        · rw [if_neg hk] at hw ⊢
          exact ⟨c, x, hx, hw⟩
      -- ==> the name itself is below no other child
      case isFalse hd =>
        have hk : k ≠ s.bytes := by
          rintro rfl
          exact hd (eq_of_holds_below s below hs hz hw)
        rw [if_neg hk]
        exact ⟨d, z, hz, hw⟩
    · intro hw
      by_cases hk : k = s.bytes
      · rw [if_pos hk] at hw
        exact ⟨c, r.1, by simp, (hholds k w).mpr (by rwa [if_pos hk])⟩
      · rw [if_neg hk] at hw
        obtain ⟨d, z, hz, hw⟩ := hw
        -- an old entry is found below its child, which may be the replaced one
        by_cases hd : d = c
        · subst hd
          obtain rfl := Option.some.inj (hx.symm.trans hz)
          exact ⟨d, r.1, by simp, (hholds k w).mpr (by rwa [if_neg hk])⟩
        · exact ⟨d, z, by rw [if_neg hd]; exact hz, hw⟩
  · rw [hold, holds_inner_iff]
    constructor
    · exact fun hw => ⟨c, x, hx, hw⟩
    · rintro ⟨d, z, hz, hw⟩
      obtain rfl := eq_of_holds_below s below hs hz hw
      obtain rfl := Option.some.inj (hx.symm.trans hz)
      exact hw

include hlow table ordered below in
/-- The string gets a leaf below the node. -/
theorem inserted_addChild (hs : p ++ q ++ [c] <+: s.bytes ++ [0]) (hx : cs.findChild c = none) :
    Inserted ascii p (inner q.length (q.take maxPrefixLen) cs) s v
      (inner q.length (q.take maxPrefixLen) (cs.addChild c (leaf s.bytes v)), none) := by
  obtain ⟨htable, hfind⟩ := Children.addChild_spec table hx (leaf s.bytes v)
  have hleaf : Valid ascii (p ++ q ++ [c]) (leaf s.bytes v) := valid_newLeaf s hlow hs v
  refine Inserted.of_new (Valid.inner htable (fun ha => ?_) fun d z hz => ?_)
    (fun w hw => ?_) (fun k w => ?_)
  -- order
  · refine Children.ordered_addChild (ordered ha) (fun e he => ?_) (hleaf.byte_lt ha) hx _
    exact (below e.1 e.2 (table.shape.mem_entries.mp he)).byte_lt ha
  -- the new child and the old ones are valid
  · rw [congrFun hfind d, Function.update_apply] at hz
    split at hz
    case isTrue hd =>
      obtain rfl := Option.some.inj hz
      exact hd ▸ hleaf
    case isFalse => exact below d z hz
  -- the name was not there: it could only have been below the byte that had no child
  · obtain ⟨d, z, hz, hw⟩ := holds_inner_iff.mp hw
    obtain rfl := eq_of_holds_below s below hs hz hw
    rw [hx] at hz
    cases hz
  -- the entries are the old ones and that of the new leaf
  · rw [holds_inner_iff, holds_inner_iff]
    simp only [fun d => congrFun hfind d, Function.update_apply]
    constructor
    · rintro ⟨d, z, hz, hw⟩
      split at hz
      · obtain rfl := Option.some.inj hz
        exact Or.inr hw
      · exact Or.inl ⟨d, z, hz, hw⟩
    · rintro (⟨d, z, hz, hw⟩ | hw)
      · have hd : d ≠ c := by
          rintro rfl
          rw [hx] at hz
          cases hz
        exact ⟨d, z, by rw [if_neg hd]; exact hz, hw⟩
      · exact ⟨c, _, by rw [if_pos rfl], hw⟩

end Inner

/-- `recursive_insert` at a path that the string follows so far. -/
theorem Valid.inserted (h : Valid ascii p n) (s : CString)
    (hlow : ascii → ∀ b ∈ s.bytes, b < 128) (v : V) (hp : p <+: s.bytes ++ [0]) :
    Inserted ascii p n s v (n.recursiveInsert s.toKey v p.length) := by
  induction h with
  | leaf hk hl hleads => exact inserted_leaf s hlow v (Valid.leaf hk hl hleads) hp
  | @inner p q cs table ordered below ih =>
    have h := Valid.inner (p := p) (q := q) table ordered below
    have hzero := zero_notMem_path h below
    have hlen : p.length ≤ s.bytes.length :=
      le_length_of_zero_notMem (fun hz => hzero (List.mem_append_left q hz)) hp
    obtain ⟨hend, hsame, hdiff⟩ := prefixMismatch_spec h below s hlen rfl
    rw [recursiveInsert]
    split
    -- ==> the key leaves the path inside of the prefix
    case isTrue hsplit =>
      exact inserted_split s hlow v table ordered below hsplit.2 hp hend hsame (hdiff hsplit.2)
    -- ==> the key follows the whole prefix
    case isFalse hfull =>
      generalize prefixMismatch q.length (q.take maxPrefixLen) cs s.toKey p.length = diff at *
      have hlong : q.length ≤ diff := by
        by_contra hlt
        exact hfull ⟨by omega, by omega⟩
      have hpq : p ++ q <+: s.bytes ++ [0] :=
        leads_append hp (by omega) fun i hi => hsame i (by omega) hi
      have hs : p ++ q ++ [s.toKey.get (p.length + q.length)] <+: s.bytes ++ [0] := by
        refine leads_concat hpq (by rw [List.length_append]; omega) ?_
        rw [s.get_eq (by omega), List.length_append]
      split
      -- ==> there is a child for the next byte: the recursion
      case h_1 x hx =>
        have hstep := ih _ x hx hs
        rw [List.length_append, List.length_append, List.length_singleton] at hstep
        exact inserted_setChild s v table ordered below hs hx hstep
      case h_2 hx => exact inserted_addChild s hlow v table ordered below hs hx

end Node

end Niuchacz.Art
