import Niuchacz.Bst.Model
import Niuchacz.Lib.SearchTree
import Niuchacz.Lib.Transition

namespace Niuchacz.Bst

open BinaryTree Timer Lib.SearchTree Lib.Transition

/-!
# Insertions and searches

The tree under the operations of the Ethernet cache: payloads of one size, deadlines given, and
an expire handler that always answers a positive number.  Then the tree is a search tree, its
operations are those of `Lib.SearchTree`, and it stands for a finite map.

* `find_eq_search`, `setDeadline_eq_put`, `insertLoop_eq_put` — the loops of the source.
* `Refines` — the tree stands for a map; `refines_insert`, `refines_search` — one step.
* `insert_search_refines` — whole runs.
-/

/-- The order of 64-bit words. -/
instance instLinearOrderUInt64 : LinearOrder UInt64 where
  le := (· ≤ ·)
  lt := (· < ·)
  le_refl := UInt64.le_refl
  le_trans := fun _ _ _ => UInt64.le_trans
  lt_iff_le_not_ge := fun a b => by
    rw [UInt64.lt_iff_toNat_lt, UInt64.le_iff_toNat_le, UInt64.le_iff_toNat_le]
    omega
  le_antisymm := fun _ _ => UInt64.le_antisymm
  le_total := UInt64.le_total
  toDecidableLE := inferInstance
  toDecidableLT := inferInstance
  toDecidableEq := inferInstance

variable {t : BinaryTree Node} {key k : UInt64} {n : Node} {size : ℕ}

/-! ### The loops of the source -/

/-- The search of `bst_search` is that of the library. -/
theorem find_eq_search (key : UInt64) (t : BinaryTree Node) :
    find key t = search Node.key key t := by
  induction t with
  | nil => rfl
  | node n l r ihl ihr =>
    simp only [find, search, sub]
    split
    · rfl
    · simp only [search] at ihl ihr
      split
      · exact ihl
      · exact ihr

/-- What is found has the key. -/
theorem find_key (h : find key t = some n) : n.key = key := by
  rw [find_eq_search] at h
  exact (mem_of_search h).2

/-- A new deadline is a store at the place of the key. -/
theorem setDeadline_eq_put (ts : Timespec) (h : find key t = some n) :
    setDeadline key ts t = put Node.key { n with dataTimeout := ts } t := by
  obtain rfl := find_key h
  -- both go the way of the search
  induction t with
  | nil => cases h
  | node b l r ihl ihr =>
    simp only [find] at h
    simp only [setDeadline, put_node]
    by_cases hb : b.key = n.key
    · rw [if_pos hb] at h
      cases h
      simp
    · rw [if_neg hb] at h
      by_cases hlt : b.key > n.key
      · rw [if_pos hlt] at h
        simp only [if_neg hb, if_pos hlt, ihl h]
      · rw [if_neg hlt] at h
        simp only [if_neg hb, if_neg hlt, ihr h]

/-- All payloads have one size. -/
def Sized (size : ℕ) (t : BinaryTree Node) : Prop := ∀ n ∈ inorder t, n.dataSize = size

/-- What is written into a node of the right size is its data. -/
theorem Node.data_write {n : Node} {pbuf : List UInt8} (h : n.dataSize = pbuf.length) :
    (n.write pbuf).data = pbuf := by
  unfold Node.dataSize at h
  simp [Node.write, ← h]

/-- A node is allocated with the size that is asked for. -/
theorem dataSize_allocNode (mem : Block) (key : UInt64) (size : ℕ) :
    (allocNode mem key size).dataSize = size := by
  simp [allocNode, Node.dataSize]

/-- `bst_insert` stores one node: the old one with a new payload, or a new one. -/
theorem insertLoop_eq_put (mem : Block) (key : UInt64) (pbuf : List UInt8) (ts : Timespec)
    (isRoot : Bool) (hsize : Sized pbuf.length t) (hfit : sizeofNode + pbuf.length < 2 ^ 64) :
    ∃ a : Node, a.key = key ∧ a.data = pbuf ∧
      insertLoop mem key pbuf (some ts) isRoot t = some (put Node.key a t) := by
  induction t generalizing isRoot with
  | nil =>
    have hdata := Node.data_write (dataSize_allocNode mem key pbuf.length)
    simp only [insertLoop, if_neg (Nat.not_le.mpr hfit), put_nil]
    cases isRoot with
    -- the deadline is set for a node with a parent only
    | true => exact ⟨_, rfl, hdata, rfl⟩
    | false => exact ⟨{ (allocNode mem key pbuf.length).write pbuf with dataTimeout := ts },
        rfl, hdata, rfl⟩
  | node n l r ihl ihr =>
    have hn : n.dataSize = pbuf.length := hsize n (by simp)
    have hl : Sized pbuf.length l := fun x hx => hsize x (by simp [hx])
    have hr : Sized pbuf.length r := fun x hx => hsize x (by simp [hx])
    simp only [insertLoop, put_node]
    by_cases hk : n.key = key
    · refine ⟨n.write pbuf, hk, Node.data_write hn, ?_⟩
      have hkey : n.key = (n.write pbuf).key := rfl
      rw [if_pos hk, if_pos (Nat.le_of_eq hn.symm), if_pos hkey]
    · by_cases hlt : n.key > key
      · obtain ⟨a, ha, hd, h⟩ := ihl false hl
        refine ⟨a, ha, hd, ?_⟩
        rw [if_neg hk, if_pos hlt, h, ha, if_neg hk, if_pos hlt]
        rfl
      · obtain ⟨a, ha, hd, h⟩ := ihr false hr
        refine ⟨a, ha, hd, ?_⟩
        rw [if_neg hk, if_neg hlt, h, ha, if_neg hk, if_neg hlt]
        rfl

/-! ### The map a tree stands for -/

/-- The payload under a key. -/
def payload (t : BinaryTree Node) (key : UInt64) : Option (List UInt8) := (find key t).map (·.data)

/-- A search tree with payloads of one size that stands for the map `m`. -/
structure Refines (size : ℕ) (t : BinaryTree Node) (m : UInt64 → Option (List UInt8)) : Prop where
  ordered : Ordered Node.key t
  sized : Sized size t
  map : payload t = m

/-- The empty tree is the empty map. -/
theorem refines_nil (size : ℕ) : Refines size nil fun _ => none where
  ordered := ordered_nil _
  sized := fun n hn => by cases hn
  map := rfl

/-- Storing a node stores its payload. -/
theorem Refines.put {m : UInt64 → Option (List UInt8)} (h : Refines size t m)
    (hn : n.dataSize = size) :
    Refines size (put Node.key n t) (Function.update m n.key (some n.data)) where
  ordered := h.ordered.put
  sized := by
    intro x hx
    rcases (mem_put h.ordered).mp hx with rfl | ⟨hx, -⟩
    · exact hn
    · exact h.sized x hx
  map := by
    ext1 k
    rw [payload, find_eq_search, search_put h.ordered]
    by_cases hk : k = n.key
    · rw [if_pos hk, hk, Function.update_self]
      rfl
    · rw [if_neg hk, Function.update_of_ne hk, ← h.map, payload, find_eq_search]

/-- A new deadline changes no payload. -/
theorem Refines.setDeadline {m : UInt64 → Option (List UInt8)} (h : Refines size t m)
    (hf : find key t = some n) (ts : Timespec) : Refines size (setDeadline key ts t) m := by
  have hn : n.dataSize = size := by
    refine h.sized n ?_
    rw [find_eq_search] at hf
    exact (mem_of_search hf).1
  have hput := h.put (n := { n with dataTimeout := ts }) hn
  have hsome : some n.data = m key := by rw [← h.map, payload, hf]; rfl
  simp only [find_key hf, hsome, Function.update_eq_self] at hput
  rw [setDeadline_eq_put _ hf, find_key hf]
  exact hput

/-- **Insertion.** -/
theorem refines_insert {m : UInt64 → Option (List UInt8)} (h : Refines size t m) (mem : Block)
    (key : UInt64) (pbuf : List UInt8) (ts : Timespec) (hsize : pbuf.length = size)
    (hfit : sizeofNode + size < 2 ^ 64) :
    ∃ t', bstInsert mem t key pbuf (some ts) = some (t', Int32.ofNat size) ∧
      Refines size t' (Function.update m key (some pbuf)) := by
  subst hsize
  obtain ⟨a, rfl, hd, ha⟩ := insertLoop_eq_put mem key pbuf ts true h.sized hfit
  have hput := h.put (n := a) (by rw [Node.dataSize, hd])
  rw [hd] at hput
  exact ⟨Lib.SearchTree.put Node.key a t, by rw [bstInsert, ha]; rfl, hput⟩

/-- An insertion brings in no other entry. -/
theorem mem_of_insert {mem : Block} {pbuf : List UInt8} {ts : Timespec} {t' : BinaryTree Node}
    {i : Int32} (hsize : Sized pbuf.length t) (hfit : sizeofNode + pbuf.length < 2 ^ 64)
    (h : bstInsert mem t key pbuf (some ts) = some (t', i)) :
    ∀ x ∈ inorder t', x.key = key ∧ x.data = pbuf ∨ x ∈ inorder t := by
  obtain ⟨a, ha, hd, hput⟩ := insertLoop_eq_put mem key pbuf ts true hsize hfit
  rw [bstInsert, hput] at h
  cases h
  intro x hx
  rcases mem_of_mem_put hx with rfl | hx
  · exact Or.inl ⟨ha, hd⟩
  · exact Or.inr hx

/-- **Search.**  With a handler that answers a positive number a search changes at most a deadline,
    whatever the clock and the deadlines are. -/
theorem refines_search {m : UInt64 → Option (List UInt8)} (h : Refines size t m) (now : Timespec)
    (answer : Int32) (key : UInt64) (nMaxBytes : ℕ) (ha : answer > 0) :
    ∃ r, bstSearch now answer t key nMaxBytes = some r ∧ Refines size r.root m ∧
      match m key with
      | none => r.ret = -1
      | some p =>
          r.ret = UInt64.ofNat (min nMaxBytes size) ∧ r.out = p.take (min nMaxBytes size) := by
  have hm : m key = payload t key := by rw [h.map]
  rw [hm, payload]
  cases hf : find key t with
  | none =>
    refine ⟨⟨t, -1, [], false⟩, ?_, h, rfl⟩
    rw [bstSearch, hf]
  | some n =>
    have hn : n.dataSize = size := by
      refine h.sized n ?_
      rw [find_eq_search] at hf
      exact (mem_of_search hf).1
    simp only [bstSearch, hf, hn, if_pos ha, Option.map_some]
    split
    · -- the deadline is renewed
      exact ⟨_, rfl, h.setDeadline hf _, rfl, rfl⟩
    · exact ⟨_, rfl, h, rfl, rfl⟩

/-! ### Runs -/

/-- A call of `bst_insert` or `bst_search`, with all it depends on. -/
inductive Op where
  | insert (mem : Block) (key : UInt64) (pbuf : List UInt8) (dataTimeout : Option Timespec)
  | search (now : Timespec) (answer : Int32) (key : UInt64) (nMaxBytes : ℕ)

/-- One call. -/
def step (t : BinaryTree Node) : Op → Option (BinaryTree Node)
  | .insert mem key pbuf dataTimeout => (bstInsert mem t key pbuf dataTimeout).map (·.1)
  | .search now answer key nMaxBytes => (bstSearch now answer t key nMaxBytes).map (·.root)

/-- The operations of the Ethernet cache: payloads of `size` bytes, a deadline, and a positive
    answer of the expire handler. -/
def CacheOp (size : ℕ) : Op → Prop
  | .insert _ _ pbuf dataTimeout => pbuf.length = size ∧ dataTimeout ≠ none
  | .search _ answer _ _ => answer > 0

/-- The payload inserted last under each key. -/
def inserted (hist : List (BinaryTree Node × Op)) : UInt64 → Option (List UInt8) :=
  hist.foldl (fun m x =>
    match x.2 with
    | .insert _ key pbuf _ => Function.update m key (some pbuf)
    | .search _ _ _ _ => m) fun _ => none

section
variable (hist : List (BinaryTree Node × Op)) (mem : Block) (pbuf : List UInt8)
  (dataTimeout : Option Timespec)

theorem inserted_insert : inserted (hist ++ [(t, .insert mem key pbuf dataTimeout)]) =
    Function.update (inserted hist) key (some pbuf) := by
  rw [inserted, List.foldl_append]
  rfl

theorem inserted_search (now : Timespec) (answer : Int32) (nMaxBytes : ℕ) :
    inserted (hist ++ [(t, .search now answer key nMaxBytes)]) = inserted hist := by
  rw [inserted, List.foldl_append]
  rfl

end

/-- **Run.**  The tree stands for the payloads inserted last. -/
theorem refines_run {hist : List (BinaryTree Node × Op)} (hr : Run step nil hist t)
    (hok : ∀ x ∈ hist, CacheOp size x.2) :
    Refines size t (inserted hist) ∧
      ∀ key, inserted hist key ≠ none → sizeofNode + size < 2 ^ 64 := by
  induction hr with
  | nil => exact ⟨refines_nil size, fun key hk => absurd rfl hk⟩
  | @snoc hist t t' op hr hs ih =>
    obtain ⟨href, hfit⟩ := ih fun x hx => hok x (by simp [hx])
    have hop : CacheOp size op := hok (t, op) (by simp)
    cases op with
    | insert mem key pbuf dataTimeout =>
      obtain ⟨hsize, hts⟩ := hop
      obtain ⟨ts, rfl⟩ := Option.ne_none_iff_exists'.mp hts
      -- the call has returned, so the block was large enough, or no block was needed
      have hfit' : sizeofNode + size < 2 ^ 64 := by
        cases t with
        | nil =>
          by_contra hbig
          rw [← hsize] at hbig
          simp only [step, bstInsert, insertLoop, if_pos (Nat.le_of_not_lt hbig), Option.map_none,
            reduceCtorEq] at hs
        | node b l r =>
          refine hfit b.key ?_
          rw [← href.map]
          simp [payload, find]
      obtain ⟨t'', hins, href'⟩ := refines_insert href mem key pbuf ts hsize hfit'
      simp only [step, hins, Option.map_some, Option.some.injEq] at hs
      subst hs
      rw [inserted_insert]
      exact ⟨href', fun _ _ => hfit'⟩
    | search now answer key nMaxBytes =>
      obtain ⟨r, hsearch, href', -⟩ := refines_search href now answer key nMaxBytes hop
      simp only [step, hsearch, Option.map_some, Option.some.injEq] at hs
      subst hs
      rw [inserted_search]
      exact ⟨href', hfit⟩

/-- **Insert and search refine a finite map.**  After every run of insertions and searches as the
    Ethernet cache makes them the tree is strictly ordered, an insertion returns, and a search
    with a large enough buffer returns the payload inserted last under the key, or -1 exactly if
    there is none. -/
theorem insert_search_refines (size : ℕ) (hist : List (BinaryTree Node × Op))
    (t : BinaryTree Node) (hr : Run step nil hist t) (hok : ∀ x ∈ hist, CacheOp size x.2) :
    Ordered Node.key t ∧
    (∀ mem key pbuf ts, pbuf.length = size → sizeofNode + size < 2 ^ 64 →
      ∃ t', bstInsert mem t key pbuf (some ts) = some (t', Int32.ofNat size)) ∧
    ∀ now answer key nMaxBytes, answer > 0 → size ≤ nMaxBytes →
      ∃ r, bstSearch now answer t key nMaxBytes = some r ∧
        (r.ret = -1 ↔ inserted hist key = none) ∧
        ∀ p, inserted hist key = some p → r.ret = UInt64.ofNat size ∧ r.out = p := by
  obtain ⟨href, hfit⟩ := refines_run hr hok
  refine ⟨href.ordered, ?_, ?_⟩
  · intro mem key pbuf ts hsize hbig
    obtain ⟨t', hins, -⟩ := refines_insert href mem key pbuf ts hsize hbig
    exact ⟨t', hins⟩
  · intro now answer key nMaxBytes ha hmax
    obtain ⟨r, hsearch, -, hres⟩ := refines_search href now answer key nMaxBytes ha
    refine ⟨r, hsearch, ?_⟩
    cases hm : inserted hist key with
    | none =>
      rw [hm] at hres
      exact ⟨by simp [hres], fun p hp => by cases hp⟩
    | some p =>
      rw [hm] at hres
      obtain ⟨hret, hout⟩ := hres
      have hlen : p.length = size := by
        rw [← href.map, payload] at hm
        obtain ⟨n, hn, rfl⟩ := Option.map_eq_some_iff.mp hm
        rw [find_eq_search] at hn
        exact href.sized n (mem_of_search hn).1
      rw [Nat.min_eq_right hmax] at hret hout
      rw [← hlen, List.take_length] at hout
      refine ⟨?_, fun p' hp' => by cases hp'; exact ⟨hret, hout⟩⟩
      -- a size for which the node has been allocated is not the largest word
      have hne : UInt64.ofNat size ≠ -1 := by
        have hlt := hfit key (by rw [hm]; simp)
        have hval : (-1 : UInt64).toNat = 2 ^ 64 - 1 := rfl
        have hmod : size % 2 ^ 64 = size := Nat.mod_eq_of_lt (by omega)
        unfold sizeofNode at hlt
        intro he
        have hnat := congrArg UInt64.toNat he
        rw [UInt64.toNat_ofNat', hmod, hval] at hnat
        omega
      rw [hret]
      simp [hne]

/-- A node is inserted twice and its deadline passes. -/
theorem insert_search_refines_twice :
    ∃ (hist : List (BinaryTree Node × Op)) (t : BinaryTree Node), Run step nil hist t ∧
      ∃ r, bstSearch ⟨7, 0⟩ 300 t 5 8 = some r ∧ r.ret = 2 ∧ r.out = [3, 4] := by
  let mem : Block := ⟨⟨1, 1⟩, fun _ => 0⟩
  have hfirst : step nil (.insert mem 5 [1, 2] (some ⟨9, 0⟩)) =
      some (node ⟨5, ⟨1, 1⟩, [1, 2]⟩ nil nil) := by decide +kernel
  have hrenew : step (node ⟨5, ⟨1, 1⟩, [1, 2]⟩ nil nil) (.search ⟨8, 0⟩ 300 5 2) =
      some (node ⟨5, ⟨301, 1⟩, [1, 2]⟩ nil nil) := by decide +kernel
  have hagain : step (node ⟨5, ⟨301, 1⟩, [1, 2]⟩ nil nil) (.insert mem 5 [3, 4] (some ⟨9, 0⟩)) =
      some (node ⟨5, ⟨301, 1⟩, [3, 4]⟩ nil nil) := by decide +kernel
  have hr := ((Run.nil.snoc hfirst).snoc hrenew).snoc hagain
  obtain ⟨-, -, hsearch⟩ := insert_search_refines 2 _ _ hr (by simp [CacheOp])
  obtain ⟨r, hs, -, hout⟩ := hsearch ⟨7, 0⟩ 300 5 8 (by decide) (by decide)
  exact ⟨_, _, hr, r, hs, hout _ rfl⟩

end Niuchacz.Bst
