import Niuchacz.Bst.Refine

namespace Niuchacz.Bst

open BinaryTree Timer Lib.SearchTree

/-!
# Deletions and expiry

What a deletion does to the payloads, and a search whose expire handler may give an entry up.

* `deleteNode_data` — a deletion returns, and no payload is new after it.
* `deleteNode_focus` — only the place of the key matters; `deleteNode_eq_replace` — a node with at
  most one child is cut out.
* `refines_delete` — then, for keys below `2 ^ 31`, exactly one entry is gone; a larger 32-bit key
  is passed on as a negative `int`, and nothing is deleted.
* `inner` — the node has two children: only its key is replaced by that of its successor, so that
  the successor's key gets the payload of the deleted entry.
* `refines_search_any` — a search that deletes no such node, whatever the handler answers.
-/

variable {t l r : BinaryTree Node} {key : UInt64} {n : Node} {size : ℕ}

/-! ### Keys as `int` -/

/-- The conversions to `int` and back cut off the upper half and extend the sign. -/
theorem toBitVec_ofInt_toInt (key : UInt64) :
    (ofInt (toInt key)).toBitVec = (key.toBitVec.setWidth 32).signExtend 64 := rfl

/-- A small key survives the conversion to `int`. -/
theorem ofInt_toInt_of_lt (h : key.toNat < 2 ^ 31) : ofInt (toInt key) = key := by
  have hk : key.toBitVec.toNat = key.toNat := rfl
  rw [← UInt64.toBitVec_inj, toBitVec_ofInt_toInt]
  apply BitVec.eq_of_toNat_eq
  rw [BitVec.toNat_signExtend, BitVec.msb_eq_decide]
  simp only [BitVec.toNat_setWidth, hk, Nat.add_one_sub_one, decide_eq_true_eq]
  split <;> omega

/-- A 32-bit key with the highest bit set is sign-extended. -/
theorem le_ofInt_toInt (h : 2 ^ 31 ≤ key.toNat) (h' : key.toNat < 2 ^ 32) :
    2 ^ 32 ≤ (ofInt (toInt key)).toNat := by
  have hk : key.toBitVec.toNat = key.toNat := rfl
  show 2 ^ 32 ≤ (ofInt (toInt key)).toBitVec.toNat
  rw [toBitVec_ofInt_toInt, BitVec.toNat_signExtend, BitVec.msb_eq_decide]
  simp only [BitVec.toNat_setWidth, hk, Nat.add_one_sub_one, decide_eq_true_eq]
  split <;> omega

/-! ### Payloads -/

/-- A tree that is not empty has a least entry. -/
theorem minValue_isSome (h : t ≠ nil) : ∃ n, minValue t = some n := by
  induction t with
  | nil => exact absurd rfl h
  | node n l r ihl _ =>
    cases l with
    | nil => exact ⟨n, by rw [minValue]⟩
    | node b l' r' =>
      rw [minValue]
      exact ihl (by rintro ⟨⟩)

/-- A deletion returns, and every payload after it is one from before. -/
theorem deleteNode_data (t : BinaryTree Node) (key : Int32) :
    ∃ p, deleteNode t key = some p ∧ ∀ x ∈ inorder p.1, ∃ y ∈ inorder t, y.data = x.data := by
  induction t generalizing key with
  | nil => exact ⟨(nil, 0), rfl, fun x hx => by cases hx⟩
  | node n l r ihl ihr =>
    -- the entries of the tree with one subtree changed
    have hleft : ∀ p : BinaryTree Node × ℕ,
        (∀ x ∈ inorder p.1, ∃ y ∈ inorder l, y.data = x.data) →
        ∀ x ∈ inorder (node n p.1 r), ∃ y ∈ inorder (node n l r), y.data = x.data := by
      intro p hp x hx
      rw [inorder_node, List.mem_append, List.mem_cons] at hx
      rcases hx with hx | rfl | hx
      · obtain ⟨y, hy, hd⟩ := hp x hx
        exact ⟨y, by simp [hy], hd⟩
      · exact ⟨x, by simp, rfl⟩
      · exact ⟨x, by simp [hx], rfl⟩
    have hright : ∀ (p : BinaryTree Node × ℕ) (k : UInt64),
        (∀ x ∈ inorder p.1, ∃ y ∈ inorder r, y.data = x.data) →
        ∀ x ∈ inorder (node { n with key := k } l p.1), ∃ y ∈ inorder (node n l r),
          y.data = x.data := by
      intro p k hp x hx
      rw [inorder_node, List.mem_append, List.mem_cons] at hx
      rcases hx with hx | rfl | hx
      · exact ⟨x, by simp [hx], rfl⟩
      · exact ⟨n, by simp, rfl⟩
      · obtain ⟨y, hy, hd⟩ := hp x hx
        exact ⟨y, by simp [hy], hd⟩
    simp only [deleteNode]
    split
    · obtain ⟨p, hp, hdata⟩ := ihl key
      exact ⟨(node n p.1 r, p.2), by rw [hp]; rfl, hleft p hdata⟩
    · split
      · obtain ⟨p, hp, hdata⟩ := ihr key
        exact ⟨(node n l p.1, p.2), by rw [hp]; rfl, hright p n.key hdata⟩
      · split
        · exact ⟨(r, 1), rfl, fun x hx => ⟨x, by simp [hx], rfl⟩⟩
        · split
          · exact ⟨(l, 1), rfl, fun x hx => ⟨x, by simp [hx], rfl⟩⟩
          · rename_i hr
            obtain ⟨temp, htemp⟩ := minValue_isSome hr
            obtain ⟨p, hp, hdata⟩ := ihr (toInt temp.key)
            exact ⟨(node { n with key := temp.key } l p.1, p.2), by simp only [htemp, hp]; rfl,
              hright p temp.key hdata⟩

/-! ### Cutting out a node -/

/-- The node with this key has two children. -/
def inner (key : UInt64) (t : BinaryTree Node) : Bool :=
  match sub Node.key key t with
  | node _ (node _ _ _) (node _ _ _) => true
  | _ => false

/-- **Focus.**  A deletion changes the subtree at the place of its key only. -/
theorem deleteNode_focus (t : BinaryTree Node) (k : Int32) :
    deleteNode t k = (deleteNode (sub Node.key (ofInt k) t) k).map fun q =>
      (replace Node.key (ofInt k) q.1 t, q.2) := by
  induction t with
  | nil => rfl
  | node n l r ihl ihr =>
    -- the recursion goes the way of the search, and changes nothing on the way
    by_cases hk : n.key = ofInt k
    · have hself : (fun q : BinaryTree Node × ℕ =>
          (replace Node.key (ofInt k) q.1 (node n l r), q.2)) = id := by
        ext1 q
        simp [replace, hk]
      rw [hself, Option.map_id_fun, id, sub, if_pos hk]
    · simp only [sub, replace, if_neg hk]
      by_cases hlt : ofInt k < n.key
      · rw [deleteNode, if_pos hlt, ihl, Option.map_map]
        simp only [if_pos hlt]
        rfl
      · have hgt : ofInt k > n.key := lt_of_le_of_ne (not_lt.mp hlt) hk
        rw [deleteNode, if_neg hlt, if_pos hgt, ihr, Option.map_map]
        simp only [if_neg hlt]
        rfl

/-- A key that is not there is not deleted. -/
theorem deleteNode_of_absent {k : Int32} (h : sub Node.key (ofInt k) t = nil) :
    deleteNode t k = some (t, 0) := by
  have hself : replace Node.key (ofInt k) nil t = t := by
    rw [← h, replace_sub]
  rw [deleteNode_focus, h, deleteNode, Option.map_some, hself]

/-- A node with at most one child is replaced by that child. -/
theorem deleteNode_eq_replace {k : Int32} (h : sub Node.key (ofInt k) t = node n l r)
    (hchild : l = nil ∨ r = nil) :
    deleteNode t k = some (replace Node.key (ofInt k) (if l = nil then r else l) t, 1) := by
  rw [deleteNode_focus, h, deleteNode, ← key_of_sub h, if_neg (lt_irrefl _), if_neg (lt_irrefl _)]
  by_cases hl : l = nil
  · rw [if_pos hl, if_pos hl, Option.map_some]
  · rw [if_neg hl, if_neg hl, if_pos (hchild.resolve_left hl), Option.map_some]

/-- All keys are 32-bit numbers. -/
def Short (t : BinaryTree Node) : Prop := ∀ n ∈ inorder t, n.key.toNat < 2 ^ 32

/-- A key below `2 ^ 31` of a node with at most one child is taken out. -/
theorem refines_delete_of_lt {m : UInt64 → Option (List UInt8)} (h : Refines size t m)
    (hshort : Short t) (hlt : key.toNat < 2 ^ 31) (hinner : inner key t = false) :
    ∃ t', bstDelete t key = some t' ∧ Short t' ∧
      Refines size t' (Function.update m key none) := by
  have hk := ofInt_toInt_of_lt hlt
  cases hsub : sub Node.key key t with
  | nil =>
    have hnone : m key = none := by
      rw [← h.map, payload, find_eq_search, search, hsub]
      rfl
    have hupd : Function.update m key none = m := by
      rw [← hnone, Function.update_eq_self]
    refine ⟨t, ?_, hshort, by rw [hupd]; exact h⟩
    rw [bstDelete, deleteNode_of_absent (by rw [hk, hsub])]
    rfl
  | node n l r =>
    have hchild : l = nil ∨ r = nil := by
      rw [inner, hsub] at hinner
      cases l with
      | nil => exact Or.inl rfl
      | node => cases r with
        | nil => exact Or.inr rfl
        | node => cases hinner
    -- the child, if any, takes the place of the node
    have hs : inorder (if l = nil then r else l) = inorder l ++ inorder r := by
      by_cases hl : l = nil
      · simp [hl]
      · simp [hl, hchild.resolve_left hl]
    obtain ⟨hord, hmem⟩ := search_cut h.ordered hsub hs
    refine ⟨replace Node.key key (if l = nil then r else l) t, ?_,
      fun x hx => hshort x ((hmem x).mp hx).1, hord, fun x hx => h.sized x ((hmem x).mp hx).1, ?_⟩
    · rw [bstDelete, deleteNode_eq_replace (by rw [hk, hsub]) hchild, hk]
      rfl
    · ext1 k
      rw [payload, find_eq_search]
      by_cases hkk : k = key
      · -- the entry is gone
        rw [hkk, Function.update_self, (search_eq_none_iff hord).mpr]
        · rfl
        · intro x hx
          exact ((hmem x).mp hx).2
      · rw [Function.update_of_ne hkk, ← h.map, payload, find_eq_search,
          search_congr hord h.ordered]
        intro x hx
        rw [hmem x, hx]
        simp [hkk]

/-- A larger 32-bit key becomes a negative `int`, and is larger than all keys of the tree when it is
    compared with them. -/
theorem bstDelete_of_le (hshort : Short t) (hle : 2 ^ 31 ≤ key.toNat)
    (hkey : key.toNat < 2 ^ 32) : bstDelete t key = some t := by
  have hbig := le_ofInt_toInt hle hkey
  have habsent : sub Node.key (ofInt (toInt key)) t = nil := by
    cases hsub : sub Node.key (ofInt (toInt key)) t with
    | nil => rfl
    | node n l r =>
      have hfound : search Node.key (ofInt (toInt key)) t = some n := by rw [search, hsub]
      obtain ⟨hn, hk⟩ := mem_of_search hfound
      have hsmall := hshort n hn
      rw [hk] at hsmall
      omega
  rw [bstDelete, deleteNode_of_absent habsent]
  rfl

/-- **Deletion.**  A node with at most one child and a key below `2 ^ 31` is taken out; a larger
    32-bit key finds nothing to delete. -/
theorem refines_delete {m : UInt64 → Option (List UInt8)} (h : Refines size t m) (hshort : Short t)
    (hkey : key.toNat < 2 ^ 32) (hinner : key.toNat < 2 ^ 31 → inner key t = false) :
    ∃ t', bstDelete t key = some t' ∧ Short t' ∧
      Refines size t' (if key.toNat < 2 ^ 31 then Function.update m key none else m) := by
  by_cases hlt : key.toNat < 2 ^ 31
  · rw [if_pos hlt]
    exact refines_delete_of_lt h hshort hlt (hinner hlt)
  · rw [if_neg hlt]
    exact ⟨t, bstDelete_of_le hshort (Nat.le_of_not_lt hlt) hkey, hshort, h⟩

/-- The search finds an entry whose deadline has passed and that the handler gives up. -/
def expires (now : Timespec) (answer : Int32) (t : BinaryTree Node) (key : UInt64) : Bool :=
  match find key t with
  | none => false
  | some n => !timerIsNull n.dataTimeout && timerCmp now n.dataTimeout > 0 && !(answer > 0)

/-- An entry that is given up is deleted. -/
theorem bstSearch_of_expires {now : Timespec} {answer : Int32} (nMaxBytes : ℕ)
    (h : expires now answer t key = true) :
    ∃ t', bstDelete t key = some t' ∧
      bstSearch now answer t key nMaxBytes = some ⟨t', -2, [], true⟩ := by
  unfold expires at h
  obtain ⟨p, hp, -⟩ := deleteNode_data t (toInt key)
  refine ⟨p.1, by rw [bstDelete, hp]; rfl, ?_⟩
  split at h
  · cases h
  · rename_i n hf
    simp only [Bool.and_eq_true, Bool.not_eq_true'] at h
    simp only [bstSearch, hf, bstDelete, hp]
    rw [if_pos (by simp [h.1]), if_neg (by simpa using h.2)]
    rfl

/-- Otherwise a search changes at most a deadline. -/
theorem bstSearch_of_not_expires {now : Timespec} {answer : Int32} (nMaxBytes : ℕ)
    (h : expires now answer t key = false) :
    ∃ f, bstSearch now answer t key nMaxBytes = some f ∧
      match find key t with
      | none => f = ⟨t, -1, [], false⟩
      | some n => f.ret = UInt64.ofNat (min nMaxBytes n.dataSize) ∧
          f.out = n.data.take (min nMaxBytes n.dataSize) ∧
          (f.root = t ∨ ∃ ts, f.root = setDeadline key ts t) := by
  unfold expires at h
  split at h
  · rename_i hf
    simp only [bstSearch, hf]
    exact ⟨_, rfl, rfl⟩
  · rename_i n hf
    simp only [bstSearch, hf]
    split
    · rename_i hpassed
      -- the deadline has passed, and the handler has kept the entry
      have hanswer : answer > 0 := by
        by_contra hno
        rw [hpassed, Bool.true_and, Bool.not_eq_false'] at h
        exact hno (by simpa using h)
      rw [if_pos hanswer]
      exact ⟨_, rfl, rfl, rfl, Or.inr ⟨_, rfl⟩⟩
    · exact ⟨_, rfl, rfl, rfl, Or.inl rfl⟩

/-- **Search.**  Whatever the handler answers, as long as no node with two children is deleted, a
    search takes out at most the entry it gives up. -/
theorem refines_search_any {m : UInt64 → Option (List UInt8)} (h : Refines size t m)
    (hshort : Short t) (now : Timespec) (answer : Int32) (nMaxBytes : ℕ)
    (hkey : key.toNat < 2 ^ 32)
    (hinner : expires now answer t key = true → key.toNat < 2 ^ 31 → inner key t = false) :
    ∃ f m', bstSearch now answer t key nMaxBytes = some f ∧ Short f.root ∧
      Refines size f.root m' ∧ (m' = m ∨ m' = Function.update m key none) ∧
      ((f.ret = -1 ∨ f.ret = -2) ∨ ∃ p, m key = some p ∧
        f.ret = UInt64.ofNat (min nMaxBytes size) ∧ f.out = p.take (min nMaxBytes size)) := by
  cases hexp : expires now answer t key with
  | true =>
    obtain ⟨t', hdel, hf⟩ := bstSearch_of_expires nMaxBytes hexp
    -- the entry is given up, and deleted if its key is small enough
    obtain ⟨t'', hdel', hshort', href⟩ := refines_delete h hshort hkey (hinner hexp)
    rw [hdel] at hdel'
    cases hdel'
    refine ⟨_, _, hf, hshort', href, ?_, Or.inl (Or.inr rfl)⟩
    split
    · exact Or.inr rfl
    · exact Or.inl rfl
  | false =>
    obtain ⟨f, hf, hres⟩ := bstSearch_of_not_expires nMaxBytes hexp
    split at hres
    · subst hres
      exact ⟨_, m, hf, hshort, h, Or.inl rfl, Or.inl (Or.inl rfl)⟩
    · rename_i n hfind
      obtain ⟨hret, hout, hroot⟩ := hres
      have hmem : n ∈ inorder t := by
        rw [find_eq_search] at hfind
        exact (mem_of_search hfind).1
      rw [h.sized n hmem] at hret hout
      have hm : m key = some n.data := by rw [← h.map, payload, hfind]; rfl
      refine ⟨f, m, hf, ?_, ?_, Or.inl rfl, Or.inr ⟨n.data, hm, hret, hout⟩⟩
      · -- at most the deadline of the entry that was found is new
        rcases hroot with hroot | ⟨ts, hroot⟩ <;> rw [hroot]
        · exact hshort
        · rw [setDeadline_eq_put _ hfind]
          intro x hx
          rcases mem_of_mem_put hx with rfl | hx
          · exact hshort n hmem
          · exact hshort x hx
      · rcases hroot with hroot | ⟨ts, hroot⟩ <;> rw [hroot]
        · exact h
        · exact h.setDeadline hfind ts

/-! ### Payloads of any tree -/

section
variable {P : List UInt8 → Prop}

/-- A search keeps what holds of every payload, and returns such a payload: also where deletions
    have made a mess of the keys. -/
theorem search_data (hP : ∀ n ∈ inorder t, P n.data) (now : Timespec) (answer : Int32)
    (key : UInt64) (nMaxBytes : ℕ) :
    ∃ f, bstSearch now answer t key nMaxBytes = some f ∧ (∀ n ∈ inorder f.root, P n.data) ∧
      ((f.ret = -1 ∨ f.ret = -2) ∨ ∃ p, P p ∧
        f.ret = UInt64.ofNat (min nMaxBytes p.length) ∧
        f.out = p.take (min nMaxBytes p.length)) := by
  cases hexp : expires now answer t key with
  | true =>
    obtain ⟨t', hdel, hf⟩ := bstSearch_of_expires nMaxBytes hexp
    refine ⟨_, hf, ?_, Or.inl (Or.inr rfl)⟩
    -- a deletion moves payloads to other keys, but makes no new ones
    obtain ⟨p, hp, hdata⟩ := deleteNode_data t (toInt key)
    rw [bstDelete, hp] at hdel
    cases hdel
    intro x hx
    obtain ⟨y, hy, hd⟩ := hdata x hx
    rw [← hd]
    exact hP y hy
  | false =>
    obtain ⟨f, hf, hres⟩ := bstSearch_of_not_expires nMaxBytes hexp
    split at hres
    · subst hres
      exact ⟨_, hf, hP, Or.inl (Or.inl rfl)⟩
    · rename_i n hfind
      obtain ⟨hret, hout, hroot⟩ := hres
      have hn : P n.data := by
        rw [find_eq_search] at hfind
        exact hP n (mem_of_search hfind).1
      refine ⟨f, hf, ?_, Or.inr ⟨n.data, hn, hret, hout⟩⟩
      rcases hroot with hroot | ⟨ts, hroot⟩ <;> rw [hroot]
      · exact hP
      · rw [setDeadline_eq_put _ hfind]
        intro x hx
        rcases mem_of_mem_put hx with rfl | hx
        · exact hn
        · exact hP x hx

/-- An insertion of a payload of the one size returns, and keeps what holds of every payload. -/
theorem insert_data (hP : ∀ n ∈ inorder t, P n.data) (mem : Block) (key : UInt64)
    {pbuf : List UInt8} (ts : Timespec) (hpbuf : P pbuf)
    (hsize : ∀ d, P d → d.length = pbuf.length) (hfit : sizeofNode + pbuf.length < 2 ^ 64) :
    ∃ t', bstInsert mem t key pbuf (some ts) = some (t', Int32.ofNat pbuf.length) ∧
      ∀ n ∈ inorder t', P n.data := by
  have hsized : Sized pbuf.length t := fun n hn => hsize n.data (hP n hn)
  obtain ⟨a, -, -, ha⟩ := insertLoop_eq_put mem key pbuf ts true hsized hfit
  have hins : bstInsert mem t key pbuf (some ts) =
      some (put Node.key a t, Int32.ofNat pbuf.length) := by
    rw [bstInsert, ha]
    rfl
  refine ⟨_, hins, fun x hx => ?_⟩
  rcases mem_of_insert hsized hfit hins x hx with ⟨-, hd⟩ | hx
  · rw [hd]
    exact hpbuf
  · exact hP x hx

end

end Niuchacz.Bst
