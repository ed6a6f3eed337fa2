import Niuchacz.Bst.Insert
import Niuchacz.Bst.Delete
import Niuchacz.Timer.Order

namespace Niuchacz.Bst

open BinaryTree Timer Lib.SearchTree

/-!
# An insertion and the search after it

`bst_insert` with a deadline followed by `bst_search` of the same key, on any search tree.

* `search_returns_iff`, `search_expired` — what a search does with the node it finds.
* `last_write_wins` — when the search returns what has been inserted, and no other payload has
  changed.
* `search_expired_iff` — deadlines and clock readings of 64 bits are compared as they should be.
* `deadline_governs` — when the search goes by the deadline of the insertion.

The deadline is stored on one of the four exits only: a first node keeps what was in its block,
and a node that is overwritten keeps the deadline it had.
-/

variable {t : BinaryTree Node} {key : UInt64} {mem : Block} {p : List UInt8} {ts now : Timespec}
  {answer : Int32} {nMaxBytes : ℕ} {a : Node}

/-! ### The search -/

/-- A search at `now` does not give an entry with this deadline up. -/
def outlives (now : Timespec) (answer : Int32) (deadline : Timespec) : Bool :=
  timerIsNull deadline || !(timerCmp now deadline > 0) || answer > 0

/-- An entry expires in a search exactly if it does not outlive the current time. -/
theorem expires_eq_not_outlives (hf : find key t = some a) :
    expires now answer t key = !outlives now answer a.dataTimeout := by
  simp [expires, hf, outlives, Bool.and_assoc]

/-- A search returns the payload `p` exactly if the entry is not given up and `p` is all that fits
    into the buffer. -/
theorem search_returns_iff (hf : find key t = some a) (hp : p.length < 2 ^ 64 - 2) :
    (∃ f, bstSearch now answer t key nMaxBytes = some f ∧ f.ret.toNat = p.length ∧ f.out = p) ↔
      outlives now answer a.dataTimeout = true ∧ a.data.take nMaxBytes = p := by
  have htake : a.data.take (min nMaxBytes a.dataSize) = a.data.take nMaxBytes := by
    rw [Node.dataSize, ← List.take_take, List.take_length]
  cases hexp : expires now answer t key with
  | true =>
    -- -2 is not the length of any payload
    obtain ⟨t', -, hs⟩ := bstSearch_of_expires nMaxBytes hexp
    rw [expires_eq_not_outlives hf, Bool.not_eq_true'] at hexp
    rw [hs, hexp]
    constructor
    · rintro ⟨f, hf', hret, -⟩
      cases hf'
      have hval : (-2 : UInt64).toNat = 2 ^ 64 - 2 := rfl
      rw [hval] at hret
      omega
    · rintro ⟨⟨⟩, -⟩
  | false =>
    obtain ⟨f, hs, hres⟩ := bstSearch_of_not_expires nMaxBytes hexp
    rw [hf] at hres
    obtain ⟨hret, hout, -⟩ := hres
    rw [expires_eq_not_outlives hf, Bool.not_eq_false'] at hexp
    rw [hs, hexp]
    constructor
    · rintro ⟨f', hf', -, hp'⟩
      cases hf'
      exact ⟨rfl, by rw [← htake, ← hout, hp']⟩
    · rintro ⟨-, hdata⟩
      have hlen : min nMaxBytes a.dataSize = p.length := by
        rw [← hdata, List.length_take, Node.dataSize]
      refine ⟨f, rfl, ?_, by rw [hout, htake, hdata]⟩
      rw [hret, hlen, UInt64.toNat_ofNat', Nat.mod_eq_of_lt (by omega)]

/-- A search returns, and calls the expire handler if the deadline of the entry has passed. -/
theorem search_expired (now : Timespec) (answer : Int32) (nMaxBytes : ℕ)
    (hf : find key t = some a) :
    ∃ f, bstSearch now answer t key nMaxBytes = some f ∧
      f.expired = (!timerIsNull a.dataTimeout && timerCmp now a.dataTimeout > 0) := by
  obtain ⟨q, hq, -⟩ := deleteNode_data t (toInt key)
  simp only [bstSearch, hf, bstDelete, hq]
  split
  · rename_i hpassed
    rw [hpassed]
    split
    · exact ⟨_, rfl, rfl⟩
    · exact ⟨_, rfl, rfl⟩
  · rename_i hpassed
    exact ⟨_, rfl, (Bool.eq_false_of_not_eq_true hpassed).symm⟩

/-! ### The entry that an insertion leaves -/

/-- With a deadline `bst_insert` stores one node, which a search then finds, and no other. -/
theorem insert_stores (hord : Ordered Node.key t) (hfit : sizeofNode + p.length < 2 ^ 64)
    (hstored : stored mem key p (some ts) t = some a) :
    bstInsert mem t key p (some ts) = some (put Node.key a t, Int32.ofNat p.length) ∧
      find key (put Node.key a t) = some a ∧
      ∀ j, j ≠ key → payload (put Node.key a t) j = payload t j := by
  obtain rfl := key_stored hstored
  refine ⟨?_, ?_, ?_⟩
  · rw [bstInsert_eq_put hord hfit (by simp [clears]), hstored]
    rfl
  · rw [find_eq_search, search_put hord, if_pos rfl]
  · intro j hj
    rw [payload, find_eq_search, search_put hord, if_neg hj, payload, find_eq_search]

/-! ### Last write wins -/

/-- A payload that is overwritten by a shorter one keeps its length. -/
theorem take_write_iff {n : Node} (hle : p.length ≤ n.dataSize) (hmax : p.length ≤ nMaxBytes) :
    (n.write p).data.take nMaxBytes = p ↔ p.length = n.dataSize ∨ nMaxBytes = p.length := by
  have hrest : (n.write p).data.take nMaxBytes =
      p ++ (n.data.drop p.length).take (nMaxBytes - p.length) := by
    rw [Node.write, List.take_append, List.take_of_length_le hmax]
  rw [hrest, List.append_right_eq_self, ← List.length_eq_zero_iff, List.length_take,
    List.length_drop]
  unfold Node.dataSize at hle ⊢
  omega

/-- The node that is stored outlives the search and has the payload `p`. -/
theorem stored_returns_iff (hmax : p.length ≤ nMaxBytes) (hts : timerCmp now ts ≤ 0) :
    (∃ a, stored mem key p (some ts) t = some a ∧ outlives now answer a.dataTimeout = true ∧
      a.data.take nMaxBytes = p) ↔
    match search Node.key key t with
    | none => t = nil → outlives now answer mem.dataTimeout = true
    | some n =>
        if p.length ≤ n.dataSize then
          (p.length = n.dataSize ∨ nMaxBytes = p.length) ∧
            outlives now answer n.dataTimeout = true
        else atRoot key t = false ∧ (List.range p.length).map mem.byte = p := by
  have hts' : outlives now answer ts = true := by simp [outlives, hts]
  cases hs : search Node.key key t with
  | none =>
    -- a new node has the payload, and the deadline unless it is the first one
    have hdata := Node.data_write (dataSize_allocNode mem key p.length)
    have hold : ((allocNode mem key p.length).write p).dataTimeout = mem.dataTimeout := rfl
    by_cases hnil : t = nil
    · simp only [stored, hs, if_pos hnil]
      simp [hnil, hold, hdata, List.take_of_length_le hmax]
    · simp [stored, hs, hnil, hdata, List.take_of_length_le hmax, hts']
  | some n =>
    by_cases hle : p.length ≤ n.dataSize
    · have hold : (n.write p).dataTimeout = n.dataTimeout := rfl
      simp only [stored, hs, if_pos hle, ← take_write_iff hle hmax]
      simp [hold, and_comm]
    · -- the enlarged node has the deadline, but its payload is never written
      simp only [stored, hs, if_neg hle]
      cases hroot : atRoot key t with
      | true => simp
      | false =>
        have htake : ((List.range p.length).map mem.byte).take nMaxBytes =
            (List.range p.length).map mem.byte := List.take_of_length_le (by simpa using hmax)
        simp [hts', allocNode, htake]

/-- **Last write wins.**  A search before the deadline returns the payload of the insertion, and no
    other payload has changed, exactly if
    the key is new, and a first node does not happen to have an old deadline in its block; or
    the old payload has the same size (or the buffer has no room for the rest of a larger one), and
    the old deadline does not end the entry; or
    the payload becomes larger, not in the root, and is what the new block happens to contain. -/
theorem last_write_wins (mem : Block) (key : UInt64) (p : List UInt8) (ts now : Timespec)
    (answer : Int32) (nMaxBytes : ℕ) (hord : Ordered Node.key t)
    (hfit : sizeofNode + p.length < 2 ^ 64) (hmax : p.length ≤ nMaxBytes)
    (hts : timerCmp now ts ≤ 0) :
    (∃ t' i f, bstInsert mem t key p (some ts) = some (t', i) ∧
      bstSearch now answer t' key nMaxBytes = some f ∧ f.ret.toNat = p.length ∧ f.out = p ∧
      ∀ j, j ≠ key → payload t' j = payload t j) ↔
    match search Node.key key t with
    | none => t = nil → outlives now answer mem.dataTimeout = true
    | some n =>
        if p.length ≤ n.dataSize then
          (p.length = n.dataSize ∨ nMaxBytes = p.length) ∧
            outlives now answer n.dataTimeout = true
        else atRoot key t = false ∧ (List.range p.length).map mem.byte = p := by
  have hp : p.length < 2 ^ 64 - 2 := by
    unfold sizeofNode at hfit
    omega
  rw [← stored_returns_iff hmax hts]
  constructor
  · rintro ⟨t', i, f, hins, hf, hret, hout, -⟩
    cases hstored : stored mem key p (some ts) t with
    | none =>
      -- nothing is stored, and `bst_insert` fails
      rw [bstInsert_eq_put hord hfit (by simp [clears]), hstored] at hins
      cases hins
    | some a =>
      obtain ⟨hins', hfind, -⟩ := insert_stores hord hfit hstored
      rw [hins'] at hins
      cases hins
      exact ⟨a, rfl, (search_returns_iff hfind hp).mp ⟨f, hf, hret, hout⟩⟩
  · rintro ⟨a, hstored, ha⟩
    obtain ⟨hins, hfind, hothers⟩ := insert_stores hord hfit hstored
    obtain ⟨f, hf, hret, hout⟩ := (search_returns_iff hfind hp).mpr ha
    exact ⟨_, _, f, hins, hf, hret, hout, hothers⟩

/-- A node is overwritten before its deadline, and its old deadline is still to come. -/
theorem last_write_wins_same_size : ∃ t' i f,
    bstInsert ⟨⟨0, 0⟩, fun _ => 0⟩ (node ⟨5, ⟨8, 0⟩, [1]⟩ nil nil) 5 [2] (some ⟨9, 0⟩) =
        some (t', i) ∧
      bstSearch ⟨7, 0⟩ 0 t' 5 4 = some f ∧ f.ret.toNat = 1 ∧ f.out = [2] ∧
      ∀ j, j ≠ 5 → payload t' j = payload (node ⟨5, ⟨8, 0⟩, [1]⟩ nil nil) j :=
  (last_write_wins (t := node ⟨5, ⟨8, 0⟩, [1]⟩ nil nil) ⟨⟨0, 0⟩, fun _ => 0⟩ 5 [2] ⟨9, 0⟩ ⟨7, 0⟩ 0 4
    (List.pairwise_singleton _ _) (by decide) (by decide) (by decide)).mpr
    (by simp [search, sub, Node.dataSize]; decide)

/-- A payload that becomes larger at the root: the missing parent is dereferenced.  Below the root
    the search returns what was in the block. -/
theorem larger_payload_lost :
    bstInsert ⟨⟨0, 0⟩, fun _ => 0⟩ (node ⟨5, ⟨8, 0⟩, [1]⟩ nil nil) 5 [2, 3] (some ⟨9, 0⟩) = none ∧
      ∃ t' i f, bstInsert ⟨⟨0, 0⟩, fun _ => 0⟩
          (node ⟨4, ⟨8, 0⟩, [1]⟩ nil (node ⟨5, ⟨8, 0⟩, [1]⟩ nil nil)) 5 [2, 3] (some ⟨9, 0⟩) =
          some (t', i) ∧
        bstSearch ⟨7, 0⟩ 0 t' 5 4 = some f ∧ f.ret = 2 ∧ f.out = [0, 0] :=
  ⟨by decide +kernel, node ⟨4, ⟨8, 0⟩, [1]⟩ nil (node ⟨5, ⟨9, 0⟩, [0, 0]⟩ nil nil), 2,
    ⟨node ⟨4, ⟨8, 0⟩, [1]⟩ nil (node ⟨5, ⟨9, 0⟩, [0, 0]⟩ nil nil), 2, [0, 0], false⟩,
    by decide +kernel, by decide +kernel, rfl, rfl⟩

/-! ### Deadlines -/

/-- A positive result means that the deadline has passed, in nanoseconds as the code counts them. -/
theorem timerCmp_pos_iff : timerCmp now ts > 0 ↔ timerTimespecToNs ts < timerTimespecToNs now := by
  simp only [timerCmp]
  split
  · rename_i h
    simp [h]
  · split
    · rename_i hlt
      simpa using hlt.le
    · rename_i hne hlt
      simpa using lt_of_le_of_ne (not_lt.mp hlt) (Ne.symm hne)

/-- Up to the year 2554 the expire handler is called exactly if the deadline of the entry is earlier
    than the clock reading, and not null. -/
theorem search_expired_iff (answer : Int32) (nMaxBytes : ℕ) (hf : find key t = some a)
    (hnow : now.Normalised) (hts : a.dataTimeout.Normalised) (hnow' : now.count < 2 ^ 64)
    (hts' : a.dataTimeout.count < 2 ^ 64) :
    ∃ f, bstSearch now answer t key nMaxBytes = some f ∧
      (f.expired = true ↔ a.dataTimeout ≠ ⟨0, 0⟩ ∧ a.dataTimeout.lex < now.lex) := by
  obtain ⟨f, hs, hexp⟩ := search_expired now answer nMaxBytes hf
  refine ⟨f, hs, ?_⟩
  have hnull : timerIsNull a.dataTimeout = false ↔ a.dataTimeout ≠ ⟨0, 0⟩ := by
    obtain ⟨⟨sec, nsec⟩⟩ := a.dataTimeout
    simp [timerIsNull]
  rw [hexp, Bool.and_eq_true, Bool.not_eq_true', hnull, decide_eq_true_eq, timerCmp_pos_iff,
    UInt64.lt_iff_toNat_lt, toNat_timerTimespecToNs hts, toNat_timerTimespecToNs hnow,
    Nat.mod_eq_of_lt hts', Nat.mod_eq_of_lt hnow', lex_lt_iff hts hnow]

/-- Every word is the value of a clock reading. -/
theorem exists_timerTimespecToNs_eq (w : UInt64) : ∃ now, timerTimespecToNs now = w :=
  ⟨⟨0, w.toInt64⟩, by simp [timerTimespecToNs]⟩

/-- The deadline of the node after `bst_insert`: that of the insertion for a node that is attached
    to a parent, what was in the block for a first node, and otherwise the old one. -/
def storedDeadline (mem : Block) (key : UInt64) (ts : Timespec) (t : BinaryTree Node) : Timespec :=
  match search Node.key key t with
  | none => if t = nil then mem.dataTimeout else ts
  | some n => n.dataTimeout

/-- An insertion that enlarges no payload leaves `p` and `storedDeadline`. -/
theorem stored_of_same_size (mem : Block) (ts : Timespec)
    (hsize : ∀ n, search Node.key key t = some n → n.dataSize = p.length) :
    ∃ a, stored mem key p (some ts) t = some a ∧ a.data = p ∧
      a.dataTimeout = storedDeadline mem key ts t := by
  cases hs : search Node.key key t with
  | none =>
    have hdata := Node.data_write (dataSize_allocNode mem key p.length)
    simp only [stored, storedDeadline, hs]
    by_cases hnil : t = nil
    · rw [if_pos hnil, if_pos hnil]
      exact ⟨_, rfl, hdata, rfl⟩
    · rw [if_neg hnil, if_neg hnil]
      exact ⟨_, rfl, hdata, rfl⟩
  | some n =>
    simp only [stored, storedDeadline, hs, if_pos (hsize n hs).ge]
    exact ⟨_, rfl, Node.data_write (hsize n hs), rfl⟩

/-- Two deadlines end at the same clock readings: they have the same value, or the first one is
    null and no clock reading is beyond the second one. -/
theorem same_end_iff (deadline : Timespec) :
    (∀ now, (!timerIsNull deadline && timerCmp now deadline > 0) = true ↔ timerCmp now ts > 0) ↔
      if timerIsNull deadline then timerTimespecToNs ts = -1
      else timerTimespecToNs deadline = timerTimespecToNs ts := by
  have hmax : ∀ w : UInt64, w ≤ -1 := by
    intro w
    have hval : (-1 : UInt64).toNat = 2 ^ 64 - 1 := rfl
    rw [UInt64.le_iff_toNat_le, hval]
    have := w.toNat_lt
    omega
  simp only [Bool.and_eq_true, Bool.not_eq_true', decide_eq_true_eq, timerCmp_pos_iff]
  cases hnull : timerIsNull deadline with
  | true =>
    simp only [Bool.true_eq_false, false_and, false_iff, if_true]
    constructor
    · intro h
      obtain ⟨now, hnow⟩ := exists_timerTimespecToNs_eq (-1)
      exact le_antisymm (hmax _) (hnow ▸ not_lt.mp (h now))
    · intro h now
      rw [h]
      exact not_lt.mpr (hmax _)
  | false =>
    simp only [true_and, Bool.false_eq_true, if_false]
    constructor
    · intro h
      -- at the value of one of the two deadlines neither has passed
      apply le_antisymm
      · exact not_lt.mp fun hlt => lt_irrefl _ ((h deadline).mpr hlt)
      · exact not_lt.mp fun hlt => lt_irrefl _ ((h ts).mp hlt)
    · intro h now
      rw [h]

/-- **Deadlines.**  After an insertion of a new key, or of a payload of the same size, every search
    calls the expire handler exactly if it comes after the deadline of the insertion, and returns
    the payload otherwise, exactly if the deadline that is stored ends at the same clock
    readings. -/
theorem deadline_governs (mem : Block) (key : UInt64) (p : List UInt8) (ts : Timespec)
    (hord : Ordered Node.key t) (hfit : sizeofNode + p.length < 2 ^ 64)
    (hsize : ∀ n, search Node.key key t = some n → n.dataSize = p.length) :
    (∀ now answer nMaxBytes, p.length ≤ nMaxBytes →
      ∃ t' i f, bstInsert mem t key p (some ts) = some (t', i) ∧
        bstSearch now answer t' key nMaxBytes = some f ∧
        (f.expired = true ↔ timerCmp now ts > 0) ∧
        (f.expired = false → f.ret.toNat = p.length ∧ f.out = p)) ↔
      if timerIsNull (storedDeadline mem key ts t) then timerTimespecToNs ts = -1
      else timerTimespecToNs (storedDeadline mem key ts t) = timerTimespecToNs ts := by
  obtain ⟨a, hstored, hdata, hdeadline⟩ := stored_of_same_size mem ts hsize
  obtain ⟨hins, hfind, -⟩ := insert_stores hord hfit hstored
  have hp : p.length < 2 ^ 64 - 2 := by
    unfold sizeofNode at hfit
    omega
  rw [← same_end_iff, ← hdeadline]
  constructor
  · intro h now
    obtain ⟨t', i, f, hins', hf, hexp, -⟩ := h now 0 p.length le_rfl
    rw [hins] at hins'
    cases hins'
    obtain ⟨f', hf', hexp'⟩ := search_expired now 0 p.length hfind
    rw [hf] at hf'
    cases hf'
    rw [← hexp', hexp]
  · intro h now answer nMaxBytes hmax
    obtain ⟨f, hf, hexp⟩ := search_expired now answer nMaxBytes hfind
    refine ⟨_, _, f, hins, hf, by rw [hexp, h now], ?_⟩
    intro hno
    -- what has not expired is not given up
    have hout : outlives now answer a.dataTimeout = true := by
      rw [hexp, Bool.and_eq_false_iff] at hno
      simp only [outlives, Bool.or_eq_true]
      rcases hno with hno | hno
      · exact Or.inl (Or.inl (by simpa using hno))
      · exact Or.inl (Or.inr (by simpa using hno))
    obtain ⟨f', hf', hret⟩ := (search_returns_iff hfind hp).mpr
      ⟨hout, by rw [hdata, List.take_of_length_le hmax]⟩
    rw [hf] at hf'
    cases hf'
    exact hret

/-- A second node, and a search after its deadline. -/
theorem deadline_governs_second :
    ∃ t' i f, bstInsert ⟨⟨0, 0⟩, fun _ => 0⟩ (node ⟨5, ⟨8, 0⟩, [1]⟩ nil nil) 6 [2] (some ⟨9, 0⟩) =
        some (t', i) ∧
      bstSearch ⟨10, 0⟩ 0 t' 6 4 = some f ∧
      (f.expired = true ↔ timerCmp ⟨10, 0⟩ ⟨9, 0⟩ > 0) ∧
      (f.expired = false → f.ret.toNat = 1 ∧ f.out = [2]) := by
  refine (deadline_governs (t := node ⟨5, ⟨8, 0⟩, [1]⟩ nil nil) ⟨⟨0, 0⟩, fun _ => 0⟩ 6 [2] ⟨9, 0⟩
    (List.pairwise_singleton _ _) (by decide) ?_).mpr (by decide) ⟨10, 0⟩ 0 4 (by decide)
  rintro n ⟨⟩

/-- An entry that is inserted again with a later deadline still ends at its first one. -/
theorem old_deadline_stays :
    ∃ t' f, bstInsert ⟨⟨0, 0⟩, fun _ => 0⟩ (node ⟨5, ⟨8, 0⟩, [1]⟩ nil nil) 5 [2] (some ⟨20, 0⟩) =
        some (t', 1) ∧
      bstSearch ⟨9, 0⟩ 0 t' 5 4 = some f ∧ ¬ timerCmp ⟨9, 0⟩ ⟨20, 0⟩ > 0 ∧ f.expired = true :=
  ⟨node ⟨5, ⟨8, 0⟩, [2]⟩ nil nil, ⟨nil, -2, [], true⟩, by decide +kernel, by decide +kernel,
    by decide, rfl⟩

end Niuchacz.Bst
