import Mathlib.Algebra.Order.Ring.Nat
import Mathlib.Data.List.GetD
import Mathlib.Data.Nat.SuccPred
import Mathlib.Order.Lattice.Nat

namespace Niuchacz.Cardinality

/-!
# Cardinality sketches (`algorithms/stream/cardinality/hyperloglog.c`)

A sketch is an array of `k` registers.  A byte string is hashed; the hash chooses a register, and
the register is raised to the number of zeros at the low end of what remains of the hash.

* `hyperloglogCreate`, `hyperloglogInsert`, `hyperloglogMerge` — the functions of the source.
* `regs` — the registers as a function; `regs_raise` — what the one assignment of both update
  loops does to it.
* `regs_insert`, `regs_merge` — insertion and merging are joins in the lattice of these functions.
* `regs_sketch` — the sketch of a list is the join over the *set* of its elements.
* `sketch_semilattice` — what follows for merging and inserting.

`hyperloglogCardinality`, the estimate, is in `Cardinality.Estimate`.
-/

/-- `hash64`: the bytes and the seed. -/
abbrev Hash64 := List UInt8 → UInt64 → UInt64

/-- `HYPERLOGLOG`; the register array has `_k` bytes. -/
structure HyperLogLog where
  k : UInt32
  bits : UInt8
  func : Hash64
  R : List UInt8
  length_R : R.length = k.toNat

/-! ### The functions of the source -/

/-- The loop of `i_hyperloglogGetRightmost0seqBits`, with the number of iterations left. -/
def rightmostLoop (bitfrom nbits : UInt8) : ℕ → UInt8 → UInt64 → UInt8
  | 0, _, _ => (nbits - bitfrom) + 1
  | n + 1, i, val =>
      if val &&& 1 = 1 then i - bitfrom + 1 else rightmostLoop bitfrom nbits n (i + 1) (val >>> 1)

/-- `i_hyperloglogGetRightmost0seqBits`. -/
def getRightmost0seqBits (val : UInt64) (bitfrom nbits : UInt8) : UInt8 :=
  rightmostLoop bitfrom nbits (nbits.toNat - bitfrom.toNat) bitfrom val

/-- `sizeof(hashvalue64)`. -/
def sizeofHashvalue64 : UInt8 := 8

/-- `hyperloglogCreate`, when `malloc` succeeds.  `_bits` is `log2(k)` cut to an integer. -/
def hyperloglogCreate (func : Hash64) (k : UInt32) : HyperLogLog where
  k := k
  bits := UInt8.ofNat (Nat.log2 k.toNat)
  func := func
  R := List.replicate k.toNat 0
  length_R := List.length_replicate

/-- `if(_R[x] < b) _R[x] = b`. -/
def raise (phll : HyperLogLog) (x : ℕ) (b : UInt8) : HyperLogLog :=
  if phll.R.getD x 0 < b then
    { phll with R := phll.R.set x b, length_R := by rw [List.length_set, phll.length_R] }
  else phll

/-- The register that a hash value chooses. -/
def index (k : UInt32) (hashValue : UInt64) : ℕ := (hashValue % k.toUInt64).toNat

/-- The value to which the register is raised.  The last argument of the source's call is a
    number of bytes, so at most eight bits are looked at. -/
def rank (bits : UInt8) (hashValue : UInt64) : UInt8 :=
  getRightmost0seqBits (hashValue >>> bits.toUInt64) 0 sizeofHashvalue64

/-- `hyperloglogInsert`; it always returns `true`. -/
def hyperloglogInsert (phll : HyperLogLog) (pdata : List UInt8) : HyperLogLog :=
  let hashValue := phll.func pdata 0
  raise phll (index phll.k hashValue) (rank phll.bits hashValue)

/-- `hyperloglogMerge`: the first sketch after the call, and the result. -/
def hyperloglogMerge (phll phll2 : HyperLogLog) : HyperLogLog × Bool :=
  if phll.k ≠ phll2.k then (phll, false)
  else ((List.range phll.k.toNat).foldl (fun p i => raise p i (phll2.R.getD i 0)) phll, true)

/-- The sketch of a list of byte strings, inserted one after the other. -/
def sketch (func : Hash64) (k : UInt32) (xs : List (List UInt8)) : HyperLogLog :=
  xs.foldl hyperloglogInsert (hyperloglogCreate func k)

/-! ### The registers as a function -/

/-- The value of each register. -/
def regs (phll : HyperLogLog) (i : ℕ) : ℕ := (phll.R.getD i 0).toNat

/-- The function with one value that is not zero. -/
def only (x b : ℕ) (i : ℕ) : ℕ := if i = x then b else 0

variable {phll phll2 phll3 : HyperLogLog} {x : ℕ}

/-- Sketches of one size with the same values have the same register array. -/
theorem R_eq_of_regs (hk : phll.k = phll2.k) (h : regs phll = regs phll2) :
    phll.R = phll2.R := by
  have hlen : phll.R.length = phll2.R.length := by
    rw [phll.length_R, phll2.length_R, hk]
  refine List.ext_getElem hlen ?_
  intro i hi hi'
  have hreg : regs phll i = regs phll2 i := congrFun h i
  unfold regs at hreg
  rw [List.getD_eq_getElem _ _ hi, List.getD_eq_getElem _ _ hi'] at hreg
  exact UInt8.toNat_inj.mp hreg

theorem regs_of_le (h : phll.k.toNat ≤ x) : regs phll x = 0 := by
  unfold regs
  rw [List.getD_eq_default _ _ (by rw [phll.length_R]; exact h)]
  rfl

@[simp] theorem k_raise (b : UInt8) : (raise phll x b).k = phll.k := by
  unfold raise
  split <;> rfl

@[simp] theorem func_raise (b : UInt8) : (raise phll x b).func = phll.func := by
  unfold raise
  split <;> rfl

@[simp] theorem bits_raise (b : UInt8) : (raise phll x b).bits = phll.bits := by
  unfold raise
  split <;> rfl

/-- **The assignment.**  A register becomes the larger one of two values. -/
theorem regs_raise (hx : x < phll.k.toNat) (b : UInt8) :
    regs (raise phll x b) = regs phll ⊔ only x b.toNat := by
  have hlen : x < phll.R.length := by rw [phll.length_R]; exact hx
  ext i
  show regs (raise phll x b) i = max (regs phll i) (only x b.toNat i)
  unfold raise only
  -- the register is written if the new value is larger only
  split
  · rename_i hlt
    rw [UInt8.lt_iff_toNat_lt] at hlt
    by_cases hi : i = x
    · subst hi
      have hset : regs { phll with
          R := phll.R.set i b
          length_R := by rw [List.length_set, phll.length_R] } i = b.toNat := by
        unfold regs
        rw [List.getD_eq_getElem _ _ (by rw [List.length_set]; exact hlen), List.getElem_set_self]
      rw [if_pos rfl, hset]
      exact (max_eq_right (le_of_lt hlt)).symm
    · rw [if_neg hi, Nat.max_zero]
      unfold regs
      rw [List.getD_eq_getElem?_getD, List.getElem?_set_ne (Ne.symm hi),
        ← List.getD_eq_getElem?_getD]
  · rename_i hge
    rw [UInt8.lt_iff_toNat_lt] at hge
    by_cases hi : i = x
    · subst hi
      rw [if_pos rfl]
      exact (max_eq_left (not_lt.mp hge)).symm
    · rw [if_neg hi, Nat.max_zero]

/-! ### Inserting -/

/-- The index is one of a register. -/
theorem index_lt {k : UInt32} (hk : 0 < k) (hashValue : UInt64) : index k hashValue < k.toNat := by
  have hpos : 0 < k.toNat := by simpa [UInt32.lt_iff_toNat_lt] using hk
  unfold index
  rw [UInt64.toNat_mod, UInt32.toNat_toUInt64]
  exact Nat.mod_lt _ hpos

/-- What inserting one byte string adds to a sketch. -/
def contribution (func : Hash64) (k : UInt32) (pdata : List UInt8) : ℕ → ℕ :=
  only (index k (func pdata 0)) (rank (hyperloglogCreate func k).bits (func pdata 0)).toNat

/-- The sketches that `hyperloglogCreate` and the functions below it produce. -/
structure Made (func : Hash64) (k : UInt32) (phll : HyperLogLog) : Prop where
  k_eq : phll.k = k
  func_eq : phll.func = func
  bits_eq : phll.bits = (hyperloglogCreate func k).bits

section
variable {func : Hash64} {k : UInt32}

theorem made_create : Made func k (hyperloglogCreate func k) := ⟨rfl, rfl, rfl⟩

theorem Made.insert (h : Made func k phll) (pdata : List UInt8) :
    Made func k (hyperloglogInsert phll pdata) where
  k_eq := by rw [hyperloglogInsert, k_raise, h.k_eq]
  func_eq := by rw [hyperloglogInsert, func_raise, h.func_eq]
  bits_eq := by rw [hyperloglogInsert, bits_raise, h.bits_eq]

/-- **Insertion is a join.** -/
theorem regs_insert (hk : 0 < k) (h : Made func k phll) (pdata : List UInt8) :
    regs (hyperloglogInsert phll pdata) = regs phll ⊔ contribution func k pdata := by
  have hlt : index phll.k (phll.func pdata 0) < phll.k.toNat :=
    index_lt (by rw [h.k_eq]; exact hk) _
  show regs (raise phll _ _) = _
  rw [regs_raise hlt, contribution, h.k_eq, h.func_eq, h.bits_eq]

/-- In a new sketch all registers are 0. -/
theorem regs_create : regs (hyperloglogCreate func k) = ⊥ := by
  ext i
  have hzero : (List.replicate k.toNat (0 : UInt8)).getD i 0 = 0 := by
    rw [List.getD_eq_getElem?_getD, List.getElem?_replicate]
    split <;> rfl
  show (List.getD (List.replicate k.toNat (0 : UInt8)) i 0).toNat = 0
  rw [hzero]
  rfl

/-- Inserting a list joins what its elements contribute. -/
theorem regs_foldl (hk : 0 < k) (h : Made func k phll) (xs : List (List UInt8)) :
    Made func k (xs.foldl hyperloglogInsert phll) ∧
      regs (xs.foldl hyperloglogInsert phll) =
        regs phll ⊔ xs.toFinset.sup (contribution func k) := by
  induction xs generalizing phll with
  | nil => exact ⟨h, by simp⟩
  | cons pdata xs ih =>
    obtain ⟨hmade, hregs⟩ := ih (h.insert pdata)
    refine ⟨hmade, ?_⟩
    rw [List.foldl_cons, hregs, regs_insert hk h, List.toFinset_cons, Finset.sup_insert, sup_assoc]

/-- **The sketch of a list** is the join over the set of its elements. -/
theorem regs_sketch (hk : 0 < k) (xs : List (List UInt8)) :
    regs (sketch func k xs) = xs.toFinset.sup (contribution func k) := by
  rw [sketch, (regs_foldl hk made_create xs).2, regs_create, bot_sup_eq]

/-- The number of registers of a sketch of any data. -/
theorem k_sketch (hk : 0 < k) (xs : List (List UInt8)) : (sketch func k xs).k = k :=
  (regs_foldl hk made_create xs).1.k_eq

end

/-! ### Merging -/

/-- The first `n` iterations of the merge loop. -/
theorem regs_mergeLoop (f : ℕ → UInt8) (n : ℕ) (hn : n ≤ phll.k.toNat) :
    ((List.range n).foldl (fun p i => raise p i (f i)) phll).k = phll.k ∧
      ∀ i, regs ((List.range n).foldl (fun p i => raise p i (f i)) phll) i =
        if i < n then max (regs phll i) (f i).toNat else regs phll i := by
  induction n with
  | zero => simp
  | succ n ih =>
    obtain ⟨hk, hregs⟩ := ih (by omega)
    rw [List.range_succ, List.foldl_append]
    refine ⟨by simp [hk], ?_⟩
    intro i
    -- the iteration raises register `n`, which the earlier ones have not touched
    show regs (raise _ n (f n)) i = _
    rw [regs_raise (by rw [hk]; omega)]
    show max (regs _ i) (only n (f n).toNat i) = _
    rw [hregs i, only]
    by_cases hi : i = n
    · subst hi
      simp
    · rw [if_neg hi, Nat.max_zero]
      by_cases hlt : i < n
      · rw [if_pos hlt, if_pos (by omega)]
      · rw [if_neg hlt, if_neg (by omega)]

/-- A merge keeps the number of registers of its first argument. -/
theorem k_merge : (hyperloglogMerge phll phll2).1.k = phll.k := by
  unfold hyperloglogMerge
  split
  · rfl
  · exact (regs_mergeLoop _ _ le_rfl).1

/-- **Merging is a join.** -/
theorem regs_merge (hk : phll.k = phll2.k) :
    (hyperloglogMerge phll phll2).2 = true ∧
      regs (hyperloglogMerge phll phll2).1 = regs phll ⊔ regs phll2 := by
  unfold hyperloglogMerge
  rw [if_neg (not_not.mpr hk)]
  refine ⟨rfl, ?_⟩
  ext i
  show regs _ i = max (regs phll i) (regs phll2 i)
  rw [(regs_mergeLoop _ _ le_rfl).2 i]
  by_cases hi : i < phll.k.toNat
  · rw [if_pos hi]
    rfl
  · -- beyond the arrays both functions are zero
    have h2 : regs phll2 i = 0 := regs_of_le (by rw [← hk]; exact not_lt.mp hi)
    rw [if_neg hi, regs_of_le (not_lt.mp hi), h2]
    rfl

/-- **Sketches form a semilattice and insertion is a homomorphism.**  Inserting two lists one
    after the other is merging their sketches; the registers depend only on the set of byte
    strings; merging is commutative, associative and idempotent on the registers of sketches of
    one size, and it refuses sketches of different sizes. -/
theorem sketch_semilattice (func : Hash64) (k : UInt32) (hk : 0 < k) :
    (∀ xs ys, (hyperloglogMerge (sketch func k xs) (sketch func k ys)).2 = true ∧
      (sketch func k (xs ++ ys)).R =
        (hyperloglogMerge (sketch func k xs) (sketch func k ys)).1.R) ∧
    (∀ xs ys : List (List UInt8), (∀ x, x ∈ xs ↔ x ∈ ys) →
      (sketch func k xs).R = (sketch func k ys).R) ∧
    (∀ a b : HyperLogLog, a.k = b.k →
      (hyperloglogMerge a b).1.R = (hyperloglogMerge b a).1.R) ∧
    (∀ a b c : HyperLogLog, a.k = b.k → b.k = c.k →
      (hyperloglogMerge (hyperloglogMerge a b).1 c).1.R =
        (hyperloglogMerge a (hyperloglogMerge b c).1).1.R) ∧
    (∀ a : HyperLogLog, (hyperloglogMerge a a).1.R = a.R) ∧
    (∀ a b : HyperLogLog, a.k ≠ b.k → hyperloglogMerge a b = (a, false)) := by
  refine ⟨?_, ?_, ?_, ?_, ?_, ?_⟩
  · intro xs ys
    have hsize : (sketch func k xs).k = (sketch func k ys).k := by
      rw [k_sketch hk, k_sketch hk]
    -- both sides are the join over the union of the two sets
    have hmerge := regs_merge hsize
    refine ⟨hmerge.1, R_eq_of_regs (by rw [k_merge, k_sketch hk, k_sketch hk]) ?_⟩
    rw [hmerge.2, regs_sketch hk, regs_sketch hk, regs_sketch hk, List.toFinset_append,
      Finset.sup_union]
  · intro xs ys hset
    refine R_eq_of_regs (by rw [k_sketch hk, k_sketch hk]) ?_
    -- the registers are a join over the set of byte strings
    have hfin : xs.toFinset = ys.toFinset := by
      ext x
      rw [List.mem_toFinset, List.mem_toFinset, hset x]
    rw [regs_sketch hk, regs_sketch hk, hfin]
  · intro a b hab
    refine R_eq_of_regs (by rw [k_merge, k_merge, hab]) ?_
    rw [(regs_merge hab).2, (regs_merge hab.symm).2, sup_comm]
  · intro a b c hab hbc
    refine R_eq_of_regs (by rw [k_merge, k_merge, k_merge]) ?_
    rw [(regs_merge (by rw [k_merge, hab, hbc])).2, (regs_merge hab).2,
      (regs_merge (by rw [k_merge, hab])).2, (regs_merge hbc).2, sup_assoc]
  · intro a
    refine R_eq_of_regs k_merge ?_
    rw [(regs_merge rfl).2, sup_idem]
  · intro a b hab
    rw [hyperloglogMerge, if_pos hab]

/-- Two byte strings, one of them twice, with the length as the hash value. -/
theorem sketch_semilattice_lengths :
    (sketch (fun d _ => UInt64.ofNat d.length) 4 [[7], [7, 7], [9]]).R =
        (hyperloglogMerge (sketch (fun d _ => UInt64.ofNat d.length) 4 [[7]])
          (sketch (fun d _ => UInt64.ofNat d.length) 4 [[7, 7], [9]])).1.R ∧
      (sketch (fun d _ => UInt64.ofNat d.length) 4 [[7], [7, 7], [9]]).R = [0, 9, 9, 0] :=
  ⟨((sketch_semilattice (fun d _ => UInt64.ofNat d.length) 4 (by decide)).1 [[7]] [[7, 7], [9]]).2,
    by decide⟩

end Niuchacz.Cardinality
