import Mathlib.Algebra.Order.Field.Rat
import Niuchacz.Cardinality

namespace Niuchacz.Cardinality

/-!
# The estimate

`hyperloglogCardinality` goes through the registers with an index of 16 bits, and estimates with
floating-point numbers, of which nothing is assumed: they are a parameter.

* `Arith` — the arithmetic of the source's `double`s.
* `hyperloglogCardinality` — its loop has a number of iterations that it may make, and `none` is a
  call that has not returned by then.
* `cardinalityLoop_eq_none` — an index of 16 bits never gets to `2 ^ 16`.
* `registers_visited_once` — when the loop ends, and with what.
-/

/-- The arithmetic of `double`: constants (also those of type `float`), conversions, operations. -/
structure Arith (ζ : Type) where
  double : ℚ → ζ
  float : ℚ → ζ
  ofUnsigned : UInt32 → ζ
  ofUnsignedFloat : UInt32 → ζ
  ofUnsignedShort : UInt16 → ζ
  ofInt : Int32 → ζ
  add : ζ → ζ → ζ
  mul : ζ → ζ → ζ
  div : ζ → ζ → ζ
  log : ζ → ζ
  le : ζ → ζ → Bool
  toUnsignedLongLong : ζ → UInt64
  -- `1 << n`, which C leaves undefined for large `n`
  oneShl : UInt8 → Int32

section
variable {ζ : Type} (ar : Arith ζ)

/-- `i_hyperloglogGetAlpha`. -/
def getAlpha (k : UInt32) : ζ :=
  if k = 16 then ar.float 0.673
  else if k = 32 then ar.float 0.697
  else if k = 64 then ar.float 0.709
  else ar.div (ar.double 0.7213)
    (ar.add (ar.double 1.0) (ar.div (ar.double 1.079) (ar.ofUnsignedFloat k)))

/-- `i_hyperloglogLinearCounting`. -/
def linearCounting (m V : ζ) : ζ := ar.mul m (ar.log (ar.div m V))

/-- The variables of the loop; `visited` has the registers that it has looked at. -/
structure Loop (ζ : Type) where
  i : UInt16
  zeroRegisters : UInt16
  Z : ζ
  visited : List ℕ

/-- Before the loop. -/
def Loop.start : Loop ζ := ⟨0, 0, ar.double 0.0, []⟩

/-- The body of the loop, and `i++`. -/
def Loop.next (phll : HyperLogLog) (l : Loop ζ) : Loop ζ :=
  let r := phll.R.getD l.i.toNat 0
  { i := l.i + 1
    zeroRegisters := if r = 0 then l.zeroRegisters + 1 else l.zeroRegisters
    Z := ar.add l.Z (ar.div (ar.double 1.0) (ar.ofInt (ar.oneShl r)))
    visited := l.visited ++ [l.i.toNat] }

/-- The loop of `hyperloglogCardinality`; `i` is compared as an `unsigned int`. -/
def cardinalityLoop (phll : HyperLogLog) : ℕ → Loop ζ → Option (Loop ζ)
  | 0, _ => none
  | n + 1, l => if l.i.toUInt32 < phll.k then cardinalityLoop phll n (l.next ar phll) else some l

/-- `hyperloglogCardinality`. -/
def hyperloglogCardinality (phll : HyperLogLog) (fuel : ℕ) : Option UInt64 := do
  let k := ar.ofUnsigned phll.k
  let l ← cardinalityLoop ar phll fuel (Loop.start ar)
  let estimate :=
    ar.mul (ar.mul (ar.mul (getAlpha ar phll.k) k) k) (ar.div (ar.ofInt 1) l.Z)
  if ar.le estimate (ar.mul (ar.div (ar.double 5.0) (ar.double 2.0)) k) then
    if l.zeroRegisters = 0 then return ar.toUnsignedLongLong estimate
    else return ar.toUnsignedLongLong (linearCounting ar k (ar.ofUnsignedShort l.zeroRegisters))
  else return ar.toUnsignedLongLong estimate

variable {ar} {phll : HyperLogLog} {l : Loop ζ} {n : ℕ}

/-- With `2 ^ 16` registers or more the index is always below their number. -/
theorem cardinalityLoop_eq_none (hk : 2 ^ 16 ≤ phll.k.toNat) (fuel : ℕ) (l : Loop ζ) :
    cardinalityLoop ar phll fuel l = none := by
  induction fuel generalizing l with
  | zero => rfl
  | succ fuel ih =>
    have hlt : l.i.toUInt32 < phll.k := by
      rw [UInt32.lt_iff_toNat_lt, UInt16.toNat_toUInt32]
      exact l.i.toNat_lt.trans_le hk
    rw [cardinalityLoop, if_pos hlt, ih]

/-- The first `n` registers have been looked at. -/
structure Loop.At (phll : HyperLogLog) (n : ℕ) (l : Loop ζ) : Prop where
  i : l.i.toNat = n
  zeroRegisters : l.zeroRegisters.toNat = (phll.R.take n).count 0
  visited : l.visited = List.range n

theorem at_start : (Loop.start ar).At phll 0 := ⟨rfl, rfl, rfl⟩

/-- **Step.**  One more register. -/
theorem Loop.At.next (h : l.At phll n) (hn : n < phll.k.toNat) (hk : phll.k.toNat < 2 ^ 16) :
    (l.next ar phll).At phll (n + 1) := by
  have hlen : n < phll.R.length := by rwa [phll.length_R]
  have h1 : (1 : UInt16).toNat = 1 := rfl
  -- the number of zeros is at most `n`, so that neither counter wraps around
  have hcount : (phll.R.take n).count 0 ≤ n :=
    List.count_le_length.trans (List.length_take_le n phll.R)
  have hi := h.i
  have hz := h.zeroRegisters
  refine ⟨?_, ?_, ?_⟩
  · show (l.i + 1).toNat = n + 1
    rw [UInt16.toNat_add]
    omega
  · have htake : (phll.R.take (n + 1)).count 0 =
        (phll.R.take n).count 0 + if phll.R[n] = 0 then 1 else 0 := by
      rw [List.take_succ_eq_append_getElem hlen, List.count_append, List.count_singleton]
      simp only [beq_iff_eq]
    have hget : phll.R.getD l.i.toNat 0 = phll.R[n] := by
      rw [hi, List.getD_eq_getElem _ _ hlen]
    show (if phll.R.getD l.i.toNat 0 = 0 then l.zeroRegisters + 1 else l.zeroRegisters).toNat = _
    rw [hget, htake]
    split
    · rw [UInt16.toNat_add]
      omega
    · exact hz
  · show l.visited ++ [l.i.toNat] = _
    rw [h.visited, hi, List.range_succ]

/-- **Run.**  With fewer registers than `2 ^ 16` the loop ends behind the last one. -/
theorem Loop.At.run (h : l.At phll n) (hn : n ≤ phll.k.toNat) (hk : phll.k.toNat < 2 ^ 16) :
    ∃ fuel l', cardinalityLoop ar phll fuel l = some l' ∧ l'.At phll phll.k.toNat := by
  -- on the number of registers left
  obtain ⟨left, hleft⟩ : ∃ left, n + left = phll.k.toNat := ⟨phll.k.toNat - n, by omega⟩
  induction left generalizing n l with
  | zero =>
    have hge : ¬ l.i.toUInt32 < phll.k := by
      rw [UInt32.lt_iff_toNat_lt, UInt16.toNat_toUInt32, h.i]
      omega
    refine ⟨1, l, by rw [cardinalityLoop, if_neg hge], ?_⟩
    rwa [← hleft]
  | succ left ih =>
    have hlt : l.i.toUInt32 < phll.k := by
      rw [UInt32.lt_iff_toNat_lt, UInt16.toNat_toUInt32, h.i]
      omega
    obtain ⟨fuel, l', hloop, hat⟩ := ih (h.next (by omega) hk) (by omega) (by omega)
    exact ⟨fuel + 1, l', by rw [cardinalityLoop, if_pos hlt, hloop], hat⟩

end

/-- **Each register is visited once.**  The loop ends, after one iteration for each register in
    order and with the number of registers that are zero, exactly if there are fewer than `2 ^ 16`;
    otherwise the call does not return. -/
theorem registers_visited_once {ζ : Type} (ar : Arith ζ) (phll : HyperLogLog) :
    ((∃ fuel l, cardinalityLoop ar phll fuel (Loop.start ar) = some l ∧
        l.visited = List.range phll.k.toNat ∧ l.zeroRegisters.toNat = phll.R.count 0) ↔
      phll.k.toNat < 2 ^ 16) ∧
    ((∃ fuel, (hyperloglogCardinality ar phll fuel).isSome = true) ↔ phll.k.toNat < 2 ^ 16) := by
  constructor
  · constructor
    · rintro ⟨fuel, l, hloop, -, -⟩
      -- a counter of 16 bits wraps around before it has come to the end
      by_contra hk
      rw [cardinalityLoop_eq_none (Nat.le_of_not_lt hk)] at hloop
      cases hloop
    · intro hk
      obtain ⟨fuel, l, hloop, hat⟩ := at_start.run (Nat.zero_le _) hk
      refine ⟨fuel, l, hloop, hat.visited, ?_⟩
      rw [hat.zeroRegisters, ← phll.length_R, List.take_length]
  · constructor
    · rintro ⟨fuel, hsome⟩
      by_contra hk
      rw [hyperloglogCardinality, cardinalityLoop_eq_none (Nat.le_of_not_lt hk)] at hsome
      cases hsome
    · intro hk
      have hrun : ∃ fuel l, cardinalityLoop ar phll fuel (Loop.start ar) = some l ∧
          l.At phll phll.k.toNat := at_start.run (Nat.zero_le _) hk
      obtain ⟨fuel, l, hloop, -⟩ := hrun
      refine ⟨fuel, ?_⟩
      rw [hyperloglogCardinality, hloop]
      dsimp only [Option.bind_eq_bind, Option.bind_some]
      split
      · split <;> rfl
      · rfl

/-- A new sketch with `2 ^ 16` registers: the call does not return, whatever the arithmetic is. -/
theorem cardinality_never_returns :
    (hyperloglogCreate (fun _ _ => 0) 65536).k.toNat = 2 ^ 16 ∧
      ∀ (ζ : Type) (ar : Arith ζ) (fuel : ℕ),
        hyperloglogCardinality ar (hyperloglogCreate (fun _ _ => 0) 65536) fuel = none := by
  have hk : (hyperloglogCreate (fun _ _ => 0) 65536).k.toNat = 2 ^ 16 := rfl
  refine ⟨hk, ?_⟩
  intro ζ ar fuel
  rw [hyperloglogCardinality, cardinalityLoop_eq_none hk.ge]
  rfl

end Niuchacz.Cardinality
