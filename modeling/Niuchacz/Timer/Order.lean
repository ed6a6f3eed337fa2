import Mathlib.Data.Int.Order.Basic
import Mathlib.Data.Prod.Lex
import Mathlib.Order.Compare
import Niuchacz.Timer

namespace Niuchacz.Timer

/-!
# The order of timestamps

`timerCmp` compares nanoseconds since the epoch, which are counted modulo `2 ^ 64`, while seconds
go up to `2 ^ 63`.  For timestamps with less than `10 ^ 9` nanoseconds in their second field the
count without the modulus is in the lexicographic order.

* `cmp_lex` — the order of the exact counts.
* `timerCmp_eq` — `timerCmp` is the order of the counts modulo `2 ^ 64`.
* `timerCmp_lexicographic` — when the two are the same.
* `ordered_below_iff` — up to which count all timestamps are ordered.
-/

variable {ts ts₁ ts₂ : Timespec}

/-! ### Counts -/

/-- No sign, and less than a second of nanoseconds. -/
structure Timespec.Normalised (ts : Timespec) : Prop where
  sec : 0 ≤ ts.tv_sec
  nsec : 0 ≤ ts.tv_nsec
  lt : ts.tv_nsec < 1000000000

/-- The fields in lexicographic order. -/
def Timespec.lex (ts : Timespec) : ℤ ×ₗ ℤ := toLex (ts.tv_sec.toInt, ts.tv_nsec.toInt)

/-- All nanoseconds, without a modulus. -/
def Timespec.count (ts : Timespec) : ℕ :=
  ts.tv_sec.toNatClampNeg * 1000000000 + ts.tv_nsec.toNatClampNeg

/-- The result of a comparison in C. -/
def sign : Ordering → ℤ
  | .lt => -1
  | .eq => 0
  | .gt => 1

/-- The three results of a comparison are different numbers. -/
theorem sign_injective : Function.Injective sign := by
  intro a b h
  cases a <;> cases b <;> first | rfl | cases h

/-- Comparisons with the same answers. -/
theorem cmp_congr {α β : Type*} [LinearOrder α] [LinearOrder β] {x y : α} {a b : β}
    (hlt : x < y ↔ a < b) (hgt : y < x ↔ b < a) : cmp x y = cmp a b := by
  unfold cmp cmpUsing
  simp only [hlt, hgt]

/-- For normalised times the order of seconds, then nanoseconds is that of all nanoseconds. -/
theorem lex_lt_iff (h₁ : ts₁.Normalised) (h₂ : ts₂.Normalised) :
    ts₁.lex < ts₂.lex ↔ ts₁.count < ts₂.count := by
  have hsec₁ : 0 ≤ ts₁.tv_sec.toInt := Int64.le_iff_toInt_le.mp h₁.sec
  have hsec₂ : 0 ≤ ts₂.tv_sec.toInt := Int64.le_iff_toInt_le.mp h₂.sec
  have hnsec₁ : 0 ≤ ts₁.tv_nsec.toInt := Int64.le_iff_toInt_le.mp h₁.nsec
  have hnsec₂ : 0 ≤ ts₂.tv_nsec.toInt := Int64.le_iff_toInt_le.mp h₂.nsec
  have hlt₁ : ts₁.tv_nsec.toInt < 1000000000 := Int64.lt_iff_toInt_lt.mp h₁.lt
  have hlt₂ : ts₂.tv_nsec.toInt < 1000000000 := Int64.lt_iff_toInt_lt.mp h₂.lt
  unfold Timespec.lex Timespec.count
  rw [Prod.Lex.toLex_lt_toLex]
  simp only [← Int64.toNat_toInt]
  omega

theorem cmp_lex (h₁ : ts₁.Normalised) (h₂ : ts₂.Normalised) :
    cmp ts₁.lex ts₂.lex = cmp ts₁.count ts₂.count :=
  cmp_congr (lex_lt_iff h₁ h₂) (lex_lt_iff h₂ h₁)

/-- `timerTimespecToNs` counts modulo `2 ^ 64`. -/
theorem toNat_timerTimespecToNs (h : ts.Normalised) :
    (timerTimespecToNs ts).toNat = ts.count % 2 ^ 64 := by
  rw [timerTimespecToNs, Int64.toUInt64_add, Int64.toUInt64_mul, UInt64.toNat_add, UInt64.toNat_mul,
    Int64.toNat_toUInt64_of_le h.sec, Int64.toNat_toUInt64_of_le h.nsec, Nat.mod_add_mod]
  rfl

/-- `timerCmp` compares the numbers of nanoseconds modulo `2 ^ 64`. -/
theorem timerCmp_eq (ts₁ ts₂ : Timespec) :
    timerCmp ts₁ ts₂ =
      sign (cmp (timerTimespecToNs ts₁).toNat (timerTimespecToNs ts₂).toNat) := by
  unfold timerCmp
  rcases lt_trichotomy (timerTimespecToNs ts₁).toNat (timerTimespecToNs ts₂).toNat with h | h | h
  · have hne : timerTimespecToNs ts₁ ≠ timerTimespecToNs ts₂ := fun heq => h.ne (by rw [heq])
    rw [(cmp_eq_lt_iff _ _).mpr h, if_neg hne, if_pos (UInt64.lt_iff_toNat_lt.mpr h)]
    rfl
  · rw [(cmp_eq_eq_iff _ _).mpr h, if_pos (UInt64.toNat_inj.mp h)]
    rfl
  · have hne : timerTimespecToNs ts₁ ≠ timerTimespecToNs ts₂ := fun heq => h.ne (by rw [heq])
    rw [(cmp_eq_gt_iff _ _).mpr h, if_neg hne, if_neg fun hlt =>
      h.not_gt (UInt64.lt_iff_toNat_lt.mp hlt)]
    rfl

/-! ### Comparisons modulo a number -/

/-- Two numbers are in the order of their remainders if they are in the same revolution, or if the
    one of the later revolution has the larger remainder. -/
theorem cmp_mod_eq_iff (a b m : ℕ) :
    cmp (a % m) (b % m) = cmp a b ↔
      a / m = b / m ∨ (a / m < b / m ∧ a % m < b % m) ∨ (b / m < a / m ∧ b % m < a % m) := by
  rcases lt_trichotomy (a / m) (b / m) with hdiv | hdiv | hdiv
  · rw [(cmp_eq_lt_iff a b).mpr (Nat.lt_of_div_lt_div hdiv), cmp_eq_lt_iff]
    simp [hdiv, hdiv.ne, hdiv.not_gt]
  · -- in one revolution only the remainders differ
    have ha := Nat.div_add_mod a m
    have hb := Nat.div_add_mod b m
    rw [hdiv] at ha
    refine iff_of_true (cmp_congr ?_ ?_) (Or.inl hdiv) <;> omega
  · rw [(cmp_eq_gt_iff a b).mpr (Nat.lt_of_div_lt_div hdiv), cmp_eq_gt_iff]
    simp [hdiv, hdiv.ne', hdiv.not_gt]

/-! ### The order of `timerCmp` -/

/-- It is the comparison of times exactly if the remainders are ordered as the numbers. -/
theorem timerCmp_eq_lex_iff (h₁ : ts₁.Normalised) (h₂ : ts₂.Normalised) :
    timerCmp ts₁ ts₂ = sign (cmp ts₁.lex ts₂.lex) ↔
      cmp (ts₁.count % 2 ^ 64) (ts₂.count % 2 ^ 64) = cmp ts₁.count ts₂.count := by
  rw [timerCmp_eq, toNat_timerTimespecToNs h₁, toNat_timerTimespecToNs h₂, cmp_lex h₁ h₂,
    sign_injective.eq_iff]

/-- **`timerCmp` and the order of timestamps.**  For two normalised timestamps it returns -1, 0 or 1
    by the lexicographic order of their fields exactly if their counts are in the same revolution
    of 64 bits, or the later one has the larger remainder. -/
theorem timerCmp_lexicographic (h₁ : ts₁.Normalised) (h₂ : ts₂.Normalised) :
    timerCmp ts₁ ts₂ = sign (cmp ts₁.lex ts₂.lex) ↔
      ts₁.count / 2 ^ 64 = ts₂.count / 2 ^ 64 ∨
      (ts₁.count / 2 ^ 64 < ts₂.count / 2 ^ 64 ∧ ts₁.count % 2 ^ 64 < ts₂.count % 2 ^ 64) ∨
      (ts₂.count / 2 ^ 64 < ts₁.count / 2 ^ 64 ∧ ts₂.count % 2 ^ 64 < ts₁.count % 2 ^ 64) := by
  rw [timerCmp_eq_lex_iff h₁ h₂, cmp_mod_eq_iff]

/-- One nanosecond makes a difference. -/
theorem timerCmp_lexicographic_next : timerCmp ⟨5, 999999999⟩ ⟨6, 0⟩ =
    sign (cmp (Timespec.lex ⟨5, 999999999⟩) (Timespec.lex ⟨6, 0⟩)) :=
  (timerCmp_lexicographic ⟨by decide, by decide, by decide⟩ ⟨by decide, by decide, by decide⟩).mpr
    (Or.inl rfl)

/-- The first timestamp beyond 64 bits, in the year 2554, is taken for the epoch. -/
theorem timerCmp_wraps :
    (Timespec.Normalised ⟨0, 0⟩ ∧ Timespec.Normalised ⟨18446744073, 709551616⟩) ∧
      Timespec.lex ⟨0, 0⟩ < Timespec.lex ⟨18446744073, 709551616⟩ ∧
      timerCmp ⟨0, 0⟩ ⟨18446744073, 709551616⟩ = 0 :=
  ⟨⟨⟨by decide, by decide, by decide⟩, by decide, by decide, by decide⟩,
    Prod.Lex.toLex_lt_toLex.mpr (Or.inl (by decide)), by decide⟩

/-- All timestamps below a limit are ordered exactly if the limit is not beyond 64 bits. -/
theorem ordered_below_iff (limit : ℕ) :
    (∀ ts₁ ts₂ : Timespec, ts₁.Normalised → ts₂.Normalised → ts₁.count < limit →
      ts₂.count < limit → timerCmp ts₁ ts₂ = sign (cmp ts₁.lex ts₂.lex)) ↔ limit ≤ 2 ^ 64 := by
  constructor
  · intro h
    by_contra hlimit
    have hzero : Timespec.Normalised ⟨0, 0⟩ := ⟨by decide, by decide, by decide⟩
    have hfirst : Timespec.Normalised ⟨18446744073, 709551616⟩ :=
      ⟨by decide, by decide, by decide⟩
    have hcount : Timespec.count ⟨18446744073, 709551616⟩ = 2 ^ 64 := by decide
    have hsame := h _ _ hzero hfirst (show 0 < limit by omega) (by omega)
    -- both have the remainder 0
    rw [timerCmp_eq_lex_iff hzero hfirst, hcount, Nat.mod_self, show Timespec.count ⟨0, 0⟩ = 0
      from rfl, Nat.zero_mod, cmp_self_eq_eq, eq_comm, cmp_eq_eq_iff] at hsame
    omega
  · intro hlimit ts₁ ts₂ h₁ h₂ hlt₁ hlt₂
    rw [timerCmp_eq_lex_iff h₁ h₂, Nat.mod_eq_of_lt (hlt₁.trans_le hlimit),
      Nat.mod_eq_of_lt (hlt₂.trans_le hlimit)]

end Niuchacz.Timer
