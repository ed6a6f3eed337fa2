import Niuchacz.Cardinality

namespace Niuchacz.Cardinality

/-!
# What the registers hold

The algorithm raises a register to the *rank* of a hash value: one more than the number of zeros
at its low end, behind the bits that choose the register.  The loop of the source looks at eight
bits only.

* `trailingZeros`, `hllRank`, `hllRegister` — ranks and registers of the algorithm.
* `toNat_rank` — the rank that the source computes is cut at 9.
* `regs_sketch_eq_min` — so is every register.
* `registers_hold_rank` — when no register has been cut.
-/

/-! ### The algorithm -/

/-- The number of zeros at the low end of the `w` low bits of `n`. -/
def trailingZeros : (w n : ℕ) → ℕ
  | 0, _ => 0
  | w + 1, n => if n % 2 = 1 then 0 else trailingZeros w (n / 2) + 1

/-- The rank of a hash value for `2 ^ b` registers: `64 - b` bits are left. -/
def hllRank (b : ℕ) (hashValue : UInt64) : ℕ :=
  1 + trailingZeros (64 - b) (hashValue.toNat / 2 ^ b)

/-- Register `x`: the largest rank of a byte string that is mapped to it, 0 if there is none. -/
def hllRegister (func : Hash64) (b : ℕ) (xs : List (List UInt8)) (x : ℕ) : ℕ :=
  ((xs.filter fun d => (func d 0).toNat % 2 ^ b = x).map fun d => hllRank b (func d 0)).foldr max 0

/-- As many zeros as the number can be halved. -/
theorem le_trailingZeros_iff {j w : ℕ} (hj : j ≤ w) (n : ℕ) :
    j ≤ trailingZeros w n ↔ 2 ^ j ∣ n := by
  induction w generalizing j n with
  | zero =>
    obtain rfl : j = 0 := by omega
    simp
  | succ w ih =>
    cases j with
    | zero => simp
    | succ j =>
      rw [trailingZeros]
      split
      · -- an odd number
        rename_i hodd
        refine iff_of_false (by omega) ?_
        intro hdvd
        have h2 : 2 ∣ n := (Dvd.intro_left (2 ^ j) (pow_succ 2 j).symm).trans hdvd
        omega
      · rename_i heven
        rw [Nat.add_le_add_iff_right, ih (by omega), pow_succ', Nat.dvd_div_iff_mul_dvd (by omega)]

/-- There are at most as many zeros as bits. -/
theorem trailingZeros_le (w n : ℕ) : trailingZeros w n ≤ w := by
  induction w generalizing n with
  | zero => exact le_rfl
  | succ w ih =>
    rw [trailingZeros]
    split
    · omega
    · exact Nat.succ_le_succ (ih _)

/-- Looking at fewer bits. -/
theorem trailingZeros_min {v w : ℕ} (h : v ≤ w) (n : ℕ) :
    trailingZeros v n = min v (trailingZeros w n) := by
  refine eq_of_forall_le_iff fun j => ?_
  rw [le_min_iff]
  by_cases hj : j ≤ v
  · rw [le_trailingZeros_iff hj, le_trailingZeros_iff (hj.trans h)]
    simp [hj]
  · have hle := trailingZeros_le v n
    exact iff_of_false (by omega) (fun hmin => hj hmin.1)

/-! ### The rank of the source -/

/-- The loop with `n` of the eight iterations left. -/
theorem toNat_rightmostLoop (n : ℕ) (i : UInt8) (val : UInt64) (hi : i.toNat + n = 8) :
    (rightmostLoop 0 8 n i val).toNat = i.toNat + 1 + trailingZeros n val.toNat := by
  -- over the bits that are still to be looked at
  induction n generalizing i val with
  | zero =>
    have h9 : ((8 : UInt8) - 0 + 1).toNat = 9 := rfl
    rw [rightmostLoop, h9, trailingZeros]
    omega
  | succ n ih =>
    have hsucc : (i + 1).toNat = i.toNat + 1 := by
      rw [UInt8.toNat_add]
      have h1 : (1 : UInt8).toNat = 1 := rfl
      omega
    have hbit : val &&& 1 = 1 ↔ val.toNat % 2 = 1 := by
      rw [← UInt64.toNat_inj, UInt64.toNat_and]
      exact iff_of_eq (congrArg (· = 1) (Nat.and_one_is_mod _))
    have hhalf : (val >>> 1).toNat = val.toNat / 2 := by
      rw [UInt64.toNat_shiftRight]
      exact Nat.shiftRight_eq_div_pow _ 1
    rw [rightmostLoop, trailingZeros]
    by_cases hodd : val.toNat % 2 = 1
    · rw [if_pos (hbit.mpr hodd), if_pos hodd, UInt8.sub_zero, hsucc]
    · rw [if_neg (fun h => hodd (hbit.mp h)), if_neg hodd, ih (i + 1) (val >>> 1) (by omega), hsucc,
        hhalf]
      omega

/-- **Ranks.**  The source cuts the rank at 9. -/
theorem toNat_rank {b : ℕ} (hb : b ≤ 15) (hashValue : UInt64) :
    (rank (UInt8.ofNat b) hashValue).toNat = min 9 (hllRank b hashValue) := by
  have hshift : (hashValue >>> (UInt8.ofNat b).toUInt64).toNat = hashValue.toNat / 2 ^ b := by
    have hb' : (UInt8.ofNat b).toUInt64.toNat % 64 = b := by
      rw [UInt8.toNat_toUInt64, UInt8.toNat_ofNat']
      omega
    rw [UInt64.toNat_shiftRight, hb', Nat.shiftRight_eq_div_pow]
  have hloop := toNat_rightmostLoop 8 0 (hashValue >>> (UInt8.ofNat b).toUInt64) rfl
  rw [hshift, trailingZeros_min (show 8 ≤ 64 - b by omega)] at hloop
  have h0 : (0 : UInt8).toNat = 0 := rfl
  show (rightmostLoop 0 8 8 0 _).toNat = _
  rw [hloop, hllRank]
  omega

/-! ### Registers -/

section
variable {func : Hash64} {b : ℕ} {xs : List (List UInt8)} {x : ℕ}

theorem toNat_registers (hb : b ≤ 15) : (UInt32.ofNat (2 ^ b)).toNat = 2 ^ b := by
  have hle : 2 ^ b ≤ 2 ^ 15 := Nat.pow_le_pow_right (by omega) hb
  rw [UInt32.toNat_ofNat']
  exact Nat.mod_eq_of_lt (by omega)

/-- What a byte string contributes to a register of `2 ^ b`. -/
theorem contribution_eq (hb : b ≤ 15) (d : List UInt8) :
    contribution func (UInt32.ofNat (2 ^ b)) d x =
      if (func d 0).toNat % 2 ^ b = x then min 9 (hllRank b (func d 0)) else 0 := by
  have hbits : (hyperloglogCreate func (UInt32.ofNat (2 ^ b))).bits = UInt8.ofNat b := by
    show UInt8.ofNat (Nat.log2 (UInt32.ofNat (2 ^ b)).toNat) = _
    rw [toNat_registers hb, Nat.log2_two_pow]
  have hindex : index (UInt32.ofNat (2 ^ b)) (func d 0) = (func d 0).toNat % 2 ^ b := by
    rw [index, UInt64.toNat_mod, UInt32.toNat_toUInt64, toNat_registers hb]
  rw [contribution, hbits, hindex, only, toNat_rank hb]
  simp only [eq_comm]

/-- **Registers.**  The registers of the source are those of the algorithm, cut at 9. -/
theorem regs_sketch_eq_min (hb : b ≤ 15) :
    regs (sketch func (UInt32.ofNat (2 ^ b)) xs) x = min 9 (hllRegister func b xs x) := by
  have hk : 0 < UInt32.ofNat (2 ^ b) := by
    rw [UInt32.lt_iff_toNat_lt, toNat_registers hb]
    exact Nat.two_pow_pos b
  rw [regs_sketch hk, Finset.sup_apply]
  induction xs with
  | nil => rfl
  | cons d xs ih =>
    rw [List.toFinset_cons, Finset.sup_insert, ih, contribution_eq hb]
    unfold hllRegister
    by_cases hd : (func d 0).toNat % 2 ^ b = x
    · rw [if_pos hd, List.filter_cons_of_pos (by simpa using hd), List.map_cons, List.foldr_cons]
      exact (min_max_distrib_left ..).symm
    · rw [if_neg hd, List.filter_cons_of_neg (by simpa using hd)]
      exact Nat.zero_max _

/-- The largest rank of a register is below a bound if all of them are. -/
theorem hllRegister_le_iff {n : ℕ} :
    hllRegister func b xs x ≤ n ↔
      ∀ d ∈ xs, (func d 0).toNat % 2 ^ b = x → hllRank b (func d 0) ≤ n := by
  unfold hllRegister
  induction xs with
  | nil => simp
  | cons d xs ih =>
    by_cases hd : (func d 0).toNat % 2 ^ b = x
    · rw [List.filter_cons_of_pos (by simpa using hd), List.map_cons, List.foldr_cons, max_le_iff,
        ih, List.forall_mem_cons]
      simp [hd]
    · rw [List.filter_cons_of_neg (by simpa using hd), ih, List.forall_mem_cons]
      simp [hd]

/-- The rank is cut if the nine bits behind the register's index are zero. -/
theorem hllRank_le_iff (hb : b ≤ 15) (hashValue : UInt64) :
    hllRank b hashValue ≤ 9 ↔ ¬ 2 ^ 9 ∣ hashValue.toNat / 2 ^ b := by
  rw [← le_trailingZeros_iff (show 9 ≤ 64 - b by omega), hllRank]
  omega

end

/-- **Registers hold the rank.**  After any list of byte strings every register is the largest rank
    of the strings mapped to it, exactly if no hash value has nine zeros behind the bits that choose
    the register. -/
theorem registers_hold_rank (func : Hash64) {b : ℕ} (hb : 1 ≤ b ∧ b ≤ 15)
    (xs : List (List UInt8)) :
    (∀ x < 2 ^ b, regs (sketch func (UInt32.ofNat (2 ^ b)) xs) x = hllRegister func b xs x) ↔
      ∀ d ∈ xs, ¬ 2 ^ 9 ∣ (func d 0).toNat / 2 ^ b := by
  have hcut : ∀ x, regs (sketch func (UInt32.ofNat (2 ^ b)) xs) x = hllRegister func b xs x ↔
      hllRegister func b xs x ≤ 9 := by
    intro x
    rw [regs_sketch_eq_min hb.2]
    omega
  simp only [hcut, hllRegister_le_iff, hllRank_le_iff hb.2]
  constructor
  · intro h d hd
    exact h _ (Nat.mod_lt _ (Nat.two_pow_pos b)) d hd rfl
  · intro h x _ d hd _
    exact h d hd

/-- Two registers and a hash value with eight zeros. -/
theorem registers_hold_rank_two :
    (∀ x < 2 ^ 1, regs (sketch (fun _ _ => 512) (UInt32.ofNat (2 ^ 1)) [[7]]) x =
      hllRegister (fun _ _ => 512) 1 [[7]] x) ∧ hllRegister (fun _ _ => 512) 1 [[7]] 0 = 9 :=
  ⟨(registers_hold_rank (fun _ _ => 512) (by decide) [[7]]).mpr (by decide), by decide⟩

/-- Two registers and a hash value with nine zeros: the register should be 10. -/
theorem register_below_rank :
    regs (sketch (fun _ _ => 1024) (UInt32.ofNat (2 ^ 1)) [[7]]) 0 = 9 ∧
      hllRegister (fun _ _ => 1024) 1 [[7]] 0 = 10 := by
  decide

end Niuchacz.Cardinality
