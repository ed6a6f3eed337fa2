import Mathlib.Data.BitVec
import Mathlib.Data.List.GetD
import Mathlib.Logic.Function.Iterate
import Niuchacz.Lib.Streaming

namespace Lib.Crc

/-!
# Cyclic redundancy checks

A register of `w` bits is shifted to the right, and the polynomial is added whenever a 1 falls out
(`shift`); the bits of a message are added to the lowest bit of the register one after another
(`feed`).  If the polynomial has its highest bit set, shifting is linear and loses nothing, and up
to `w` bits in a row can be added at once before the register is shifted.  So a change that is
confined to `w` consecutive bits is always seen.

* `shift_xor`, `shift_injective` — linearity, and that nothing is lost.
* `foldl_feed` — up to `w` bits at once.
* `foldl_feed_ne` — two messages that differ only in `w` consecutive bits have different checks.
-/

variable {w : ℕ} {poly : BitVec w} {xs ys : List Bool}

/-- One shift of the register. -/
def shift (poly c : BitVec w) : BitVec w :=
  if c.getLsbD 0 then (c >>> 1) ^^^ poly else c >>> 1

/-- One bit of a message. -/
def feed (poly c : BitVec w) (b : Bool) : BitVec w := shift poly (c ^^^ BitVec.ofNat w b.toNat)

/-! ### Shifting -/

/-- Unfolding lemma: the bits move down by one, and the polynomial is added if a 1 falls out. -/
theorem getLsbD_shift (poly c : BitVec w) (i : ℕ) :
    (shift poly c).getLsbD i = (c.getLsbD (i + 1) ^^ (c.getLsbD 0 && poly.getLsbD i)) := by
  unfold shift
  split
  · rename_i h
    rw [BitVec.getLsbD_xor, BitVec.getLsbD_ushiftRight, h, Bool.true_and, Nat.add_comm]
  · rename_i h
    rw [Bool.not_eq_true] at h
    rw [BitVec.getLsbD_ushiftRight, h, Bool.false_and, Bool.xor_false, Nat.add_comm]

/-- One shift of the register is linear. -/
theorem shift_xor (poly a b : BitVec w) :
    shift poly (a ^^^ b) = shift poly a ^^^ shift poly b := by
  ext i hi
  simp only [← BitVec.getLsbD_eq_getElem, BitVec.getLsbD_xor, getLsbD_shift]
  cases a.getLsbD 0 <;> cases b.getLsbD 0 <;> cases poly.getLsbD i <;> simp

/-- The highest bit tells whether the polynomial has been added. -/
theorem eq_zero_of_shift_eq_zero (hpoly : poly.msb = true) {c : BitVec w}
    (h : shift poly c = 0#w) : c = 0#w := by
  have hbits : ∀ i, (c.getLsbD (i + 1) ^^ (c.getLsbD 0 && poly.getLsbD i)) = false := by
    intro i
    rw [← getLsbD_shift, h, BitVec.getLsbD_zero]
  -- the top bit of the result is the bit that has fallen out
  have hlow : c.getLsbD 0 = false := by
    have hbit := hbits (w - 1)
    rw [BitVec.msb_eq_getLsbD_last] at hpoly
    have hover : c.getLsbD (w - 1 + 1) = false := BitVec.getLsbD_of_ge c _ (by omega)
    rw [hover, hpoly, Bool.and_true, Bool.false_xor] at hbit
    exact hbit
  apply BitVec.eq_of_getLsbD_eq
  intro i _
  rw [BitVec.getLsbD_zero]
  cases i with
  | zero => exact hlow
  | succ i =>
    have hbit := hbits i
    rwa [hlow, Bool.false_and, Bool.xor_false] at hbit

/-- With the top bit of the polynomial set, a shift loses nothing: that bit says what has fallen
    out. -/
theorem shift_injective (hpoly : poly.msb = true) : Function.Injective (shift poly) := by
  intro a b hab
  have hzero : shift poly (a ^^^ b) = 0#w := by rw [shift_xor, hab, BitVec.xor_self]
  exact BitVec.xor_eq_zero_iff.mp (eq_zero_of_shift_eq_zero hpoly hzero)

/-- A word whose highest bit is not set is shifted back. -/
theorem shift_shiftLeft {c : BitVec w} (h : c.msb = false) : shift poly (c <<< 1) = c := by
  apply BitVec.eq_of_getLsbD_eq
  intro i hi
  rw [getLsbD_shift]
  simp only [BitVec.getLsbD_shiftLeft]
  by_cases hlast : i + 1 < w
  · simp [hlast]
  · have hi' : i = w - 1 := by omega
    rw [BitVec.msb_eq_getLsbD_last] at h
    simp [hi', h]

/-! ### Many bits at once -/

/-- The word with the bits of a list, the first one in the lowest place. -/
def ofBits (w : ℕ) : List Bool → BitVec w
  | [] => 0#w
  | b :: bs => BitVec.ofNat w b.toNat ^^^ (ofBits w bs <<< 1)

theorem getLsbD_ofBits (bs : List Bool) (i : ℕ) :
    (ofBits w bs).getLsbD i = (decide (i < w) && bs.getD i false) := by
  -- over the list, whose head is the lowest bit
  induction bs generalizing i with
  | nil => simp [ofBits]
  | cons b bs ih =>
    rw [ofBits, BitVec.getLsbD_xor, BitVec.getLsbD_shiftLeft, BitVec.getLsbD_ofNat, ih]
    cases i with
    | zero => cases b <;> simp
    | succ i =>
      have hbit : b.toNat.testBit (i + 1) = false := by
        cases b with
        | false => exact Nat.zero_testBit _
        | true => exact Bool.eq_false_iff.mpr (by simp [Nat.testBit_one_eq_true_iff_self_eq_zero])
      rw [hbit]
      by_cases hi : i + 1 < w
      · have hi' : i < w := by omega
        simp [hi, hi']
      · simp [hi]

/-- Lists of at most `w` bits are told apart by their words. -/
theorem ofBits_injective (hlen : xs.length = ys.length) (hw : xs.length ≤ w)
    (h : ofBits w xs = ofBits w ys) : xs = ys := by
  apply List.ext_getElem hlen
  intro i hi hi'
  have hbit : (ofBits w xs).getLsbD i = (ofBits w ys).getLsbD i := by rw [h]
  have hiw : i < w := by omega
  rw [getLsbD_ofBits, getLsbD_ofBits, List.getD_eq_getElem _ _ hi, List.getD_eq_getElem _ _ hi']
    at hbit
  simpa [hiw] using hbit

/-- **Many bits at once.**  Up to `w` bits are added to the register before it is shifted. -/
theorem foldl_feed (bs : List Bool) (hlen : bs.length ≤ w) (c : BitVec w) :
    bs.foldl (feed poly) c = (shift poly)^[bs.length] (c ^^^ ofBits w bs) := by
  induction bs generalizing c with
  | nil =>
    show c = c ^^^ 0#w
    rw [BitVec.xor_zero]
  | cons b bs ih =>
    rw [List.length_cons] at hlen
    -- the other bits do not reach the highest place, and are shifted along
    have hmsb : (ofBits w bs).msb = false := by
      rw [BitVec.msb_eq_getLsbD_last, getLsbD_ofBits, List.getD_eq_default _ _ (by omega),
        Bool.and_false]
    have hshift : feed poly c b ^^^ ofBits w bs = shift poly (c ^^^ ofBits w (b :: bs)) := by
      rw [ofBits, ← BitVec.xor_assoc, shift_xor, shift_shiftLeft hmsb]
      rfl
    rw [List.foldl_cons, ih (by omega), hshift, List.length_cons, Function.iterate_succ_apply]

/-! ### Bursts -/

/-- For a fixed message the register at the end determines the one at the start. -/
theorem foldl_feed_injective (hpoly : poly.msb = true) (bs : List Bool) :
    Function.Injective fun c => bs.foldl (feed poly) c := by
  refine Streaming.foldl_injective (fun b c c' h => ?_) bs
  exact (BitVec.xor_left_inj _).mp (shift_injective hpoly h)

/-- **Bursts.**  Two messages that differ only in `w` consecutive bits have different checks. -/
theorem foldl_feed_ne (hpoly : poly.msb = true) (c : BitVec w) (pre post : List Bool)
    (hlen : xs.length = ys.length) (hw : xs.length ≤ w) (hne : xs ≠ ys) :
    (pre ++ xs ++ post).foldl (feed poly) c ≠ (pre ++ ys ++ post).foldl (feed poly) c := by
  intro h
  simp only [List.foldl_append] at h
  have hmid := foldl_feed_injective hpoly post h
  rw [foldl_feed xs hw, foldl_feed ys (hlen ▸ hw), hlen] at hmid
  have hword := (shift_injective hpoly).iterate _ hmid
  exact hne (ofBits_injective hlen hw ((BitVec.xor_right_inj _).mp hword))

end Lib.Crc
