import Mathlib.Algebra.Group.Nat.Defs
import Mathlib.Data.Int.Notation
import Mathlib.Data.Nat.Notation
import Niuchacz.Lib.Delimited

namespace Lib.Numerals

/-!
# Numerals joined by separators

Octets written as numerals with a separator in between, such as `10.0.0.1` in base 10 or
`a:0:0:0:0:1` in base 16, as lists of ASCII codes.

* `write`, `read` — the text of a list of octets, and the octets of a text.
* `read_write` — **round trip**, for a base in which the single octets are read back.
* `decimal`, `ofDecimal` — integers with a sign; `ofDecimal_decimal` reads them back.
-/

variable {base : ℕ} {sep : UInt8}

/-- The numeral of an octet, without leading zeros. -/
def numeral (base : ℕ) (b : UInt8) : List UInt8 :=
  (Nat.toDigits base b.toNat).map fun c => UInt8.ofNat c.toNat

/-- The value of a digit `0` to `9` or `a` to `f`. -/
def digit (base : ℕ) (c : UInt8) : Option ℕ :=
  let d := if 48 ≤ c ∧ c ≤ 57 then c.toNat - 48 else if 97 ≤ c ∧ c ≤ 102 then c.toNat - 87 else base
  if d < base then some d else none

/-- The octet that a numeral stands for. -/
def octet (base : ℕ) (s : List UInt8) : Option UInt8 :=
  match s.foldlM (fun n c => (digit base c).map (n * base + ·)) 0 with
  | none => none
  | some n => if s ≠ [] ∧ n < 256 then some (UInt8.ofNat n) else none

/-- The numerals of the octets with separators in between. -/
def write (base : ℕ) (sep : UInt8) (octets : List UInt8) : List UInt8 :=
  [sep].intercalate (octets.map (numeral base))

/-- The octets of a text. -/
def read (base : ℕ) (sep : UInt8) (s : List UInt8) : Option (List UInt8) :=
  (s.splitOn sep).mapM (octet base)

/-- The numeral of every octet is read back, and does not contain the separator. -/
def Readable (base : ℕ) (sep : UInt8) : Prop :=
  ∀ b : Fin 256, octet base (numeral base (UInt8.ofNat b)) = some (UInt8.ofNat b) ∧
    sep ∉ numeral base (UInt8.ofNat b)

instance (base : ℕ) (sep : UInt8) : Decidable (Readable base sep) := by
  unfold Readable
  infer_instance

/-- A numeral is read back as its byte and does not contain the separator. -/
theorem Readable.octet (h : Readable base sep) (b : UInt8) :
    octet base (numeral base b) = some b ∧ sep ∉ numeral base b := by
  have hb := h ⟨b.toNat, b.toNat_lt⟩
  rwa [UInt8.ofNat_toNat] at hb

/-- **Round trip.**  The octets are read back from their text. -/
theorem read_write (h : Readable base sep) {octets : List UInt8} (hne : octets ≠ []) :
    read base sep (write base sep octets) = some octets := by
  have hsep : ∀ w ∈ octets.map (numeral base), sep ∉ w := by
    intro w hw
    obtain ⟨b, -, rfl⟩ := List.mem_map.mp hw
    exact (h.octet b).2
  rw [read, write, List.splitOn_intercalate sep hsep (by simpa using hne)]
  exact Delimited.mapM_map fun b _ => (h.octet b).1

/-! ### Integers -/

/-- The decimal numeral of an integer, with a minus sign if it is negative. -/
def decimal (n : ℤ) : List UInt8 :=
  (if n < 0 then [45] else []) ++
    (Nat.toDigits 10 n.natAbs).map fun c => UInt8.ofNat c.toNat

/-- The number that some digits stand for. -/
def ofDigits (s : List UInt8) : ℕ := s.foldl (fun n c => 10 * n + (c.toNat - 48)) 0

/-- The integer that a decimal numeral stands for. -/
def ofDecimal (s : List UInt8) : ℤ :=
  if s.head? = some 45 then -ofDigits s.tail else ofDigits s

/-- The ASCII codes of decimal digits. -/
theorem toNat_digit {n : ℕ} {c : Char} (hc : c ∈ Nat.toDigits 10 n) :
    (UInt8.ofNat c.toNat).toNat = c.toNat ∧ 48 ≤ c.toNat ∧ c.toNat ≤ 57 := by
  have hdigit := Nat.isDigit_of_mem_toDigits (by decide) (by decide) hc
  simp only [Char.isDigit, Bool.and_eq_true, decide_eq_true_eq] at hdigit
  have hle : 48 ≤ c.toNat := hdigit.1
  have hge : c.toNat ≤ 57 := hdigit.2
  refine ⟨?_, hle, hge⟩
  rw [UInt8.toNat_ofNat', Nat.mod_eq_of_lt (by omega)]

/-- The digits of a number are read back as the number. -/
theorem ofDigits_toDigits (n : ℕ) :
    ofDigits ((Nat.toDigits 10 n).map fun c => UInt8.ofNat c.toNat) = n := by
  have hfold : ∀ (cs : List Char) (k : ℕ), (∀ c ∈ cs, c ∈ Nat.toDigits 10 n) →
      (cs.map fun c => UInt8.ofNat c.toNat).foldl (fun n c => 10 * n + (c.toNat - 48)) k =
        Nat.ofDigitChars 10 cs k := by
    intro cs
    induction cs with
    | nil => exact fun _ _ => rfl
    | cons c cs ih =>
      intro k hcs
      rw [List.map_cons, List.foldl_cons, (toNat_digit (hcs c (by simp))).1,
        ih _ fun c' hc' => hcs c' (List.mem_cons_of_mem c hc')]
      rfl
  rw [ofDigits, hfold _ _ fun _ hc => hc, Nat.ofDigitChars_ten_toDigits]

/-- A numeral consists of digits and minus signs. -/
theorem mem_decimal {n : ℤ} {b : UInt8} (hb : b ∈ decimal n) :
    b = 45 ∨ 48 ≤ b.toNat ∧ b.toNat ≤ 57 := by
  rcases List.mem_append.mp hb with hb | hb
  · split at hb
    · exact Or.inl (List.mem_singleton.mp hb)
    · exact absurd hb List.not_mem_nil
  · obtain ⟨c, hc, rfl⟩ := List.mem_map.mp hb
    have hdigit := toNat_digit hc
    rw [hdigit.1]
    exact Or.inr hdigit.2

/-- **Round trip.**  An integer is read back from its numeral. -/
theorem ofDecimal_decimal (n : ℤ) : ofDecimal (decimal n) = n := by
  by_cases hn : n < 0
  · have hdec : decimal n =
        45 :: (Nat.toDigits 10 n.natAbs).map fun c => UInt8.ofNat c.toNat := by
      rw [decimal, if_pos hn, List.singleton_append]
    rw [ofDecimal, hdec, List.head?_cons, if_pos rfl, List.tail_cons, ofDigits_toDigits]
    omega
  · have hdec : decimal n = (Nat.toDigits 10 n.natAbs).map fun c => UInt8.ofNat c.toNat := by
      rw [decimal, if_neg hn, List.nil_append]
    -- a digit is not taken for a sign
    have hhead : (decimal n).head? ≠ some 45 := by
      intro hhead
      rw [hdec] at hhead
      obtain ⟨c, hc, hcode⟩ := List.mem_map.mp (List.mem_of_head? hhead)
      have hdigit := toNat_digit hc
      rw [hcode] at hdigit
      have h45 : (45 : UInt8).toNat = 45 := rfl
      omega
    rw [ofDecimal, if_neg hhead, hdec, ofDigits_toDigits]
    omega

/-- The length of a decimal numeral, with room for a sign. -/
theorem length_decimal_le {n : ℤ} {k : ℕ} (hk : 0 < k) (hn : n.natAbs < 10 ^ k) :
    (decimal n).length ≤ k + 1 := by
  have hdigits := (Nat.length_toDigits_le_iff (by decide) hk).mpr hn
  rw [decimal, List.length_append, List.length_map]
  split
  · rw [List.length_singleton]
    omega
  · rw [List.length_nil]
    omega

end Lib.Numerals
