import Niuchacz.Cardinality
import Niuchacz.Lib.Streaming

namespace Niuchacz.Hash

open Cardinality Lib.Streaming

/-!
# FNV hashes (`algorithms/hash/hash.c`)

Two loops over the bytes of a message, each for words of 64 and of 32 bits: FNV-1 multiplies before
it adds the byte, FNV-1a after it.  The words are those of the machine, so that products are taken
modulo `2 ^ 64` or `2 ^ 32`, where the primes, being odd, have inverses.

* `Word` — what the loops need of a word size.
* `fnv1_lossless`, `fnv1a_lossless` — the loops over any such words.
* `fnv_streaming` — the four functions.
-/

/-- The hashes of 32 bits; their seeds have 32 bits too, other than in the type `hash32`. -/
abbrev Hash32 := List UInt8 → UInt32 → UInt32

def FNV_32_PRIME : UInt32 := 0x01000193
def FNV_64_PRIME : UInt64 := 0x100000001b3

section
variable {σ : Type} [Mul σ] [XorOp σ]

/-! ### The loops -/

/-- One iteration of FNV-1; `cast` is the conversion of `*data` to the word. -/
def fnv1Step (prime : σ) (cast : UInt8 → σ) (hashValue : σ) (data : UInt8) : σ :=
  hashValue * prime ^^^ cast data

/-- One iteration of FNV-1a. -/
def fnv1aStep (prime : σ) (cast : UInt8 → σ) (hashValue : σ) (data : UInt8) : σ :=
  (hashValue ^^^ cast data) * prime

/-- The loop of FNV-1 over the `size` bytes of `data`. -/
def fnv1 (prime : σ) (cast : UInt8 → σ) (data : List UInt8) (seed : σ) : σ :=
  data.foldl (fnv1Step prime cast) seed

/-- The loop of FNV-1a. -/
def fnv1a (prime : σ) (cast : UInt8 → σ) (data : List UInt8) (seed : σ) : σ :=
  data.foldl (fnv1aStep prime cast) seed

end

/-- `hash64FNV1`. -/
def hash64FNV1 : Hash64 := fnv1 FNV_64_PRIME UInt8.toUInt64

/-- `hash32FNV1`. -/
def hash32FNV1 : Hash32 := fnv1 FNV_32_PRIME UInt8.toUInt32

/-- `hash64FNV1a`. -/
def hash64FNV1a : Hash64 := fnv1a FNV_64_PRIME UInt8.toUInt64

/-- `hash32FNV1a`. -/
def hash32FNV1a : Hash32 := fnv1a FNV_32_PRIME UInt8.toUInt32

/-! ### Words -/

/-- Words in which nothing is lost by a product with the prime or by adding a byte. -/
structure Word {σ : Type} [Mul σ] [XorOp σ] (prime : σ) (cast : UInt8 → σ) : Prop where
  mul : Function.Bijective fun x : σ => x * prime
  xor_right : ∀ c : σ, Function.Bijective fun x : σ => x ^^^ c
  xor_left : ∀ c : σ, Function.Injective fun x : σ => c ^^^ x
  cast : Function.Injective cast

/-- With an inverse of the prime. -/
theorem Word.of_inverse {σ : Type} [Mul σ] [XorOp σ] {prime inverse one : σ} {cast : UInt8 → σ}
    (hassoc : ∀ x y z : σ, x * y * z = x * (y * z)) (hone : ∀ x : σ, x * one = x)
    (hinv : prime * inverse = one) (hinv' : inverse * prime = one)
    (hxor : ∀ x c : σ, x ^^^ c ^^^ c = x) (hleft : ∀ c x y : σ, c ^^^ x = c ^^^ y → x = y)
    (hcast : Function.Injective cast) : Word prime cast where
  mul := by
    refine Function.bijective_iff_has_inverse.mpr ⟨fun x => x * inverse, fun x => ?_, fun x => ?_⟩
    · show x * prime * inverse = x
      rw [hassoc, hinv, hone]
    · show x * inverse * prime = x
      rw [hassoc, hinv', hone]
  xor_right c := Function.Involutive.bijective fun x => hxor x c
  xor_left := hleft
  cast := hcast

/-- Multiplying by the 64-bit prime and mixing a byte in can be undone, as the prime is odd. -/
theorem word64 : Word FNV_64_PRIME UInt8.toUInt64 := by
  have hinv : FNV_64_PRIME * 0xce965057aff6957b = 1 := by decide
  have hinv' : 0xce965057aff6957b * FNV_64_PRIME = 1 := by decide
  refine Word.of_inverse UInt64.mul_assoc UInt64.mul_one hinv hinv' (fun x c => ?_)
    (fun c _ _ => (UInt64.xor_right_inj c).mp) fun _ _ => UInt8.toUInt64_inj.mp
  rw [UInt64.xor_assoc, UInt64.xor_self, UInt64.xor_zero]

/-- So can those of the 32-bit variant. -/
theorem word32 : Word FNV_32_PRIME UInt8.toUInt32 := by
  have hinv : FNV_32_PRIME * 0x359c449b = 1 := by decide
  have hinv' : 0x359c449b * FNV_32_PRIME = 1 := by decide
  refine Word.of_inverse UInt32.mul_assoc UInt32.mul_one hinv hinv' (fun x c => ?_)
    (fun c _ _ => (UInt32.xor_right_inj c).mp) fun _ _ => UInt8.toUInt32_inj.mp
  rw [UInt32.xor_assoc, UInt32.xor_self, UInt32.xor_zero]

/-! ### Nothing is lost -/

section
variable {σ : Type} [Mul σ] [XorOp σ] {prime : σ} {cast : UInt8 → σ}

/-- FNV-1 is lossless. -/
theorem fnv1_lossless (hw : Word prime cast) : Lossless (fnv1 prime cast) := by
  refine lossless_foldl (fun b => ?_) (fun s b b' h => ?_)
  · exact (hw.xor_right (cast b)).comp hw.mul
  · exact hw.cast (hw.xor_left (s * prime) h)

/-- So is FNV-1a. -/
theorem fnv1a_lossless (hw : Word prime cast) : Lossless (fnv1a prime cast) := by
  refine lossless_foldl (fun b => ?_) (fun s b b' h => ?_)
  · exact hw.mul.comp (hw.xor_right (cast b))
  · exact hw.cast (hw.xor_left s (hw.mul.injective h))

end

/-- **FNV hashes.**  Each of the four can be continued from the hash of a first part, is a bijection
    of its seeds for every message, and separates messages of one length that differ in exactly
    one byte. -/
theorem fnv_streaming :
    (Lossless hash64FNV1 ∧ Lossless hash64FNV1a) ∧ Lossless hash32FNV1 ∧ Lossless hash32FNV1a :=
  ⟨⟨fnv1_lossless word64, fnv1a_lossless word64⟩, fnv1_lossless word32, fnv1a_lossless word32⟩

end Niuchacz.Hash
