import Niuchacz.Lib.Bytes
import Mathlib.Data.List.Induction

namespace Lib.Memory

open Lib.Bytes

/-!
# Byte-addressed memory

A memory maps the addresses of a 64-bit machine to bytes; address arithmetic wraps around.
The operations are those of a C program that keeps a structure and what follows it in one
block:

* `store`, `load` — a string of bytes at an address.
* `storeAll` — several stores; `load_storeAll` reads each of them back if they do not overlap.
* `store64`, `load64` — a little-endian word of eight bytes.
* `strlen` — the length of a C string; `strlen_eq` is its specification.

The lemmas speak about the places `shift p o` of one block, where distinct offsets below `2 ^ 64`
never meet; `load_copied` moves a block as a whole to another address.
-/

/-- A memory. -/
abbrev Mem := UInt64 → UInt8

/-- The address `o` bytes after `p`. -/
def shift (p : UInt64) (o : ℕ) : UInt64 := p + UInt64.ofNat o

@[simp] theorem shift_zero (p : UInt64) : shift p 0 = p := by
  unfold shift
  simp

/-- Offsets add up, also where the address wraps around. -/
theorem shift_shift (p : UInt64) (a b : ℕ) : shift (shift p a) b = shift p (a + b) := by
  unfold shift
  rw [UInt64.ofNat_add, UInt64.add_assoc]

/-- Offsets of one block are told apart by their addresses. -/
theorem shift_injective (p : UInt64) {i j : ℕ} (hi : i < 2 ^ 64) (hj : j < 2 ^ 64)
    (h : shift p i = shift p j) : i = j := by
  have hof : UInt64.ofNat i = UInt64.ofNat j := (UInt64.add_right_inj p).mp h
  have hnat := congrArg UInt64.toNat hof
  rwa [UInt64.toNat_ofNat', UInt64.toNat_ofNat', Nat.mod_eq_of_lt hi, Nat.mod_eq_of_lt hj] at hnat

/-- Write a string of bytes. -/
def store (m : Mem) (p : UInt64) (bs : List UInt8) : Mem :=
  fun a => bs[(a - p).toNat]?.getD (m a)

/-- Read `n` bytes. -/
def load (m : Mem) (p : UInt64) (n : ℕ) : List UInt8 :=
  (List.range n).map fun i => m (shift p i)

/-- Write a word. -/
def store64 (m : Mem) (p : UInt64) (v : UInt64) : Mem := store m p (leBytes 8 v.toNat)

/-- Read a word. -/
def load64 (m : Mem) (p : UInt64) : UInt64 := UInt64.ofNat (leNat (load m p 8))

/-- The length of the C string at `p`, if its end is found within `fuel` bytes. -/
def strlen : ℕ → Mem → UInt64 → Option ℕ
  | 0, _, _ => none
  | fuel + 1, m, p => if m p = 0 then some 0 else (strlen fuel m (shift p 1)).map (· + 1)

/-- As many bytes are loaded as are asked for. -/
@[simp] theorem length_load (m : Mem) (p : UInt64) (n : ℕ) : (load m p n).length = n := by
  simp [load]

/-- The byte at an offset is the one at the shifted address. -/
theorem getElem?_load {m : Mem} {p : UInt64} {n i : ℕ} (hi : i < n) :
    (load m p n)[i]? = some (m (shift p i)) := by
  simp [load, hi]

/-- The first bytes of a longer load are a shorter one. -/
theorem take_load (m : Mem) (p : UInt64) {k n : ℕ} (h : k ≤ n) :
    (load m p n).take k = load m p k := by
  rw [load, ← List.map_take, List.take_range, Nat.min_eq_left h, load]

/-- A load depends on the bytes in its range only. -/
theorem load_congr {m m' : Mem} {p : UInt64} {n : ℕ}
    (h : ∀ i < n, m' (shift p i) = m (shift p i)) : load m' p n = load m p n := by
  refine List.map_congr_left ?_
  intro i hi
  exact h i (List.mem_range.mp hi)

/-! ### What a store changes -/

/-- **Frame.**  Other addresses keep what they have. -/
theorem store_of_ne (m : Mem) {p a : UInt64} {bs : List UInt8}
    (h : ∀ i < bs.length, a ≠ shift p i) : store m p bs a = m a := by
  unfold store
  rcases Nat.lt_or_ge (a - p).toNat bs.length with hlt | hge
  · have ha : a = shift p (a - p).toNat := by
      rw [shift, UInt64.ofNat_toNat, UInt64.add_comm, UInt64.sub_add_cancel]
    exact absurd ha (h _ hlt)
  · rw [List.getElem?_eq_none hge, Option.getD_none]

/-- The distance of two places of a block. -/
theorem toNat_shift_sub (p : UInt64) {o i : ℕ} (hi : i < 2 ^ 64) (ho : o < 2 ^ 64) :
    (shift p i - shift p o).toNat = if o ≤ i then i - o else 2 ^ 64 + i - o := by
  unfold shift
  rw [UInt64.toNat_sub, UInt64.toNat_add, UInt64.toNat_add, UInt64.toNat_ofNat',
    UInt64.toNat_ofNat']
  have hp := p.toNat_lt
  split <;> omega

/-- What is read from a place of the block after a store into the block. -/
theorem store_shift (m : Mem) (p : UInt64) {o i : ℕ} {bs : List UInt8} (hi : i < 2 ^ 64)
    (hbs : o + bs.length ≤ 2 ^ 64) :
    store m (shift p o) bs (shift p i) =
      if o ≤ i then bs[i - o]?.getD (m (shift p i)) else m (shift p i) := by
  unfold store
  by_cases hnil : bs = []
  · subst hnil
    simp
  · have hpos : 0 < bs.length := List.length_pos_iff.mpr hnil
    rw [toNat_shift_sub p hi (by omega)]
    split
    · rfl
    · -- a place before the stored bytes is further away than they are long
      rw [List.getElem?_eq_none (by omega), Option.getD_none]

/-- **Frame.**  A store leaves the places before and behind it alone. -/
theorem load_store_of_disjoint (m : Mem) (p : UInt64) {o o' n : ℕ} {bs : List UInt8}
    (hn : o' + n ≤ 2 ^ 64) (hbs : o + bs.length ≤ 2 ^ 64)
    (hdis : o' + n ≤ o ∨ o + bs.length ≤ o') :
    load (store m (shift p o) bs) (shift p o') n = load m (shift p o') n := by
  refine List.map_congr_left ?_
  intro i hi
  rw [List.mem_range] at hi
  rw [shift_shift, store_shift m p (by omega) hbs]
  split
  · rw [List.getElem?_eq_none (by omega), Option.getD_none]
  · rfl

/-- What has been stored is read back, and so is every part of it. -/
theorem load_store_part (m : Mem) (p : UInt64) {o n : ℕ} {bs : List UInt8}
    (hn : o + n ≤ bs.length) (hbs : bs.length ≤ 2 ^ 64) :
    load (store m p bs) (shift p o) n = (bs.drop o).take n := by
  refine List.ext_getElem? ?_
  intro i
  by_cases hi : i < n
  · have hget := List.getElem?_eq_getElem (show o + i < bs.length by omega)
    have hat : store m (shift p 0) bs (shift p (o + i)) = _ :=
      store_shift m p (by omega) (by omega)
    rw [shift_zero, if_pos (Nat.zero_le _), Nat.sub_zero, hget, Option.getD_some] at hat
    rw [getElem?_load hi, shift_shift, hat, List.getElem?_take_of_lt hi, List.getElem?_drop, hget]
  · rw [List.getElem?_eq_none (by simpa using hi), List.getElem?_eq_none (by simp; omega)]

/-- What has been stored is loaded again, if it does not wrap around onto itself. -/
theorem load_store_self (m : Mem) (p : UInt64) {bs : List UInt8} (hbs : bs.length ≤ 2 ^ 64) :
    load (store m p bs) p bs.length = bs := by
  have h : load (store m p bs) (shift p 0) bs.length = _ := load_store_part m p (by omega) hbs
  rwa [shift_zero, List.drop_zero, List.take_length] at h

/-- **Copy.**  A block that is copied to another address reads there as it did at the first. -/
theorem load_copied (m m' : Mem) (p q : UInt64) {o k n : ℕ} (hk : o + k ≤ n) (hn : n ≤ 2 ^ 64) :
    load (store m' q (load m p n)) (shift q o) k = load m (shift p o) k := by
  rw [load_store_part m' q (by simpa using hk) (by simpa using hn)]
  refine List.ext_getElem? ?_
  intro i
  by_cases hi : i < k
  · rw [List.getElem?_take_of_lt hi, List.getElem?_drop, getElem?_load (by omega),
      getElem?_load hi, shift_shift]
  · rw [List.getElem?_eq_none (by simp; omega), List.getElem?_eq_none (by simpa using hi)]

/-! ### Several stores into one block -/

/-- Stores at offsets of a block, one after the other. -/
def storeAll (m : Mem) (p : UInt64) (ws : List (ℕ × List UInt8)) : Mem :=
  ws.foldl (fun m w => store m (shift p w.1) w.2) m

/-- Two stores that do not overlap. -/
def Apart (v w : ℕ × List UInt8) : Prop :=
  v.1 + v.2.length ≤ w.1 ∨ w.1 + w.2.length ≤ v.1

/-- Lists of stores are made one after the other. -/
theorem storeAll_append (m : Mem) (p : UInt64) (vs ws : List (ℕ × List UInt8)) :
    storeAll m p (vs ++ ws) = storeAll (storeAll m p vs) p ws := by
  simp [storeAll, List.foldl_append]

/-- **Frame.**  Addresses outside of the block keep what they have. -/
theorem storeAll_of_ne (m : Mem) {p a : UInt64} {n : ℕ} {ws : List (ℕ × List UInt8)}
    (hbound : ∀ w ∈ ws, w.1 + w.2.length ≤ n) (ha : ∀ i < n, a ≠ shift p i) :
    storeAll m p ws a = m a := by
  induction ws generalizing m with
  | nil => rfl
  | cons w ws ih =>
    have hw : w.1 + w.2.length ≤ n := hbound w (by simp)
    show storeAll (store m (shift p w.1) w.2) p ws a = m a
    rw [ih _ fun v hv => hbound v (List.mem_cons_of_mem w hv)]
    refine store_of_ne m ?_
    intro i hi
    rw [shift_shift]
    exact ha (w.1 + i) (by omega)

/-- What is stored once and not overwritten is there in the end. -/
theorem load_storeAll (m : Mem) (p : UInt64) {ws : List (ℕ × List UInt8)}
    (hbound : ∀ w ∈ ws, w.1 + w.2.length ≤ 2 ^ 64) (hapart : ws.Pairwise Apart)
    {w : ℕ × List UInt8} (hw : w ∈ ws) :
    load (storeAll m p ws) (shift p w.1) w.2.length = w.2 := by
  induction ws using List.reverseRecOn with
  | nil => exact absurd hw (by simp)
  | append_singleton ws v ih =>
    obtain ⟨hws, -, hv⟩ := List.pairwise_append.mp hapart
    have hbv : v.1 + v.2.length ≤ 2 ^ 64 := hbound v (by simp)
    have hbw : w.1 + w.2.length ≤ 2 ^ 64 := hbound w hw
    rw [storeAll_append]
    show load (store (storeAll m p ws) (shift p v.1) v.2) (shift p w.1) w.2.length = w.2
    rcases List.mem_append.mp hw with hw | hw
    · -- the last store is somewhere else
      rw [load_store_of_disjoint _ _ hbw hbv (hv w hw v (by simp))]
      exact ih (fun u hu => hbound u (by simp [hu])) hws hw
    · rw [List.mem_singleton] at hw
      rw [hw]
      exact load_store_self _ _ (by omega)

/-! ### Words -/

/-- A word whose bytes are those of `v` is `v`. -/
theorem load64_of_load {m : Mem} {p v : UInt64} (h : load m p 8 = leBytes 8 v.toNat) :
    load64 m p = v := by
  have hv : v.toNat < 256 ^ 8 := by
    have := v.toNat_lt
    omega
  rw [load64, h, leNat_leBytes 8 _ hv, UInt64.ofNat_toNat]

theorem load64_congr {m m' : Mem} {p p' : UInt64} (h : load m p 8 = load m' p' 8) :
    load64 m p = load64 m' p' := by
  rw [load64, h, load64]

/-- A word that has been stored is loaded again. -/
theorem load64_store64 (m : Mem) (p v : UInt64) : load64 (store64 m p v) p = v := by
  refine load64_of_load ?_
  have hlen : (leBytes 8 v.toNat).length ≤ 2 ^ 64 := by
    rw [length_leBytes]
    omega
  have h := load_store_self m p hlen
  rwa [length_leBytes] at h

/-- **Frame.**  Writing a word leaves the places before and behind it alone. -/
theorem load_store64_of_disjoint (m : Mem) (p v : UInt64) {o o' n : ℕ} (hn : o' + n ≤ 2 ^ 64)
    (ho : o + 8 ≤ 2 ^ 64) (hdis : o' + n ≤ o ∨ o + 8 ≤ o') :
    load (store64 m (shift p o) v) (shift p o') n = load m (shift p o') n := by
  refine load_store_of_disjoint m p hn ?_ ?_
  · rwa [length_leBytes]
  · rwa [length_leBytes]

/-! ### C strings -/

/-- **Specification of `strlen`.**  With enough fuel the terminating zero is found. -/
theorem strlen_eq {m : Mem} {p : UInt64} {s : List UInt8} (hs : 0 ∉ s)
    (h : load m p (s.length + 1) = s ++ [0]) {fuel : ℕ} (hf : s.length < fuel) :
    strlen fuel m p = some s.length := by
  induction s generalizing p fuel with
  | nil =>
    obtain ⟨fuel, rfl⟩ : ∃ n, fuel = n + 1 := ⟨fuel - 1, by simp at hf; omega⟩
    have h0 : m p = 0 := by simpa [load] using h
    rw [strlen, if_pos h0, List.length_nil]
  | cons b s ih =>
    obtain ⟨fuel, rfl⟩ : ∃ n, fuel = n + 1 := ⟨fuel - 1, by simp at hf; omega⟩
    simp only [List.mem_cons, not_or] at hs
    rw [List.length_cons] at h hf
    rw [load, List.range_succ_eq_map, List.map_cons, List.cons_append, List.cons.injEq,
      List.map_map] at h
    obtain ⟨hb, hrest⟩ := h
    rw [shift_zero] at hb
    -- the rest of the text is that at the next address
    have htail : load m (shift p 1) (s.length + 1) = s ++ [0] := by
      rw [← hrest]
      refine List.map_congr_left ?_
      intro i _
      rw [shift_shift, Nat.add_comm]
      rfl
    have hne : ¬ m p = 0 := by
      rw [hb]
      exact fun h0 => hs.1 h0.symm
    rw [strlen, if_neg hne, ih hs.2 htail (by omega), Option.map_some, List.length_cons]

end Lib.Memory
