import Mathlib.Data.List.Basic
import Mathlib.Data.Nat.ModEq
import Mathlib.Logic.Function.Basic

namespace Lib.CircularBuffer

/-!
# Circular buffers

A circular buffer is a memory `mem : ℕ → α` of which the cells `0 … cap - 1` are used, and
two cursors that move one cell at a time and jump back to `0` at the right border
(`advance`).  What a region of the buffer holds is stated by `Holds`: from position `base`
on, counted modulo `cap`, the cells carry the list `xs`.

* `Holds.push` — writing behind a region of fewer than `cap` cells extends it by one cell.
* `Holds.drop` — the front of a region can be given up.
* `Holds.patch` — what becomes of a region when some cells in a row are changed.
* `Holds.read` — reading inside a region gives the list's element.
-/

variable {α : Type*} {mem : ℕ → α} {cap base : ℕ} {xs ys : List α}

/-- A cursor's next position: one cell further, and back to the left border at the right
    one. -/
def advance (cap i : ℕ) : ℕ :=
  if i + 1 = cap then 0 else i + 1

/-- The branch at the end of the buffer computes a remainder. -/
theorem advance_eq_mod {i : ℕ} (hi : i < cap) : advance cap i = (i + 1) % cap := by
  unfold advance
  split
  · rename_i h
    rw [h, Nat.mod_self]
  · exact (Nat.mod_eq_of_lt (by omega)).symm

/-- A cursor that stands at offset `i` (modulo `cap`) advances to offset `i + 1`. -/
theorem advance_mod (hcap : 0 < cap) (i : ℕ) : advance cap (i % cap) = (i + 1) % cap := by
  rw [advance_eq_mod (Nat.mod_lt i hcap), Nat.mod_add_mod]

/-- Two offsets of one revolution that denote the same cell are equal. -/
theorem slot_inj {i j : ℕ} (hi : i < cap) (hj : j < cap)
    (h : (base + i) % cap = (base + j) % cap) : i = j := by
  have hij : i ≡ j [MOD cap] := Nat.ModEq.add_left_cancel' base h
  exact hij.eq_of_lt_of_lt hi hj

/-- The cells from `base` on, counted modulo `cap`, carry the list `xs`. -/
def Holds (mem : ℕ → α) (cap base : ℕ) (xs : List α) : Prop :=
  ∀ i x, xs[i]? = some x → mem ((base + i) % cap) = x

theorem holds_nil : Holds mem cap base [] := by
  intro i x hx
  simp at hx

/-- Writing into the cell behind a region that is not yet a full revolution adds that cell
    to the region and leaves the region's own cells alone. -/
theorem Holds.push (h : Holds mem cap base xs) (hlen : xs.length < cap) (x : α) :
    Holds (Function.update mem ((base + xs.length) % cap) x) cap base (xs ++ [x]) := by
  intro i y hy
  rcases Nat.lt_trichotomy i xs.length with hi | rfl | hi
  · rw [List.getElem?_append_left hi] at hy
    have hne : (base + i) % cap ≠ (base + xs.length) % cap := fun heq =>
      hi.ne (slot_inj (by omega) hlen heq)
    rw [Function.update_of_ne hne]
    exact h i y hy
  · rw [List.getElem?_append_right (le_refl _)] at hy
    simp only [Nat.sub_self, List.getElem?_cons_zero, Option.some.injEq] at hy
    rw [Function.update_self, hy]
  · rw [List.getElem?_eq_none (by simp; omega)] at hy
    exact absurd hy (by simp)

/-- A region without its first `ys.length` cells. -/
theorem Holds.drop (h : Holds mem cap base (ys ++ xs)) :
    Holds mem cap (base + ys.length) xs := by
  intro i x hx
  rw [Nat.add_assoc]
  refine h (ys.length + i) x ?_
  rw [List.getElem?_append_right (by omega), Nat.add_sub_cancel_left]
  exact hx

/-- Only the cell of the first element matters, not how often the border has been passed. -/
theorem holds_mod : Holds mem cap (base % cap) xs ↔ Holds mem cap base xs := by
  simp only [Holds, Nat.mod_add_mod]

/-- A region without its last cells. -/
theorem Holds.left (h : Holds mem cap base (xs ++ ys)) : Holds mem cap base xs := by
  intro i x hx
  refine h i x ?_
  rw [List.getElem?_append_left (List.getElem?_eq_some_iff.mp hx).1]
  exact hx

/-- A memory that differs only in the cells of `ys` holds the same region with other elements in
    these places, and not the same ones if it differs at all. -/
theorem Holds.patch {mem' : ℕ → α} {zs : List α} (h : Holds mem cap base (xs ++ ys ++ zs))
    (hlen : (xs ++ ys ++ zs).length ≤ cap)
    (hmem : ∀ a, mem' a ≠ mem a → ∃ j < ys.length, a = (base + xs.length + j) % cap) :
    ∃ ys', ys'.length = ys.length ∧ Holds mem' cap base (xs ++ ys' ++ zs) ∧
      (mem' ≠ mem → ys' ≠ ys) := by
  let cell j := mem' ((base + xs.length + j) % cap)
  refine ⟨(List.range ys.length).map cell, by simp, ?_, ?_⟩
  · intro i x hx
    -- outside of the places of `ys` nothing has changed
    have hsame : ∀ x, (xs ++ ys ++ zs)[i]? = some x → (i < xs.length ∨ xs.length + ys.length ≤ i) →
        mem' ((base + i) % cap) = x := by
      intro x hx hi
      have hlt := (List.getElem?_eq_some_iff.mp hx).1
      rw [← h i x hx]
      by_contra hne
      obtain ⟨j, hj, heq⟩ := hmem _ hne
      rw [Nat.add_assoc] at heq
      have hij : i = xs.length + j := by
        rw [List.length_append, List.length_append] at hlen hlt
        exact slot_inj (by omega) (by omega) heq
      omega
    rcases Nat.lt_or_ge i xs.length with hi | hi
    · refine hsame x ?_ (Or.inl hi)
      rw [List.append_assoc, List.getElem?_append_left hi] at hx ⊢
      exact hx
    · rcases Nat.lt_or_ge i (xs.length + ys.length) with hi' | hi'
      · obtain ⟨j, rfl⟩ := Nat.exists_eq_add_of_le hi
        have hj : j < ys.length := by omega
        rw [List.append_assoc, List.getElem?_append_right hi, Nat.add_sub_cancel_left,
          List.getElem?_append_left (by simpa using hj), List.getElem?_map,
          List.getElem?_range hj, Option.map_some, Option.some.injEq] at hx
        rw [← Nat.add_assoc]
        exact hx
      · refine hsame x ?_ (Or.inr hi')
        rw [List.getElem?_append_right (by simpa using hi')] at hx ⊢
        simpa using hx
  · intro hne hys
    apply hne
    funext a
    by_contra ha
    obtain ⟨j, hj, rfl⟩ := hmem a ha
    -- the cell has the element of the old list again
    have hold : mem ((base + xs.length + j) % cap) = ys[j] := by
      rw [Nat.add_assoc]
      refine h _ _ ?_
      rw [List.append_assoc, List.getElem?_append_right (by omega), Nat.add_sub_cancel_left,
        List.getElem?_append_left hj, List.getElem?_eq_getElem hj]
    have hnew : ys[j]? = some (cell j) := by
      rw [← hys, List.getElem?_map, List.getElem?_range hj, Option.map_some]
    rw [List.getElem?_eq_getElem hj, Option.some.injEq] at hnew
    exact ha (hnew.symm.trans hold.symm)

/-- The cell at offset `i` of a region is the list's element `i`. -/
theorem Holds.read (h : Holds mem cap base xs) {i : ℕ} {x : α} (hx : xs[i]? = some x) :
    mem ((base + i) % cap) = x :=
  h i x hx

end Lib.CircularBuffer
