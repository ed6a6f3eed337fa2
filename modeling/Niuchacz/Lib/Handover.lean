import Mathlib.Data.List.Nodup
import Mathlib.Data.List.Perm.Basic
import Mathlib.Logic.Function.Basic

namespace Lib.Handover

/-!
# Values on their way to a caller

Threads take values from a shared object, one at a time, and later return them to their callers.
Two logs are kept: what has been taken, and what has been returned.  In between a value is in the
hand of the thread that has taken it.

* `Turn` — what a step does, seen by the thread that makes it.
* `Balanced` — what has been taken is what has been returned and what is in the threads' hands,
  each value as often; `Balanced.turn` shows that every turn keeps it.
* `Serial` — if only one thread takes values, the order is the same as well.
-/

variable {ι β : Type*} {taken returned taken' returned' : List β} {hand : ι → Option β}
  {own own' : Option β} {t x : ι}

/-- The logs and the hand of a thread before and after its step. -/
inductive Turn : List β → List β → Option β → List β → List β → Option β → Prop
  | keep {taken returned : List β} {own : Option β} : Turn taken returned own taken returned own
  | take {taken returned : List β} (b : β) :
      Turn taken returned none (taken ++ [b]) returned (some b)
  | give {taken returned : List β} (b : β) :
      Turn taken returned (some b) taken (returned ++ [b]) none

/-! ### Any number of threads -/

/-- Nothing is lost and nothing is returned twice; `ts` are the threads that have a value. -/
def Balanced (taken returned : List β) (hand : ι → Option β) : Prop :=
  ∃ ts : List ι, ts.Nodup ∧ (∀ t, t ∈ ts ↔ (hand t).isSome = true) ∧
    taken.Perm (returned ++ ts.filterMap hand)

/-- Nothing has been given and nothing has been taken. -/
theorem balanced_start (hhand : ∀ t, hand t = none) : Balanced [] [] hand :=
  ⟨[], List.nodup_nil, by simp [hhand], List.Perm.refl _⟩

/-- When all hands are empty, everything taken has been returned. -/
theorem Balanced.perm (h : Balanced taken returned hand) (hhand : ∀ t, hand t = none) :
    taken.Perm returned := by
  obtain ⟨ts, -, hts, hperm⟩ := h
  have hnil : ts = [] := by
    refine List.eq_nil_iff_forall_not_mem.mpr fun t ht => ?_
    simpa [hhand] using (hts t).mp ht
  simpa [hnil] using hperm

variable [DecidableEq ι]

/-- The hand of a thread does not matter for the others. -/
theorem filterMap_update {ts : List ι} (ht : t ∉ ts) (own : Option β) :
    ts.filterMap (Function.update hand t own) = ts.filterMap hand := by
  refine List.filterMap_congr fun u hu => Function.update_of_ne ?_ _ _
  rintro rfl
  exact ht hu

/-- **Step.**  A turn of any thread keeps the balance. -/
theorem Balanced.turn (h : Balanced taken returned hand)
    (hturn : Turn taken returned (hand t) taken' returned' own') :
    Balanced taken' returned' (Function.update hand t own') := by
  obtain ⟨ts, hnodup, hts, hperm⟩ := h
  generalize hown : hand t = own at hturn
  cases hturn with
  | keep =>
    rw [← hown, Function.update_eq_self]
    exact ⟨ts, hnodup, hts, hperm⟩
  -- ==> the thread gets an element: it joins those that have one
  | take b =>
    have ht : t ∉ ts := by simp [hts, hown]
    refine ⟨t :: ts, List.nodup_cons.mpr ⟨ht, hnodup⟩, fun u => ?_, ?_⟩
    · by_cases hu : u = t
      · simp [hu]
      · rw [List.mem_cons, Function.update_of_ne hu, ← hts u]
        simp [hu]
    · rw [List.filterMap_cons, Function.update_self, filterMap_update ht]
      calc List.Perm (taken ++ [b]) (b :: taken) := List.perm_append_singleton b taken
        List.Perm _ (b :: (returned ++ ts.filterMap hand)) := hperm.cons b
        List.Perm _ (returned ++ b :: ts.filterMap hand) := List.perm_middle.symm
  -- ==> it gives it back: it leaves them
  | give b =>
    have ht : t ∈ ts := by simp [hts, hown]
    have hsplit : ts.Perm (t :: ts.erase t) := List.perm_cons_erase ht
    have hout : t ∉ ts.erase t := fun hmem => (hnodup.mem_erase_iff.mp hmem).1 rfl
    refine ⟨ts.erase t, hnodup.erase t, fun u => ?_, ?_⟩
    · rw [hnodup.mem_erase_iff, hts u]
      by_cases hu : u = t
      · simp [hu]
      · simp [hu]
    · rw [filterMap_update hout, List.append_assoc]
      have hfilter : (ts.filterMap hand).Perm (b :: (ts.erase t).filterMap hand) := by
        have hmap := hsplit.filterMap hand
        rwa [List.filterMap_cons, hown] at hmap
      exact hperm.trans (hfilter.append_left returned)

/-! ### One thread -/

/-- Only `x` has a value, and the values are returned in the order in which they are taken. -/
structure Serial (x : ι) (taken returned : List β) (hand : ι → Option β) : Prop where
  others : ∀ t, t ≠ x → hand t = none
  order : taken = returned ++ (hand x).toList

omit [DecidableEq ι] in
theorem serial_start (x : ι) (hhand : ∀ t, hand t = none) : Serial x [] [] hand :=
  ⟨fun t _ => hhand t, by simp [hhand]⟩

/-- A turn of the thread that has values. -/
theorem Serial.turn_self (h : Serial x taken returned hand)
    (hturn : Turn taken returned (hand x) taken' returned' own') :
    Serial x taken' returned' (Function.update hand x own') := by
  have hothers : ∀ t, t ≠ x → Function.update hand x own' t = none := by
    intro t ht
    rw [Function.update_of_ne ht]
    exact h.others t ht
  refine ⟨hothers, ?_⟩
  have horder := h.order
  rw [Function.update_self]
  generalize hand x = own at hturn horder
  cases hturn with
  | keep => exact horder
  | take b => simpa using horder
  | give b => simpa using horder

/-- **Step.**  A turn keeps the order as long as no other thread gets a value. -/
theorem Serial.turn (h : Serial x taken returned hand) (hout : t ≠ x → own' = none)
    (hturn : Turn taken returned (hand t) taken' returned' own') :
    Serial x taken' returned' (Function.update hand t own') := by
  by_cases ht : t = x
  · subst ht
    exact h.turn_self hturn
  · -- with an empty hand before and after, nothing has been taken or returned
    rw [hout ht, h.others t ht] at hturn
    cases hturn
    rw [hout ht, ← h.others t ht, Function.update_eq_self]
    exact h

end Lib.Handover
