import Mathlib.Data.Finset.Card
import Mathlib.Logic.Function.Basic

namespace Lib.Locks

/-!
# Mutual exclusion

Threads `ι` stand at program points `π`; there are locks `κ`, and `holds k p` says that a
thread at `p` holds the lock `k`.

* `Exclusive` — a lock belongs to exactly the thread that stands where it is held.
* `Effect` — a step leaves a lock alone, takes it while it is free, or gives it up.
* `Exclusive.step` — steps with these effects keep `Exclusive`.
* `viewOf` — what the owner of a lock shows to the others, and how a step changes it.
* `Counted` — a counter kept under a lock is the number of threads with some property.
-/

variable {ι κ π α : Type*} {holds : κ → π → Bool} {lock lock' : κ → Option ι}
  {pc pc' : ι → π} {t u : ι} {k : κ}

/-- A lock belongs to exactly the thread that stands where it is held. -/
def Exclusive (holds : κ → π → Bool) (lock : κ → Option ι) (pc : ι → π) : Prop :=
  ∀ k t, lock k = some t ↔ holds k (pc t) = true

/-- Two threads that hold one lock are one thread. -/
theorem Exclusive.unique (hx : Exclusive holds lock pc) (ht : holds k (pc t) = true)
    (hu : holds k (pc u) = true) : t = u := by
  have h1 := (hx k t).mpr ht
  have h2 := (hx k u).mpr hu
  rw [h1] at h2
  exact Option.some.inj h2

/-- What a step of `t` from `p` to `p'` may do to the lock `k`. -/
def Effect (holds : κ → π → Bool) (lock lock' : κ → Option ι) (t : ι) (p p' : π) (k : κ) : Prop :=
  (lock' k = lock k ∧ holds k p' = holds k p) ∨
  (lock k = none ∧ lock' k = some t ∧ holds k p' = true) ∨
  (holds k p = true ∧ lock' k = none ∧ holds k p' = false)

/-- A step that leaves the lock and its own standing towards it alone. -/
theorem Effect.stay {p p' : π} (hl : lock' k = lock k) (hp : holds k p' = holds k p) :
    Effect holds lock lock' t p p' k :=
  Or.inl ⟨hl, hp⟩

section
variable [DecidableEq κ] {j : κ} {p p' : π}

/-- Taking the free lock `j`. -/
theorem Effect.take (hfree : lock j = none) (hp' : holds j p' = true)
    (hne : k ≠ j → holds k p' = holds k p) :
    Effect holds lock (Function.update lock j (some t)) t p p' k := by
  by_cases hk : k = j
  · subst hk
    exact Or.inr (Or.inl ⟨hfree, by simp, hp'⟩)
  · exact Effect.stay (Function.update_of_ne hk _ _) (hne hk)

/-- Giving up the lock `j`. -/
theorem Effect.drop (hp : holds j p = true) (hp' : holds j p' = false)
    (hne : k ≠ j → holds k p' = holds k p) :
    Effect holds lock (Function.update lock j none) t p p' k := by
  by_cases hk : k = j
  · subst hk
    exact Or.inr (Or.inr ⟨hp, by simp, hp'⟩)
  · exact Effect.stay (Function.update_of_ne hk _ _) (hne hk)

end

/-- **Step.**  A step of `t` after which the other threads hold what they held before. -/
theorem Exclusive.step (hx : Exclusive holds lock pc)
    (he : ∀ k, Effect holds lock lock' t (pc t) (pc' t) k)
    (hother : ∀ k u, u ≠ t → holds k (pc' u) = holds k (pc u)) : Exclusive holds lock' pc' := by
  intro k u
  by_cases hu : u = t
  · subst hu
    rcases he k with ⟨hl, hp⟩ | ⟨_, hl, hp⟩ | ⟨_, hl, hp⟩
    · rw [hl, hp]
      exact hx k u
    · simp [hl, hp]
    · simp [hl, hp]
  · rw [hother k u hu]
    rcases he k with ⟨hl, _⟩ | ⟨hfree, hl, _⟩ | ⟨hp, hl, _⟩
    · rw [hl]
      exact hx k u
    · -- a free lock has no holder, and now the holder is `t`
      have hno : holds k (pc u) = false := by
        rw [← Bool.not_eq_true, ← hx k u, hfree]
        simp
      simp [hl, hno, Ne.symm hu]
    · -- `t` was the holder, so `u` is not
      have hno : holds k (pc u) = false := by
        rw [← Bool.not_eq_true]
        intro hh
        exact hu (hx.unique hh hp)
      simp [hl, hno]

/-! ### The owner's view -/

/-- What the owner of the lock `k` shows, `d` if the lock is free. -/
def viewOf (lock : κ → Option ι) (pc : ι → π) (k : κ) (f : π → α) (d : α) : α :=
  match lock k with
  | some t => f (pc t)
  | none => d

variable {f : π → α} {d : α}

/-- Whoever holds the lock is the one whose view is taken. -/
theorem viewOf_owner (hx : Exclusive holds lock pc) (ht : holds k (pc t) = true) :
    viewOf lock pc k f d = f (pc t) := by
  rw [viewOf, (hx k t).mpr ht]

/-- With a free lock the view is the default. -/
theorem viewOf_free (hl : lock k = none) : viewOf lock pc k f d = d := by
  rw [viewOf, hl]

/-- The owner's step moves the view along with its own. -/
theorem viewOf_step_owner (hx' : Exclusive holds lock' pc')
    (hd : ∀ p, holds k p = false → f p = d)
    (he : Effect holds lock lock' t (pc t) (pc' t) k) (ht : holds k (pc t) = true) :
    viewOf lock' pc' k f d = f (pc' t) := by
  by_cases ho : holds k (pc' t) = true
  · exact viewOf_owner hx' ho
  · rw [Bool.not_eq_true] at ho
    have hnone : lock' k = none := by
      rcases he with ⟨_, hp⟩ | ⟨_, _, hp⟩ | ⟨_, hl, _⟩
      · rw [hp, ht] at ho; cases ho
      · rw [hp] at ho; cases ho
      · exact hl
    rw [viewOf_free hnone, hd _ ho]

/-- A step between two points that show nothing leaves the view as it is. -/
theorem viewOf_step_quiet (hx : Exclusive holds lock pc) (hx' : Exclusive holds lock' pc')
    (hd : ∀ p, holds k p = false → f p = d)
    (he : Effect holds lock lock' t (pc t) (pc' t) k)
    (hother : ∀ u, u ≠ t → f (pc' u) = f (pc u)) (hp : f (pc t) = d) (hp' : f (pc' t) = d) :
    viewOf lock' pc' k f d = viewOf lock pc k f d := by
  by_cases ht : holds k (pc t) = true
  · rw [viewOf_step_owner hx' hd he ht, viewOf_owner hx ht, hp, hp']
  · rw [Bool.not_eq_true] at ht
    rcases he with ⟨hl, _⟩ | ⟨hfree, hl, _⟩ | ⟨hp, _, _⟩
    · -- another thread may own the lock; it has not moved
      rw [viewOf, viewOf, hl]
      cases hm : lock k with
      | none => rfl
      | some u =>
        refine hother u ?_
        rintro rfl
        have hu := (hx k u).mp hm
        rw [ht] at hu
        cases hu
    · rw [viewOf_free hfree, viewOf, hl]
      exact hp'
    · rw [ht] at hp
      cases hp

/-! ### Counters -/

section
variable {P P' : ι → Bool} {n n' : ℤ}

/-- The counter `n` is the number of threads with the property `P`. -/
def Counted (P : ι → Bool) (n : ℤ) : Prop :=
  ∃ T : Finset ι, (∀ t, t ∈ T ↔ P t = true) ∧ n = T.card

theorem counted_zero : Counted (fun _ : ι => false) 0 :=
  ⟨∅, by simp, rfl⟩

/-- A counter at zero counts nobody. -/
theorem Counted.empty (h : Counted P n) (hn : n ≤ 0) (t : ι) : P t = false := by
  obtain ⟨T, hmem, rfl⟩ := h
  have hT : T = ∅ := Finset.card_eq_zero.mp (by omega)
  rw [← Bool.not_eq_true, ← hmem t, hT]
  exact Finset.notMem_empty t

/-- A positive counter counts somebody. -/
theorem Counted.exists (h : Counted P n) (hn : 0 < n) : ∃ t, P t = true := by
  obtain ⟨T, hmem, rfl⟩ := h
  obtain ⟨t, ht⟩ := Finset.card_pos.mp (Int.natCast_pos.mp hn)
  exact ⟨t, (hmem t).mp ht⟩

/-- A step of one thread that changes the counter as it changes its own property. -/
theorem Counted.step [DecidableEq ι] (h : Counted P n) (hne : ∀ u, u ≠ t → P' u = P u)
    (hn : n' + (P t).toNat = n + (P' t).toNat) : Counted P' n' := by
  obtain ⟨T, hmem, rfl⟩ := h
  have hother : ∀ u, u ≠ t → (u ∈ T ↔ P' u = true) := fun u hu => by rw [hne u hu, hmem u]
  by_cases hsame : P' t = P t
  · -- the thread stays where it is
    refine ⟨T, fun u => ?_, by rw [hsame] at hn; omega⟩
    by_cases hu : u = t
    · rw [hu, hmem t, hsame]
    · exact hother u hu
  cases hP : P t
  · -- the thread has come in
    have hP' : P' t = true := by simpa [hP] using hsame
    have ht : t ∉ T := by rw [hmem t, hP]; exact Bool.false_ne_true
    simp only [hP, hP'] at hn
    refine ⟨insert t T, fun u => ?_, by rw [Finset.card_insert_of_notMem ht]; simpa using hn⟩
    by_cases hu : u = t
    · simp [hu, hP']
    · rw [Finset.mem_insert, ← hother u hu]
      simp [hu]
  · -- the thread has left
    have hP' : P' t = false := by simpa [hP] using hsame
    have hcard := Finset.card_erase_add_one ((hmem t).mpr hP)
    simp only [hP, hP', Bool.toNat_true, Bool.toNat_false] at hn
    refine ⟨T.erase t, fun u => ?_, by omega⟩
    by_cases hu : u = t
    · simp [hu, hP']
    · rw [Finset.mem_erase, ← hother u hu]
      simp [hu]

end

end Lib.Locks
