import Mathlib.Data.List.Nodup
import Mathlib.Logic.Function.Basic
import Mathlib.Logic.Function.Iterate

namespace Lib.LinkedRing

/-!
# Circular doubly linked lists

Nodes are values of `α`, and two functions `next` and `prev` hold the links.  A ring is a
distinguished head together with the nodes that follow it until the links come back to the
head.

* `Path next prev u xs w` — the links lead from `u` through `xs` to `w`, and back.
* `Ring next prev a xs` — a path from the head `a` to itself that repeats no node.
* `Ring.insert`, `Ring.unlink` — what the link updates of an insertion at the front and of a
  removal do.
* `Ring.congr` — a ring depends only on the links of its own nodes.
* `OnRing` — reachability from the head; in a ring it is membership.
-/

variable {α : Type*} {next prev next' prev' : α → α} {a q u w x : α} {xs ys zs : List α}

/-! ### Paths -/

/-- The links lead from `u` through the nodes `xs` to `w`, and backwards from `w` to `u`. -/
def Path (next prev : α → α) : α → List α → α → Prop
  | u, [], w => next u = w ∧ prev w = u
  | u, x :: xs, w => (next u = x ∧ prev x = u) ∧ Path next prev x xs w

/-- A path is cut at each of its nodes. -/
theorem path_append :
    Path next prev u (xs ++ x :: ys) w ↔ Path next prev u xs x ∧ Path next prev x ys w := by
  induction xs generalizing u with
  | nil => simp [Path]
  | cons y xs ih => simp [Path, ih, and_assoc]

/-- The first node after `u`. -/
theorem Path.next_eq (h : Path next prev u xs w) : next u = xs.headD w := by
  cases xs with
  | nil => exact h.1
  | cons x xs => exact h.1.1

/-- The last node before `w`. -/
theorem Path.prev_eq (h : Path next prev u xs w) : prev w = xs.getLastD u := by
  induction xs generalizing u with
  | nil => exact h.2
  | cons x xs ih =>
    rw [ih h.2]
    cases xs <;> rfl

/-- The path backwards. -/
theorem Path.reverse (h : Path next prev u xs w) : Path prev next w xs.reverse u := by
  induction xs generalizing u with
  | nil => exact h.symm
  | cons x xs ih =>
    rw [List.reverse_cons]
    exact path_append.mpr ⟨ih h.2, h.1.symm⟩

/-- The first link leads to a node of the path or to its end. -/
theorem Path.next_mem (h : Path next prev u xs w) : next u ∈ xs ++ [w] := by
  rw [h.next_eq]
  cases xs <;> simp

/-- The last link back leads to a node of the path or to its start. -/
theorem Path.prev_mem (h : Path next prev u xs w) : prev w ∈ u :: xs := by
  induction xs generalizing u with
  | nil => simp [h.2]
  | cons x xs ih => exact List.mem_cons_of_mem u (ih h.2)

/-- A path depends only on the forward links of the nodes it leaves and the backward links of
    the nodes it enters. -/
theorem Path.congr (h : Path next prev u xs w) (hn : ∀ x ∈ u :: xs, next' x = next x)
    (hp : ∀ x ∈ xs ++ [w], prev' x = prev x) : Path next' prev' u xs w := by
  induction xs generalizing u with
  | nil =>
    refine ⟨?_, ?_⟩
    · rw [hn u (by simp)]
      exact h.1
    · rw [hp w (by simp)]
      exact h.2
  | cons x xs ih =>
    refine ⟨⟨?_, ?_⟩, ?_⟩
    · rw [hn u (by simp)]
      exact h.1.1
    · rw [hp x (by simp)]
      exact h.1.2
    · exact ih h.2 (fun y hy => hn y (List.mem_cons_of_mem u hy))
        (fun y hy => hp y (List.mem_cons_of_mem x hy))

section
variable [DecidableEq α]

/-- Redirecting the two links around `q` takes it off the path. -/
theorem Path.unlink (h : Path next prev u (ys ++ q :: zs) w)
    (hnodup : (u :: (ys ++ q :: zs)).Nodup) (hw : w ∉ ys ++ q :: zs) :
    Path (Function.update next (prev q) (next q)) (Function.update prev (next q) (prev q))
      u (ys ++ zs) w := by
  induction ys generalizing u with
  | nil =>
    -- `u` is the node before `q`
    simp only [List.nil_append] at h hnodup hw ⊢
    obtain ⟨⟨hnu, hpq⟩, hq⟩ := h
    rw [hpq]
    simp only [List.nodup_cons, List.mem_cons, not_or] at hnodup hw
    cases zs with
    | nil =>
      obtain ⟨hnq, -⟩ := hq
      exact ⟨by simp [hnq], by simp [hnq]⟩
    | cons z zs =>
      obtain ⟨⟨hnq, -⟩, hz⟩ := hq
      rw [hnq]
      refine ⟨⟨by simp, by simp⟩, hz.congr ?_ ?_⟩
      · intro y hy
        refine Function.update_of_ne ?_ _ _
        rintro rfl
        exact hnodup.1.2 hy
      · intro y hy
        refine Function.update_of_ne ?_ _ _
        rintro rfl
        rcases List.mem_append.mp hy with hy | hy
        · exact (List.nodup_cons.mp hnodup.2.2).1 hy
        · rw [List.mem_singleton] at hy
          exact hw.2 (by simp [hy])
  | cons y ys ih =>
    obtain ⟨⟨hnu, hpy⟩, hy⟩ := h
    have hnodup' : (y :: (ys ++ q :: zs)).Nodup := (List.nodup_cons.mp hnodup).2
    have hw' : w ∉ ys ++ q :: zs := fun hmem => hw (List.mem_cons_of_mem y hmem)
    have hparts := path_append.mp hy
    refine ⟨⟨?_, ?_⟩, ih hy hnodup' hw'⟩
    · -- `u` comes before `y`, and the node before `q` does not
      have hmem : prev q ∈ y :: ys := hparts.1.prev_mem
      rw [Function.update_of_ne, hnu]
      rintro rfl
      refine (List.nodup_cons.mp hnodup).1 ?_
      simp only [List.cons_append, List.mem_cons, List.mem_append] at hmem ⊢
      rcases hmem with hmem | hmem
      · exact Or.inl hmem
      · exact Or.inr (Or.inl hmem)
    · -- `y` comes before `q`, and the node after `q` does not
      have hmem : next q ∈ zs ++ [w] := hparts.2.next_mem
      rw [Function.update_of_ne, hpy]
      rintro rfl
      rcases List.mem_append.mp hmem with hmem | hmem
      · exact (List.nodup_cons.mp hnodup').1 (by simp [hmem])
      · rw [List.mem_singleton] at hmem
        exact hw (by simp [hmem])

end

/-! ### Rings -/

/-- The ring with head `a` and nodes `xs`, in the order of the forward links. -/
structure Ring (next prev : α → α) (a : α) (xs : List α) : Prop where
  path : Path next prev a xs a
  nodup : (a :: xs).Nodup

namespace Ring

variable (h : Ring next prev a xs)
include h

theorem head_notMem : a ∉ xs := (List.nodup_cons.mp h.nodup).1

theorem ne_head (hx : x ∈ xs) : x ≠ a := by
  rintro rfl
  exact h.head_notMem hx

/-- The head links to the first node, or to itself in an empty ring. -/
theorem next_head : next a = xs.headD a := h.path.next_eq

/-- It links back to the last node, or to itself. -/
theorem prev_head : prev a = xs.getLastD a := h.path.prev_eq

/-- Following a link from the head stays on the ring. -/
theorem next_head_mem : next a ∈ a :: xs := by
  have hmem := h.path.next_mem
  simp only [List.mem_append, List.mem_singleton] at hmem
  rcases hmem with hmem | hmem <;> simp [hmem]

/-- A ring depends only on the links of its own nodes. -/
theorem congr (hn : ∀ x ∈ a :: xs, next' x = next x) (hp : ∀ x ∈ a :: xs, prev' x = prev x) :
    Ring next' prev' a xs where
  path := by
    refine h.path.congr hn ?_
    intro x hx
    refine hp x ?_
    rcases List.mem_append.mp hx with hx | hx
    · exact List.mem_cons_of_mem a hx
    · simp_all
  nodup := h.nodup

/-- The ring backwards. -/
theorem reverse : Ring prev next a xs.reverse := by
  have hnodup := List.nodup_cons.mp h.nodup
  refine ⟨h.path.reverse, List.nodup_cons.mpr ⟨?_, List.nodup_reverse.mpr hnodup.2⟩⟩
  rw [List.mem_reverse]
  exact hnodup.1

end Ring

/-- The empty ring. -/
theorem ring_nil (hn : next a = a) (hp : prev a = a) : Ring next prev a [] :=
  ⟨⟨hn, hp⟩, by simp⟩

/-- The node after an inner node. -/
theorem Ring.next_mid (h : Ring next prev a (ys ++ x :: zs)) : next x = zs.headD a :=
  (path_append.mp h.path).2.next_eq

/-- Following a link back from a node stays on the ring. -/
theorem Ring.prev_mem_cons (h : Ring next prev a xs) (hx : x ∈ xs) : prev x ∈ a :: xs := by
  obtain ⟨ys, zs, rfl⟩ := List.append_of_mem hx
  have hmem := (path_append.mp h.path).1.prev_mem
  simp only [List.mem_cons, List.mem_append] at hmem ⊢
  rcases hmem with hmem | hmem
  · exact Or.inl hmem
  · exact Or.inr (Or.inl hmem)

theorem Ring.next_mem_cons (h : Ring next prev a xs) (hx : x ∈ xs) : next x ∈ a :: xs := by
  obtain ⟨ys, zs, rfl⟩ := List.append_of_mem hx
  have hmem := (path_append.mp h.path).2.next_mem
  rw [List.mem_append, List.mem_singleton] at hmem
  simp only [List.mem_cons, List.mem_append]
  rcases hmem with hmem | hmem
  · exact Or.inr (Or.inr (Or.inr hmem))
  · exact Or.inl hmem

section
variable [DecidableEq α]

/-- Links of nodes outside the ring do not matter. -/
theorem Ring.update_next (h : Ring next prev a xs) (hq : q ∉ a :: xs) (v : α) :
    Ring (Function.update next q v) prev a xs := by
  refine h.congr ?_ (fun _ _ => rfl)
  intro x hx
  refine Function.update_of_ne ?_ _ _
  rintro rfl
  exact hq hx

/-- A backward link of something that is not on the ring may be written. -/
theorem Ring.update_prev (h : Ring next prev a xs) (hq : q ∉ a :: xs) (v : α) :
    Ring next (Function.update prev q v) a xs := by
  refine h.congr (fun _ _ => rfl) ?_
  intro x hx
  refine Function.update_of_ne ?_ _ _
  rintro rfl
  exact hq hx

/-- **Insertion.**  A new node whose own links have been prepared becomes the first one when
    the two links around it are redirected. -/
theorem Ring.insert (h : Ring next prev a xs) (hq : q ∉ a :: xs) (hnq : next q = next a)
    (hpq : prev q = a) :
    Ring (Function.update next a q) (Function.update prev (next a) q) a (q :: xs) where
  path := by
    have hqa : q ≠ a := fun he => hq (by simp [he])
    have hqf : q ≠ next a := fun he => hq (he ▸ h.next_head_mem)
    refine ⟨⟨by simp, by rw [Function.update_of_ne hqf, hpq]⟩, ?_⟩
    have hpath := h.path
    cases xs with
    -- the two links around the new node meet at the head of an empty ring
    | nil =>
      obtain ⟨hna, -⟩ := hpath
      exact ⟨by rw [Function.update_of_ne hqa, hnq, hna], by simp [hna]⟩
    | cons x xs =>
      obtain ⟨⟨hna, -⟩, hx⟩ := hpath
      have hnodup := h.nodup
      simp only [List.nodup_cons, List.mem_cons, not_or] at hnodup
      -- the links between the old nodes are not touched
      refine ⟨⟨by rw [Function.update_of_ne hqa, hnq, hna], by simp [hna]⟩, hx.congr ?_ ?_⟩
      · intro y hy
        refine Function.update_of_ne ?_ _ _
        rintro rfl
        rcases List.mem_cons.mp hy with hy | hy
        · exact hnodup.1.1 hy
        · exact hnodup.1.2 hy
      · intro y hy
        refine Function.update_of_ne ?_ _ _
        rintro rfl
        rw [hna] at hy
        rcases List.mem_append.mp hy with hy | hy
        · exact hnodup.2.1 hy
        · rw [List.mem_singleton] at hy
          exact hnodup.1.1 hy.symm
  nodup := by
    have hnodup := h.nodup
    simp only [List.nodup_cons, List.mem_cons, not_or] at hnodup hq ⊢
    exact ⟨⟨fun he => hq.1 he.symm, hnodup.1⟩, hq.2, hnodup.2⟩

/-- **Removal.**  Redirecting the two links around a node takes it out of the ring. -/
theorem Ring.unlink (h : Ring next prev a (ys ++ q :: zs)) :
    Ring (Function.update next (prev q) (next q)) (Function.update prev (next q) (prev q))
      a (ys ++ zs) where
  path := h.path.unlink h.nodup h.head_notMem
  nodup := by
    have hnodup := h.nodup
    refine hnodup.sublist (List.Sublist.cons_cons a ?_)
    exact List.Sublist.append_left (List.sublist_cons_self q zs) ys

end

/-! ### Reachability -/

/-- `x` is reached from the head `a` by following the forward links, before they come back. -/
def OnRing (next : α → α) (a x : α) : Prop := x ≠ a ∧ ∃ k, next^[k] a = x

/-- Every node of a path is reached from its start. -/
theorem Path.reaches (h : Path next prev u xs w) (hx : x ∈ xs) : ∃ k, next^[k] u = x := by
  induction xs generalizing u with
  | nil => simp at hx
  | cons y xs ih =>
    rcases List.mem_cons.mp hx with rfl | hx
    · exact ⟨1, h.1.1⟩
    · obtain ⟨k, hk⟩ := ih h.2 hx
      exact ⟨k + 1, by rw [Function.iterate_succ_apply, h.1.1, hk]⟩

/-- Following the forward links never leaves the ring. -/
theorem Ring.iterate_mem (h : Ring next prev a xs) (k : ℕ) : next^[k] a ∈ a :: xs := by
  induction k with
  | zero => simp
  | succ k ih =>
    rw [Function.iterate_succ_apply']
    rcases List.mem_cons.mp ih with he | hx
    · rw [he]
      exact h.next_head_mem
    · exact h.next_mem_cons hx

/-- In a ring, reachable from the head means listed. -/
theorem Ring.onRing_iff (h : Ring next prev a xs) : OnRing next a x ↔ x ∈ xs := by
  constructor
  · rintro ⟨hne, k, rfl⟩
    exact (List.mem_cons.mp (h.iterate_mem k)).resolve_left hne
  · intro hx
    exact ⟨h.ne_head hx, h.path.reaches hx⟩

end Lib.LinkedRing
