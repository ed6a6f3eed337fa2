import Niuchacz.DoublyLinkedList.Concurrent

namespace Niuchacz.DoublyLinkedList.Concurrent

open Lib.LinkedRing

/-!
# Rings under update

While a thread links or unlinks an entry the ring is not well formed: one of its links is
still the old one.  `Work` says how far the owner of a ring's lock has come, and `WorkOk` what
the ring looks like then: either it is a ring, or it becomes one with the single write that
is left.

* `WorkOk.link_step`, `WorkOk.unlink_step` — one write leads from one stage to the next.
* `WorkOk.congr` — a stage only depends on the links of the ring's nodes and of the entry
  being moved.
* `linkWrite_frame`, `unlinkWrite_frame` — the writes only touch these.
-/

/-- How far the owner of a ring's lock has come with a link update. -/
inductive Work where
  | none
  | link (p : Ptr) (k : ℕ)
  | unlink (p : Ptr) (k : ℕ)

/-- The entry being moved. -/
def Work.node : Work → Option Ptr
  | .none => Option.none
  | .link p _ | .unlink p _ => some p

/-- The ring with head `a` and entries `xs` at some stage of a link update. -/
def WorkOk (h : Heap) (a : Ptr) (xs : List Ptr) : Work → Prop
  | .none => h.Ring a xs
  | .link _ 0 => h.Ring a xs
  | .link p 1 => h.Ring a xs ∧ h.next p = h.next a
  | .link p 2 => h.Ring a xs ∧ h.next p = h.next a ∧ h.prev p = a
  | .link p _ => p ∈ xs ∧ (addListNext h a p).Ring a xs
  | .unlink p 0 => p ∈ xs ∧ h.Ring a xs
  | .unlink p 1 => h.next p ∈ a :: xs ∧ (delNextPrev h p).Ring a xs
  | .unlink _ _ => h.Ring a xs

variable {h h' : Heap} {a p x : Ptr} {xs : List Ptr} {k : ℕ} {w : Work}

/-! ### Stages -/

/-- One write of an insertion. -/
theorem WorkOk.link_step (hw : WorkOk h a xs (.link p k)) (hp : k ≤ 2 → p ∉ a :: xs) :
    WorkOk (linkWrite h a p k) a (if k = 2 then p :: xs else xs)
      (if k < 3 then .link p (k + 1) else .none) := by
  match k with
  | 0 =>
    have hpn := hp (by omega)
    have hpa : a ≠ p := fun he => hpn (by simp [he])
    refine ⟨Heap.Ring.addNext hw hpn, ?_⟩
    simp [linkWrite, addNext, Function.update_of_ne hpa]
  | 1 =>
    obtain ⟨hr, hn⟩ := hw
    exact ⟨hr.addPrev (hp (by omega)), hn, by simp [linkWrite, addPrev]⟩
  | 2 =>
    obtain ⟨hr, hn, hpr⟩ := hw
    exact ⟨by simp, hr.insert (hp (by omega)) hn hpr⟩
  | k + 3 => exact hw.2

/-- One write of a removal. -/
theorem WorkOk.unlink_step (hw : WorkOk h a xs (.unlink p k)) (hp : 1 ≤ k → p ∉ a :: xs) :
    WorkOk (unlinkWrite h p k) a (if k = 0 then xs.erase p else xs)
      (if k < 3 then .unlink p (k + 1) else .none) := by
  match k with
  | 0 =>
    obtain ⟨hmem, hr⟩ := hw
    obtain ⟨ys, zs, rfl⟩ := List.append_of_mem hmem
    have hoff := notMem_of_ring_mid hr
    simp only [List.mem_cons, List.mem_append, not_or] at hoff
    have herase : (ys ++ p :: zs).erase p = ys ++ zs := by
      rw [List.erase_append_right _ hoff.2.1, List.erase_cons_head]
    show (delPrevNext h p).next p ∈ a :: (ys ++ p :: zs).erase p ∧
      (delNextPrev (delPrevNext h p) p).Ring a ((ys ++ p :: zs).erase p)
    rw [herase]
    refine ⟨?_, hr.unlink⟩
    -- the entry is not its own predecessor, so its forward link is still the old one
    have hprev : p ≠ h.prev p := by
      intro he
      have hmem' := (path_append.mp hr.path).1.prev_mem
      rw [← he] at hmem'
      rcases List.mem_cons.mp hmem' with hpa | hpys
      · exact hoff.1 hpa
      · exact hoff.2.1 hpys
    have hnext : (delPrevNext h p).next p = h.next p := by
      simp [delPrevNext, Function.update_of_ne hprev]
    rw [hnext]
    have hmem' := (path_append.mp hr.path).2.next_mem
    rw [List.mem_append, List.mem_singleton] at hmem'
    simp only [List.mem_cons, List.mem_append]
    rcases hmem' with hz | ha
    · exact Or.inr (Or.inr hz)
    · exact Or.inl ha
  | 1 => exact hw.2
  | 2 => exact Ring.update_next hw (hp (by omega)) _
  | k + 3 => exact Ring.update_prev hw (hp (by omega)) _

/-- A stage depends only on the links of the ring's nodes and of the entry being moved. -/
theorem WorkOk.congr (hw : WorkOk h a xs w)
    (hring : ∀ x ∈ a :: xs, h'.next x = h.next x ∧ h'.prev x = h.prev x)
    (hnode : ∀ p, w.node = some p → h'.next p = h.next p ∧ h'.prev p = h.prev p) :
    WorkOk h' a xs w := by
  have hr : ∀ {g g' : Heap}, g.Ring a xs →
      (∀ x ∈ a :: xs, g'.next x = g.next x ∧ g'.prev x = g.prev x) → g'.Ring a xs :=
    fun hg hgg => Ring.congr hg (fun x hx => (hgg x hx).1) (fun x hx => (hgg x hx).2)
  have ha := hring a (by simp)
  match w with
  | .none => exact hr hw hring
  | .link p 0 => exact hr hw hring
  | .link p 1 => exact ⟨hr hw.1 hring, by rw [(hnode p rfl).1, ha.1]; exact hw.2⟩
  | .link p 2 =>
    exact ⟨hr hw.1 hring, by rw [(hnode p rfl).1, ha.1]; exact hw.2.1,
      by rw [(hnode p rfl).2]; exact hw.2.2⟩
  | .link p (k + 3) =>
    -- the last write is still to come; with it there is a ring
    refine ⟨hw.1, hr hw.2 ?_⟩
    intro x hx
    refine ⟨?_, (hring x hx).2⟩
    by_cases hxa : x = a
    · simp [addListNext, hxa]
    · simp [addListNext, Function.update_of_ne hxa, (hring x hx).1]
  | .unlink p 0 => exact ⟨hw.1, hr hw.2 hring⟩
  | .unlink p 1 =>
    obtain ⟨hn, hp⟩ := hnode p rfl
    -- here the link back to the entry is still to be written
    refine ⟨by rw [hn]; exact hw.1, hr hw.2 ?_⟩
    intro x hx
    refine ⟨(hring x hx).1, ?_⟩
    by_cases hxn : x = h.next p
    · simp [delNextPrev, hn, hp, hxn]
    · simp [delNextPrev, hn, Function.update_of_ne hxn, (hring x hx).2]
  | .unlink p (k + 2) => exact hr hw hring

/-! ### What the writes leave alone -/

/-- A store of a link writes in the new entry and in the ring only. -/
theorem linkWrite_frame (hw : WorkOk h a xs (.link p k)) (hxp : x ≠ p) (hx : x ∉ a :: xs) :
    (linkWrite h a p k).next x = h.next x ∧ (linkWrite h a p k).prev x = h.prev x := by
  have hxa : x ≠ a := fun he => hx (by simp [he])
  match k with
  | 0 => simp [linkWrite, addNext, Function.update_of_ne hxp]
  | 1 => simp [linkWrite, addPrev, Function.update_of_ne hxp]
  | 2 =>
    have hxn : x ≠ h.next a := by
      rintro rfl
      exact hx (Ring.next_head_mem hw.1)
    simp [linkWrite, addNextPrev, Function.update_of_ne hxn]
  | k + 3 => simp [linkWrite, addListNext, Function.update_of_ne hxa]

theorem unlinkWrite_frame (hw : WorkOk h a xs (.unlink p k)) (hxp : x ≠ p) (hx : x ∉ a :: xs) :
    (unlinkWrite h p k).next x = h.next x ∧ (unlinkWrite h p k).prev x = h.prev x := by
  match k with
  | 0 =>
    have hxn : x ≠ h.prev p := by
      rintro rfl
      exact hx (Ring.prev_mem_cons hw.2 hw.1)
    simp [unlinkWrite, delPrevNext, Function.update_of_ne hxn]
  | 1 =>
    have hxn : x ≠ h.next p := by
      rintro rfl
      exact hx hw.1
    simp [unlinkWrite, delNextPrev, Function.update_of_ne hxn]
  | 2 => simp [unlinkWrite, Function.update_of_ne hxp]
  | k + 3 => simp [unlinkWrite, Function.update_of_ne hxp]

/-- A store of a link leaves the contents of the entries alone. -/
theorem sameEntries_linkWrite (h : Heap) (a p : Ptr) (k : ℕ) :
    SameEntries h (linkWrite h a p k) := by
  match k with
  | 0 | 1 | 2 | k + 3 => exact ⟨rfl, rfl, rfl, rfl, rfl, rfl⟩

theorem sameEntries_unlinkWrite (h : Heap) (p : Ptr) (k : ℕ) :
    SameEntries h (unlinkWrite h p k) := by
  match k with
  | 0 | 1 | 2 | k + 3 => exact ⟨rfl, rfl, rfl, rfl, rfl, rfl⟩

end Niuchacz.DoublyLinkedList.Concurrent
