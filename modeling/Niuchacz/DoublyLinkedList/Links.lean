import Niuchacz.DoublyLinkedList.Model

namespace Niuchacz.DoublyLinkedList

open Lib.LinkedRing

/-!
# What the link updates do to rings

The pointer operations of the list against `Lib.LinkedRing`: for each of them what it does to
the ring it is applied to, and that it leaves every other ring, and every other field of the
heap, alone.
-/

variable {h : Heap} {a b p q v : Ptr} {xs ys zs : List Ptr}

/-- The two link functions of a heap form a ring. -/
def Heap.Ring (h : Heap) (a : Ptr) (xs : List Ptr) : Prop := Lib.LinkedRing.Ring h.next h.prev a xs

/-! ### Fields -/

@[simp] theorem setNext_next : (h.setNext p v).next = Function.update h.next p v := rfl
@[simp] theorem setNext_prev : (h.setNext p v).prev = h.prev := rfl
@[simp] theorem setPrev_next : (h.setPrev p v).next = h.next := rfl
@[simp] theorem setPrev_prev : (h.setPrev p v).prev = Function.update h.prev p v := rfl

/-- The fields of entries other than the links. -/
def SameEntries (h h' : Heap) : Prop :=
  h'.key = h.key ∧ h'.references = h.references ∧ h'.isDeleted = h.isDeleted ∧
    h'.size = h.size ∧ h'.data = h.data ∧ h'.allocated = h.allocated

theorem sameEntries_entryHeaderAdd (h : Heap) (a p : Ptr) : SameEntries h (entryHeaderAdd h a p) :=
  ⟨rfl, rfl, rfl, rfl, rfl, rfl⟩

theorem sameEntries_entryHeaderDel (h : Heap) (p : Ptr) : SameEntries h (entryHeaderDel h p) :=
  ⟨rfl, rfl, rfl, rfl, rfl, rfl⟩

/-! ### Insertion -/

/-- The first two writes of an insertion only touch the new entry. -/
theorem Heap.Ring.addNext (hr : h.Ring a xs) (hp : p ∉ a :: xs) : (addNext h b p).Ring a xs :=
  Lib.LinkedRing.Ring.update_next hr hp _

/-- The first store of a link goes to the new entry: the ring does not notice it. -/
theorem Heap.Ring.addPrev (hr : h.Ring a xs) (hp : p ∉ a :: xs) : (addPrev h b p).Ring a xs :=
  Lib.LinkedRing.Ring.update_prev hr hp _

/-- The last two writes of an insertion make the new entry the first one. -/
theorem Heap.Ring.insert (hr : h.Ring a xs) (hp : p ∉ a :: xs) (hn : h.next p = h.next a)
    (hpr : h.prev p = a) : (addListNext (addNextPrev h a p) a p).Ring a (p :: xs) :=
  Lib.LinkedRing.Ring.insert hr hp hn hpr

/-- `i_doublylinkedlistEntryHeaderAdd` puts the entry at the front of the ring. -/
theorem Heap.Ring.entryHeaderAdd (hr : h.Ring a xs) (hp : p ∉ a :: xs) :
    (entryHeaderAdd h a p).Ring a (p :: xs) := by
  have hpa : p ≠ a := fun he => hp (by simp [he])
  have hr2 : (DoublyLinkedList.addPrev (DoublyLinkedList.addNext h a p) a p).Ring a xs :=
    (hr.addNext hp).addPrev hp
  refine hr2.insert hp ?_ ?_
  · simp [DoublyLinkedList.addPrev, DoublyLinkedList.addNext, Function.update_of_ne hpa.symm]
  · simp [DoublyLinkedList.addPrev]

/-- The links of nodes that are neither the entry nor on the ring it is added to do not
    change. -/
theorem entryHeaderAdd_frame (hr : h.Ring a xs) (hp : p ∉ a :: xs) {x : Ptr}
    (hx : x ∉ p :: a :: xs) : (entryHeaderAdd h a p).next x = h.next x ∧
      (entryHeaderAdd h a p).prev x = h.prev x := by
  have hxp : x ≠ p := fun he => hx (by simp [he])
  have hxa : x ≠ a := fun he => hx (by simp [he])
  have hpa : p ≠ a := fun he => hp (by simp [he])
  have hxf : x ≠ h.next a := by
    rintro rfl
    exact hx (List.mem_cons_of_mem p (Lib.LinkedRing.Ring.next_head_mem hr))
  constructor
  · simp [entryHeaderAdd, addListNext, addNextPrev, DoublyLinkedList.addPrev,
      DoublyLinkedList.addNext, Function.update_of_ne hxa, Function.update_of_ne hxp]
  · simp [entryHeaderAdd, addListNext, addNextPrev, DoublyLinkedList.addPrev,
      DoublyLinkedList.addNext, Function.update_of_ne hpa.symm, Function.update_of_ne hxf,
      Function.update_of_ne hxp]

/-- A ring with none of the nodes involved stays as it is. -/
theorem Heap.Ring.entryHeaderAdd_other (hb : h.Ring b ys) (hr : h.Ring a xs)
    (hp : p ∉ a :: xs) (hdisj : ∀ x ∈ b :: ys, x ∉ p :: a :: xs) :
    (DoublyLinkedList.entryHeaderAdd h a p).Ring b ys :=
  Lib.LinkedRing.Ring.congr hb (fun x hx => (entryHeaderAdd_frame hr hp (hdisj x hx)).1)
    (fun x hx => (entryHeaderAdd_frame hr hp (hdisj x hx)).2)

/-! ### Removal -/

/-- The first two writes of a removal take the entry out of its ring. -/
theorem Heap.Ring.unlink (hr : h.Ring a (ys ++ p :: zs)) :
    (delNextPrev (delPrevNext h p) p).Ring a (ys ++ zs) := by
  have hne : h.prev p ≠ p := by
    have hmem := (path_append.mp hr.path).1.prev_mem
    have hnodup := hr.nodup
    rintro he
    rw [he] at hmem
    rw [← List.cons_append, List.nodup_append] at hnodup
    exact hnodup.2.2 p hmem p (by simp) rfl
  have hnext : (delPrevNext h p).next p = h.next p := by
    simp [delPrevNext, Function.update_of_ne hne.symm]
  have hunlink := Lib.LinkedRing.Ring.unlink hr
  show Lib.LinkedRing.Ring (delPrevNext h p).next
    (Function.update h.prev ((delPrevNext h p).next p) (h.prev p)) a (ys ++ zs)
  rw [hnext]
  exact hunlink

/-- Nor does it notice that an entry beside it is initialised. -/
theorem Heap.Ring.entryHeaderInit (hr : h.Ring a xs) (hp : p ∉ a :: xs) :
    (entryHeaderInit h p).Ring a xs :=
  Lib.LinkedRing.Ring.update_prev (Lib.LinkedRing.Ring.update_next hr hp _) hp _

/-- An entry stands on the ring once. -/
theorem notMem_of_ring_mid (hr : h.Ring a (ys ++ p :: zs)) : p ∉ a :: (ys ++ zs) := by
  have hnodup := hr.nodup
  simp only [List.nodup_cons, List.mem_append, List.mem_cons, not_or, List.nodup_append] at hnodup
  simp only [List.mem_cons, List.mem_append, not_or]
  refine ⟨fun he => hnodup.1.2.1 he.symm, ?_, hnodup.2.2.1.1⟩
  intro hmem
  exact hnodup.2.2.2 p hmem p (Or.inl rfl) rfl

/-- `i_doublylinkedlistEntryHeaderDel` takes the entry out of its ring. -/
theorem Heap.Ring.entryHeaderDel (hr : h.Ring a (ys ++ p :: zs)) :
    (entryHeaderDel h p).Ring a (ys ++ zs) :=
  hr.unlink.entryHeaderInit (notMem_of_ring_mid hr)

/-- The links of nodes that are not on the entry's ring do not change. -/
theorem entryHeaderDel_frame (hr : h.Ring a xs) (hp : p ∈ xs) {x : Ptr} (hx : x ∉ a :: xs) :
    (entryHeaderDel h p).next x = h.next x ∧ (entryHeaderDel h p).prev x = h.prev x := by
  have hxp : x ≠ p := by
    rintro rfl
    exact hx (List.mem_cons_of_mem a hp)
  have hxprev : x ≠ h.prev p := by
    rintro rfl
    exact hx (Lib.LinkedRing.Ring.prev_mem_cons hr hp)
  -- the second write goes through the link that the first one may have changed
  have hnext : (delPrevNext h p).next p ∈ a :: xs := by
    by_cases he : p = h.prev p
    · simp only [delPrevNext, setNext_next]
      rw [← he, Function.update_self]
      exact Lib.LinkedRing.Ring.next_mem_cons hr hp
    · simp only [delPrevNext, setNext_next, Function.update_of_ne he]
      exact Lib.LinkedRing.Ring.next_mem_cons hr hp
  have hxnext : x ≠ (delPrevNext h p).next p := by
    rintro rfl
    exact hx hnext
  constructor
  · simp [DoublyLinkedList.entryHeaderDel, DoublyLinkedList.entryHeaderInit, delNextPrev,
      Function.update_of_ne hxp, delPrevNext, Function.update_of_ne hxprev]
  · have hprev : (delNextPrev (delPrevNext h p) p).prev x = h.prev x := by
      rw [delNextPrev, setPrev_prev, Function.update_of_ne hxnext]
      rfl
    simp only [DoublyLinkedList.entryHeaderDel, DoublyLinkedList.entryHeaderInit, setPrev_prev,
      Function.update_of_ne hxp, setNext_prev]
    exact hprev

/-- A ring with no node of the entry's ring stays as it is. -/
theorem Heap.Ring.entryHeaderDel_other (hb : h.Ring b ys) (hr : h.Ring a xs) (hp : p ∈ xs)
    (hdisj : ∀ x ∈ b :: ys, x ∉ a :: xs) : (DoublyLinkedList.entryHeaderDel h p).Ring b ys :=
  Lib.LinkedRing.Ring.congr hb (fun x hx => (entryHeaderDel_frame hr hp (hdisj x hx)).1)
    (fun x hx => (entryHeaderDel_frame hr hp (hdisj x hx)).2)

end Niuchacz.DoublyLinkedList
