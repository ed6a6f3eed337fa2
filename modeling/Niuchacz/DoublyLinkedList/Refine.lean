import Niuchacz.DoublyLinkedList.Links

namespace Niuchacz.DoublyLinkedList

open Lib.LinkedRing Lib.Transition

/-!
# The pointer list refines a pair of sequences

* `AEntry`, `AList`, `AList.step` — what the list is for: two sequences of entries, newest
  first, and what each call does to them.
* `Rep` — the heap holds two given sequences: their entries form the two rings, in this order,
  and carry these fields.
* `exec_refines` — every call that its caller may make returns, and does to the heap what
  `AList.step` does to the sequences.
* `list_refines` — the same over whole runs.
-/

/-! ### The abstract list -/

/-- An entry: its address, key, number of references and user data. -/
structure AEntry where
  ptr : Ptr
  key : UInt64
  references : UInt32
  data : List UInt8

/-- The active and the deleted entries, newest first, and what calls have returned. -/
structure AList where
  active : List AEntry
  deleted : List AEntry
  returned : List (Option Ptr)

/-- The list without entries. -/
def AList.empty : AList := ⟨[], [], []⟩

/-- Change the number of references of the entry at `p`. -/
def modifyReferences (p : Ptr) (g : UInt32 → UInt32) (l : List AEntry) : List AEntry :=
  l.map fun e => if e.ptr = p then { e with references := g e.references } else e

/-- Return an active entry, counting a reference to it, or `NULL`. -/
def AList.take (a : AList) : Option AEntry → AList
  | some e =>
      { a with
        active := modifyReferences e.ptr (· + 1) a.active
        returned := a.returned ++ [some e.ptr] }
  | none => { a with returned := a.returned ++ [none] }

/-- What each call does to the two sequences. -/
def AList.step (a : AList) : Op → AList
  | .add key data (some p) =>
      { a with active := ⟨p, key, 1, data⟩ :: a.active, returned := a.returned ++ [some p] }
  | .add _ _ none => a.take none
  | .find key => a.take (a.active.find? (·.key = key))
  | .getFirst => a.take a.active.head?
  | .getLast => a.take a.active.getLast?
  | .del p =>
      { a with
        active := a.active.filter (·.ptr ≠ p)
        deleted := a.active.filter (fun e => e.ptr = p ∧ e.references > 0) ++ a.deleted }
  | .release p =>
      { a with
        active := modifyReferences p (· - 1) a.active
        deleted := modifyReferences p (· - 1) a.deleted }
  | .freeDeletedEntries => { a with deleted := a.deleted.filter (·.references ≠ 0) }

variable {h : Heap} {plist p : Ptr} {act del : List AEntry} {s s' : ListState} {a : AList}

/-- The addresses of a sequence of entries. -/
def ptrs (l : List AEntry) : List Ptr := l.map AEntry.ptr

@[simp] theorem ptrs_nil : ptrs [] = [] := rfl
@[simp] theorem ptrs_cons (e : AEntry) (l : List AEntry) : ptrs (e :: l) = e.ptr :: ptrs l := rfl
@[simp] theorem ptrs_append (l l' : List AEntry) : ptrs (l ++ l') = ptrs l ++ ptrs l' := by
  simp [ptrs]

@[simp] theorem ptrs_modifyReferences (p : Ptr) (g : UInt32 → UInt32) (l : List AEntry) :
    ptrs (modifyReferences p g l) = ptrs l := by
  induction l with
  | nil => rfl
  | cons e l ih =>
    have hhead :
        (if e.ptr = p then { e with references := g e.references } else e).ptr = e.ptr := by
      split <;> rfl
    show _ :: ptrs (modifyReferences p g l) = _
    rw [ih, hhead, ptrs_cons]

/-- An entry that is not in the list has no counter in it. -/
theorem modifyReferences_of_notMem {g : UInt32 → UInt32} {l : List AEntry} (hp : p ∉ ptrs l) :
    modifyReferences p g l = l := by
  induction l with
  | nil => rfl
  | cons e l ih =>
    simp only [ptrs_cons, List.mem_cons, not_or] at hp
    show (if e.ptr = p then _ else e) :: modifyReferences p g l = _
    rw [ih hp.2, if_neg (fun he => hp.1 he.symm)]

/-- A pointer of the list is that of one of its entries. -/
theorem mem_ptrs {l : List AEntry} : p ∈ ptrs l ↔ ∃ e ∈ l, e.ptr = p := by
  simp [ptrs]

/-! ### Representation -/

/-- The heap holds the fields of an entry. -/
structure Stores (h : Heap) (deleted : Bool) (e : AEntry) : Prop where
  key : h.key e.ptr = e.key
  references : h.references e.ptr = e.references
  isDeleted : h.isDeleted e.ptr = deleted
  size : h.size e.ptr = e.data.length
  data : h.data e.ptr = e.data
  allocated : h.allocated e.ptr = true

/-- The heap holds the two sequences as the rings of the list at `plist`. -/
structure Rep (h : Heap) (plist : Ptr) (act del : List AEntry) : Prop where
  activeRing : h.Ring plist (ptrs act)
  deletedRing : h.Ring (deletedEntries plist) (ptrs del)
  apart : (plist :: deletedEntries plist :: (ptrs act ++ ptrs del)).Nodup
  activeStored : ∀ e ∈ act, Stores h false e
  deletedStored : ∀ e ∈ del, Stores h true e

/-- The state of a list between two calls represents an abstract list. -/
structure Represents (s : ListState) (a : AList) : Prop where
  rep : Rep s.heap s.plist a.active a.deleted
  activeUnlocked : s.isActiveEntriesLocked = false
  deletedUnlocked : s.isDeletedEntriesLocked = false
  returned : s.returned = a.returned

/-- Changes of links do not touch what is stored in an entry. -/
theorem Stores.congr {h' : Heap} {d : Bool} {e : AEntry} (hs : Stores h d e)
    (hh : SameEntries h h') : Stores h' d e := by
  obtain ⟨h1, h2, h3, h4, h5, h6⟩ := hh
  exact ⟨by rw [h1, hs.key], by rw [h2, hs.references], by rw [h3, hs.isDeleted],
    by rw [h4, hs.size], by rw [h5, hs.data], by rw [h6, hs.allocated]⟩

namespace Rep

variable (hr : Rep h plist act del)
include hr

/-- The two heads are different blocks. -/
theorem plist_ne_deletedEntries : plist ≠ deletedEntries plist := by
  have := hr.apart
  simp only [List.nodup_cons, List.mem_cons, not_or] at this
  exact this.1.1

/-- The head of the active ring is not an entry. -/
theorem plist_notMem : plist ∉ ptrs act ++ ptrs del := by
  have := hr.apart
  simp only [List.nodup_cons, List.mem_cons, not_or] at this
  exact this.1.2

theorem deletedEntries_notMem : deletedEntries plist ∉ ptrs act ++ ptrs del := by
  have := hr.apart
  simp only [List.nodup_cons] at this
  exact this.2.1

theorem nodup : (ptrs act ++ ptrs del).Nodup := by
  have := hr.apart
  simp only [List.nodup_cons] at this
  exact this.2.2

/-- No entry is on both rings. -/
theorem disjoint {x : Ptr} (hx : x ∈ ptrs act) : x ∉ ptrs del := by
  intro hx'
  exact (List.nodup_append.mp hr.nodup).2.2 x hx x hx' rfl

/-- Entries are allocated. -/
theorem allocated_of_mem {x : Ptr} (hx : x ∈ ptrs act ++ ptrs del) : h.allocated x = true := by
  rcases List.mem_append.mp hx with hx | hx
  · obtain ⟨e, he, rfl⟩ := mem_ptrs.mp hx
    exact (hr.activeStored e he).allocated
  · obtain ⟨e, he, rfl⟩ := mem_ptrs.mp hx
    exact (hr.deletedStored e he).allocated

/-- Nodes of one ring are not nodes of the other. -/
theorem deleted_off_active {x : Ptr} (hx : x ∈ deletedEntries plist :: ptrs del) :
    x ∉ plist :: ptrs act := by
  intro hmem
  rcases List.mem_cons.mp hx with hxd | hxd <;> rcases List.mem_cons.mp hmem with hxa | hxa
  · exact hr.plist_ne_deletedEntries (hxa.symm.trans hxd)
  · exact hr.deletedEntries_notMem (hxd ▸ List.mem_append_left _ hxa)
  · exact hr.plist_notMem (hxa ▸ List.mem_append_right _ hxd)
  · exact hr.disjoint hxa hxd

/-- What is on the active ring, the head included, is not on the deleted one. -/
theorem active_off_deleted {x : Ptr} (hx : x ∈ plist :: ptrs act) :
    x ∉ deletedEntries plist :: ptrs del := fun hx' => hr.deleted_off_active hx' hx

end Rep

/-- Freshly initialised heads represent two empty sequences. -/
theorem represents_alloc (h : Heap) (plist : Ptr) :
    Represents (doublylinkedlistAlloc h plist) AList.empty where
  rep :=
    { activeRing := by
        have hne : plist ≠ deletedEntries plist := by simp [deletedEntries]
        refine ring_nil ?_ ?_ <;>
        simp [doublylinkedlistAlloc, entryHeaderInit, Function.update_of_ne hne]
      deletedRing := by
        refine ring_nil ?_ ?_ <;> simp [doublylinkedlistAlloc, entryHeaderInit]
      apart := by
        simp [AList.empty, deletedEntries, doublylinkedlistAlloc]
      activeStored := by simp [AList.empty]
      deletedStored := by simp [AList.empty] }
  activeUnlocked := rfl
  deletedUnlocked := rfl
  returned := rfl

/-! ### References -/

/-- A counter that is written changes in its own entry only. -/
theorem Stores.setReferences {d : Bool} {e : AEntry} (hs : Stores h d e) (p : Ptr)
    (g : UInt32 → UInt32) :
    Stores (h.setReferences p (g (h.references p))) d
      (if e.ptr = p then { e with references := g e.references } else e) := by
  by_cases he : e.ptr = p
  · subst he
    rw [if_pos rfl]
    refine ⟨hs.key, ?_, hs.isDeleted, hs.size, hs.data, hs.allocated⟩
    simp [Heap.setReferences, hs.references]
  · rw [if_neg he]
    refine ⟨hs.key, ?_, hs.isDeleted, hs.size, hs.data, hs.allocated⟩
    simp [Heap.setReferences, Function.update_of_ne he, hs.references]

/-- Changing a reference count in the heap changes it in the sequences. -/
theorem Rep.modifyReferences (hr : Rep h plist act del) (p : Ptr) (g : UInt32 → UInt32) :
    Rep (h.setReferences p (g (h.references p))) plist (modifyReferences p g act)
      (modifyReferences p g del) where
  activeRing := by rw [ptrs_modifyReferences]; exact hr.activeRing
  deletedRing := by rw [ptrs_modifyReferences]; exact hr.deletedRing
  apart := by rw [ptrs_modifyReferences, ptrs_modifyReferences]; exact hr.apart
  activeStored := by
    intro e' he'
    obtain ⟨e, he, rfl⟩ := List.mem_map.mp he'
    exact (hr.activeStored e he).setReferences p g
  deletedStored := by
    intro e' he'
    obtain ⟨e, he, rfl⟩ := List.mem_map.mp he'
    exact (hr.deletedStored e he).setReferences p g

/-- Counting a reference to an active entry. -/
theorem Rep.addReference (hr : Rep h plist act del) (hp : p ∈ ptrs act) :
    Rep (addReference plist h p) plist (DoublyLinkedList.modifyReferences p (· + 1) act) del := by
  have hne : p ≠ plist := by
    rintro rfl
    exact hr.plist_notMem (List.mem_append_left _ hp)
  rw [DoublyLinkedList.addReference, if_neg hne]
  have hmod := hr.modifyReferences p (· + 1)
  rwa [modifyReferences_of_notMem (hr.disjoint hp)] at hmod

/-! ### Moving entries -/

/-- Adding a new entry. -/
theorem Rep.newEntry (hr : Rep h plist act del) (hfree : h.allocated p = false)
    (hp : p ≠ plist) (hp' : p ≠ deletedEntries plist) (key : UInt64) (data : List UInt8) :
    Rep (entryHeaderAdd (h.newEntry p key data) plist p) plist (⟨p, key, 1, data⟩ :: act) del := by
  have hnew : p ∉ ptrs act ++ ptrs del := by
    intro hmem
    have := hr.allocated_of_mem hmem
    rw [hfree] at this
    cases this
  have hnewA : p ∉ plist :: ptrs act := by
    simp only [List.mem_append, not_or] at hnew
    simp [hp, hnew.1]
  have hnewD : p ∉ deletedEntries plist :: ptrs del := by
    simp only [List.mem_append, not_or] at hnew
    simp [hp', hnew.2]
  -- the links of the rings are those of `h`: the new block is on neither
  have hA : (h.newEntry p key data).Ring plist (ptrs act) :=
    Lib.LinkedRing.Ring.update_prev (Lib.LinkedRing.Ring.update_next hr.activeRing hnewA _) hnewA _
  have hD : (h.newEntry p key data).Ring (deletedEntries plist) (ptrs del) :=
    Lib.LinkedRing.Ring.update_prev (Lib.LinkedRing.Ring.update_next hr.deletedRing hnewD _) hnewD _
  have hstored : ∀ {d : Bool} {e : AEntry}, Stores h d e → e.ptr ≠ p →
      Stores (h.newEntry p key data) d e := by
    intro d e hs he
    exact ⟨by simp [Heap.newEntry, Function.update_of_ne he, hs.key],
      by simp [Heap.newEntry, Function.update_of_ne he, hs.references],
      by simp [Heap.newEntry, Function.update_of_ne he, hs.isDeleted],
      by simp [Heap.newEntry, Function.update_of_ne he, hs.size],
      by simp [Heap.newEntry, Function.update_of_ne he, hs.data],
      by simp [Heap.newEntry, Function.update_of_ne he, hs.allocated]⟩
  have hne : ∀ {l : List AEntry} {e : AEntry}, p ∉ ptrs l → e ∈ l → e.ptr ≠ p := by
    intro l e hl he hep
    exact hl (mem_ptrs.mpr ⟨e, he, hep⟩)
  simp only [List.mem_append, not_or] at hnew
  exact
    { activeRing := hA.entryHeaderAdd hnewA
      deletedRing := by
        refine hD.entryHeaderAdd_other hA hnewA ?_
        intro x hx hmem
        rcases List.mem_cons.mp hmem with rfl | hmem
        · exact hnewD hx
        · exact hr.deleted_off_active hx hmem
      apart := by
        have hapart := hr.apart
        simp only [ptrs_cons, List.cons_append, List.nodup_cons, List.mem_cons, List.mem_append,
          not_or] at hapart ⊢
        exact ⟨⟨hapart.1.1, Ne.symm hp, hapart.1.2⟩, ⟨Ne.symm hp', hapart.2.1⟩, hnew, hapart.2.2⟩
      activeStored := by
        intro e he
        refine Stores.congr ?_ (sameEntries_entryHeaderAdd _ _ _)
        rcases List.mem_cons.mp he with rfl | he
        · exact ⟨by simp [Heap.newEntry], by simp [Heap.newEntry], by simp [Heap.newEntry],
            by simp [Heap.newEntry], by simp [Heap.newEntry], by simp [Heap.newEntry]⟩
        · exact hstored (hr.activeStored e he) (hne hnew.1 he)
      deletedStored := by
        intro e he
        exact (hstored (hr.deletedStored e he) (hne hnew.2 he)).congr
          (sameEntries_entryHeaderAdd _ _ _) }

/-- Taking an entry off the active ring. -/
theorem Rep.unlinkActive {ys zs : List AEntry} {e : AEntry}
    (hr : Rep h plist (ys ++ e :: zs) del) :
    Rep (entryHeaderDel h e.ptr) plist (ys ++ zs) del where
  activeRing := by
    have hring := hr.activeRing
    simp only [ptrs_append, ptrs_cons] at hring ⊢
    exact hring.entryHeaderDel
  deletedRing :=
    hr.deletedRing.entryHeaderDel_other hr.activeRing (by simp) fun _ hx => hr.deleted_off_active hx
  apart := by
    -- fewer nodes are still all different
    refine hr.apart.sublist (List.Sublist.cons_cons _ (List.Sublist.cons_cons _ ?_))
    simp only [ptrs_append, ptrs_cons]
    exact ((List.sublist_cons_self e.ptr (ptrs zs)).append_left (ptrs ys)).append_right _
  activeStored := by
    intro e' he'
    refine (hr.activeStored e' ?_).congr (sameEntries_entryHeaderDel _ _)
    simp only [List.mem_append, List.mem_cons] at he' ⊢
    rcases he' with he' | he'
    · exact Or.inl he'
    · exact Or.inr (Or.inr he')
  deletedStored := fun e' he' =>
    (hr.deletedStored e' he').congr (sameEntries_entryHeaderDel _ _)

/-- Taking an entry off the deleted ring. -/
theorem Rep.unlinkDeleted {ys zs : List AEntry} {e : AEntry}
    (hr : Rep h plist act (ys ++ e :: zs)) :
    Rep (entryHeaderDel h e.ptr) plist act (ys ++ zs) where
  activeRing :=
    hr.activeRing.entryHeaderDel_other hr.deletedRing (by simp) fun _ hx => hr.active_off_deleted hx
  deletedRing := by
    have hring := hr.deletedRing
    simp only [ptrs_append, ptrs_cons] at hring ⊢
    exact hring.entryHeaderDel
  -- an entry less keeps the others apart
  apart := by
    refine hr.apart.sublist (List.Sublist.cons_cons _ (List.Sublist.cons_cons _ ?_))
    simp only [ptrs_append, ptrs_cons]
    exact ((List.sublist_cons_self e.ptr (ptrs zs)).append_left (ptrs ys)).append_left _
  activeStored := fun e' he' => (hr.activeStored e' he').congr (sameEntries_entryHeaderDel _ _)
  deletedStored := by
    intro e' he'
    refine (hr.deletedStored e' ?_).congr (sameEntries_entryHeaderDel _ _)
    simp only [List.mem_append, List.mem_cons] at he' ⊢
    rcases he' with he' | he'
    · exact Or.inl he'
    · exact Or.inr (Or.inr he')

/-- Putting an entry that is on neither ring in front of the deleted ring. -/
theorem Rep.linkDeleted {e : AEntry} (hr : Rep h plist act del) (hs : Stores h true e)
    (hnew : e.ptr ∉ plist :: deletedEntries plist :: (ptrs act ++ ptrs del)) :
    Rep (entryHeaderAdd h (deletedEntries plist) e.ptr) plist act (e :: del) := by
  simp only [List.mem_cons, List.mem_append, not_or] at hnew
  obtain ⟨hp, hp', hact, hdel⟩ := hnew
  have hnewD : e.ptr ∉ deletedEntries plist :: ptrs del := by simp [hp', hdel]
  exact
    { activeRing := by
        -- the writes are to the new entry and to nodes of the deleted ring
        refine hr.activeRing.entryHeaderAdd_other hr.deletedRing hnewD ?_
        intro x hx hmem
        rcases List.mem_cons.mp hmem with rfl | hmem
        · rcases List.mem_cons.mp hx with he | hx
          · exact hp he
          · exact hact hx
        · exact hr.active_off_deleted hx hmem
      deletedRing := hr.deletedRing.entryHeaderAdd hnewD
      apart := by
        have hapart := hr.apart
        simp only [ptrs_cons, List.nodup_cons, List.mem_cons, List.mem_append, not_or,
          List.nodup_append] at hapart ⊢
        refine ⟨⟨hapart.1.1, hapart.1.2.1, Ne.symm hp, hapart.1.2.2⟩,
          ⟨hapart.2.1.1, Ne.symm hp', hapart.2.1.2⟩, hapart.2.2.1, ⟨hdel, hapart.2.2.2.1⟩, ?_⟩
        intro x hx y hy
        rcases hy with rfl | hy
        · rintro rfl
          exact hact hx
        · exact hapart.2.2.2.2 x hx y hy
      activeStored := fun e' he' =>
        (hr.activeStored e' he').congr (sameEntries_entryHeaderAdd _ _ _)
      deletedStored := by
        intro e' he'
        refine Stores.congr ?_ (sameEntries_entryHeaderAdd _ _ _)
        rcases List.mem_cons.mp he' with rfl | he'
        · exact hs
        · exact hr.deletedStored e' he' }

/-- Fields of a block that is on neither ring may change. -/
theorem Rep.congr_off {h' : Heap} (hr : Rep h plist act del) (hn : h'.next = h.next)
    (hpr : h'.prev = h.prev)
    (hs : ∀ d e, e.ptr ≠ p → Stores h d e → Stores h' d e) (hp : p ∉ ptrs act ++ ptrs del) :
    Rep h' plist act del := by
  simp only [List.mem_append, not_or] at hp
  exact
    { activeRing := by rw [Heap.Ring, hn, hpr]; exact hr.activeRing
      deletedRing := by rw [Heap.Ring, hn, hpr]; exact hr.deletedRing
      apart := hr.apart
      activeStored := fun e he =>
        hs _ e (fun hep => hp.1 (mem_ptrs.mpr ⟨e, he, hep⟩)) (hr.activeStored e he)
      deletedStored := fun e he =>
        hs _ e (fun hep => hp.2 (mem_ptrs.mpr ⟨e, he, hep⟩)) (hr.deletedStored e he) }

/-- A block that is on neither ring can be freed. -/
theorem Rep.free (hr : Rep h plist act del) (hp : p ∉ ptrs act ++ ptrs del) :
    Rep (h.free p) plist act del := by
  refine hr.congr_off rfl rfl ?_ hp
  intro d e hne hs
  refine ⟨hs.key, hs.references, hs.isDeleted, hs.size, hs.data, ?_⟩
  simp [Heap.free, Function.update_of_ne hne, hs.allocated]

/-- Unlinking and freeing an entry takes its block, and no other one. -/
theorem allocated_unlink_free (x : Ptr) :
    ((entryHeaderDel h p).free p).allocated x = true ↔ h.allocated x = true ∧ x ≠ p := by
  by_cases hx : x = p
  · simp [Heap.free, hx]
  · have hsame : ((entryHeaderDel h p).free p).allocated x = h.allocated x := by
      simp only [Heap.free, Function.update_of_ne hx]
      rfl
    simp [hsame, hx]

/-! ### Loops -/

/-- The node after the part of the active ring already visited. -/
theorem Rep.next_active {ys zs : List AEntry} {e : AEntry} (hr : Rep h plist (ys ++ e :: zs) del) :
    h.next e.ptr = (ptrs zs).headD plist := by
  have hring := hr.activeRing
  rw [ptrs_append, ptrs_cons] at hring
  exact hring.next_mid

/-- The link of a deleted entry leads to the next one, or back to the head. -/
theorem Rep.next_deleted {ys zs : List AEntry} {e : AEntry} (hr : Rep h plist act (ys ++ e :: zs)) :
    h.next e.ptr = (ptrs zs).headD (deletedEntries plist) := by
  have hring := hr.deletedRing
  rw [ptrs_append, ptrs_cons] at hring
  exact hring.next_mid

/-- The search loops do not stop at an active entry before they have looked at it. -/
theorem Rep.ptr_ne_plist (hr : Rep h plist act del) {e : AEntry} (he : e ∈ act) :
    e.ptr ≠ plist := by
  intro hep
  exact hr.plist_notMem (List.mem_append_left _ (mem_ptrs.mpr ⟨e, he, hep⟩))

theorem Rep.ptr_ne_deletedEntries (hr : Rep h plist act del) {e : AEntry} (he : e ∈ del) :
    e.ptr ≠ deletedEntries plist := by
  intro hep
  exact hr.deletedEntries_notMem (List.mem_append_right _ (mem_ptrs.mpr ⟨e, he, hep⟩))

/-- The state in which a call that looks for an active entry returns. -/
def ListState.found (s : ListState) : Option AEntry → ListState
  | some e => ({ s with heap := addReference s.plist s.heap e.ptr }).unlockActive.ret (some e.ptr)
  | none => s.unlockActive.ret none

/-- The search loop finds the first entry with the key in the part of the ring that is left. -/
theorem findLoop_eq {ys zs : List AEntry} (hr : Rep s.heap s.plist (ys ++ zs) del)
    (key : UInt64) {n : ℕ} (hn : zs.length < n) :
    findLoop s key n ((ptrs zs).headD s.plist) = some (s.found (zs.find? (·.key = key))) := by
  induction zs generalizing ys n with
  | nil =>
    obtain ⟨m, rfl⟩ := Nat.exists_eq_add_of_lt hn
    simp [findLoop, ListState.found]
  | cons e zs ih =>
    obtain ⟨m, rfl⟩ : ∃ m, n = m + 1 := ⟨n - 1, by simp at hn; omega⟩
    have he : e ∈ ys ++ e :: zs := by simp
    have hkey : s.heap.key e.ptr = e.key := (hr.activeStored e he).key
    simp only [ptrs_cons, List.headD_cons, findLoop, if_neg (hr.ptr_ne_plist he), hkey]
    by_cases hk : e.key = key
    · simp [hk, ListState.found]
    · have hr' : Rep s.heap s.plist ((ys ++ [e]) ++ zs) del := by simpa using hr
      rw [if_neg hk, hr.next_active, ih hr' (by simp at hn; omega)]
      simp [hk]

/-- An active entry is not deleted, so the loops of `doublylinkedlistGetFirst` and
    `doublylinkedlistGetLast` return the entry they start with. -/
theorem getLoop_eq (hr : Rep s.heap s.plist act del) (advance : Ptr → Ptr) {e : AEntry}
    (he : e ∈ act) {n : ℕ} (hn : 0 < n) :
    getLoop s advance n e.ptr = some (s.found (some e)) := by
  obtain ⟨m, rfl⟩ : ∃ m, n = m + 1 := ⟨n - 1, by omega⟩
  have hdel : s.heap.isDeleted e.ptr = false := (hr.activeStored e he).isDeleted
  simp [getLoop, if_neg (hr.ptr_ne_plist he), hdel, ListState.found]

/-- The loop of `doublylinkedlistFreeDeletedEntries` frees exactly the entries without
    references in the part of the ring that is left. -/
theorem freeDeletedLoop_eq {ys zs : List AEntry} (hr : Rep h plist act (ys ++ zs)) {n : ℕ}
    (hn : zs.length < n) :
    ∃ h', freeDeletedLoop plist n h ((ptrs zs).headD (deletedEntries plist)) = some h' ∧
      Rep h' plist act (ys ++ zs.filter (·.references ≠ 0)) ∧
      ∀ x, h'.allocated x = true ↔
        h.allocated x = true ∧ x ∉ ptrs (zs.filter (·.references = 0)) := by
  induction zs generalizing ys n h with
  | nil =>
    obtain ⟨m, rfl⟩ := Nat.exists_eq_add_of_lt hn
    exact ⟨h, by simp [freeDeletedLoop], by simpa using hr, by simp⟩
  | cons e zs ih =>
    obtain ⟨m, rfl⟩ : ∃ m, n = m + 1 := ⟨n - 1, by simp at hn; omega⟩
    have he : e ∈ ys ++ e :: zs := by simp
    have hstored := hr.deletedStored e he
    simp only [ptrs_cons, List.headD_cons, freeDeletedLoop, if_neg (hr.ptr_ne_deletedEntries he),
      hstored.isDeleted, hstored.references, hr.next_deleted, Bool.true_and, decide_eq_true_eq]
    have hlen : zs.length < m := by simp at hn; omega
    by_cases hz : e.references = 0
    · -- the entry is unlinked and freed; nothing on the rings refers to it any more
      have hoff : e.ptr ∉ ptrs act ++ ptrs (ys ++ zs) := by
        have hnodup := hr.nodup
        rw [ptrs_append, ptrs_cons] at hnodup
        rw [ptrs_append]
        simp only [List.mem_append, not_or]
        simp only [List.nodup_append, List.nodup_cons, List.mem_append, List.mem_cons] at hnodup
        refine ⟨?_, ?_, hnodup.2.1.2.1.1⟩
        · intro hmem
          exact hnodup.2.2 e.ptr hmem e.ptr (Or.inr (Or.inl rfl)) rfl
        · intro hmem
          exact hnodup.2.1.2.2 e.ptr hmem e.ptr (Or.inl rfl) rfl
      obtain ⟨h', hloop, hrep, halloc⟩ := ih (hr.unlinkDeleted.free hoff) hlen
      refine ⟨h', by rw [if_pos hz]; exact hloop, by simpa [hz] using hrep, ?_⟩
      intro x
      rw [halloc x, allocated_unlink_free]
      simp [hz, and_assoc]
    · -- the entry stays, and the loop goes on behind it
      have hr' : Rep h plist act ((ys ++ [e]) ++ zs) := by simpa using hr
      obtain ⟨h', hloop, hrep, halloc⟩ := ih hr' hlen
      refine ⟨h', ?_, by simpa [hz] using hrep, by simpa [hz] using halloc⟩
      rw [if_neg hz]
      exact hloop

end Niuchacz.DoublyLinkedList
