import Niuchacz.Lib.LinkedRing
import Niuchacz.Lib.Transition
import Mathlib.Algebra.Group.Nat.Defs

namespace Niuchacz.DoublyLinkedList

open Lib.LinkedRing

/-!
# The shared list (`algorithms/doublylinkedlist/doublylinkedlist.c`)

Entries live on one of two rings, the active and the deleted one, whose heads are the fields
`_activeEntries` and `_deletedEntries` of a `DOUBLYLINKEDLIST`.  An entry is deleted by moving
it to the second ring, and freed once nobody holds a reference to it.  This file is the
embedding of the functions as one thread runs them:

* `Heap` — the fields of all list entries and ring heads, by address.
* `entryHeaderAdd`, `entryHeaderDel` and their single writes — the pointer operations.
* `doublylinkedlistAdd` … `doublylinkedlistFree` — the interface; a loop takes the number of
  iterations it may make, and `none` is a call that has not returned by then.
* `Op`, `step` — calls one after another.

Pointers are addresses.  The pointers handed to callers are those of the entries plus
`sizeof(DOUBLYLINKEDLIST_ENTRY)`; the model hands out the entries' own.
-/

abbrev Ptr := ℕ

/-! ### The heap -/

/-- The fields of list entries (and, for `_next` and `_prev`, of the two ring heads), and which
    entries are allocated. -/
structure Heap where
  next : Ptr → Ptr
  prev : Ptr → Ptr
  key : Ptr → UInt64
  references : Ptr → UInt32
  isDeleted : Ptr → Bool
  size : Ptr → ℕ
  data : Ptr → List UInt8
  allocated : Ptr → Bool

/-- The heap before anything has been stored. -/
def Heap.zero : Heap :=
  ⟨fun _ => 0, fun _ => 0, fun _ => 0, fun _ => 0, fun _ => false, fun _ => 0, fun _ => [],
    fun _ => false⟩

/-- `p->_next = v`. -/
def Heap.setNext (h : Heap) (p v : Ptr) : Heap := { h with next := Function.update h.next p v }

/-- `p->_prev = v`. -/
def Heap.setPrev (h : Heap) (p v : Ptr) : Heap := { h with prev := Function.update h.prev p v }

/-- `p->_references = n`. -/
def Heap.setReferences (h : Heap) (p : Ptr) (n : UInt32) : Heap :=
  { h with references := Function.update h.references p n }

/-- `p->_isDeleted = b`. -/
def Heap.setDeleted (h : Heap) (p : Ptr) (b : Bool) : Heap :=
  { h with isDeleted := Function.update h.isDeleted p b }

/-- `free(p)`. -/
def Heap.free (h : Heap) (p : Ptr) : Heap :=
  { h with allocated := Function.update h.allocated p false }

/-- The block returned by `malloc`, with the fields `doublylinkedlistAdd` stores into it. -/
def Heap.newEntry (h : Heap) (p : Ptr) (key : UInt64) (data : List UInt8) : Heap :=
  { h with
    next := Function.update h.next p p
    prev := Function.update h.prev p p
    references := Function.update h.references p 1
    isDeleted := Function.update h.isDeleted p false
    key := Function.update h.key p key
    size := Function.update h.size p data.length
    data := Function.update h.data p data
    allocated := Function.update h.allocated p true }

/-! ### Link updates -/

/-- `i_doublylinkedlistEntryHeaderInit`. -/
def entryHeaderInit (h : Heap) (pentry : Ptr) : Heap :=
  (h.setNext pentry pentry).setPrev pentry pentry

/-- `pentry->_next = plist->_next`. -/
def addNext (h : Heap) (plist pentry : Ptr) : Heap := h.setNext pentry (h.next plist)

/-- `pentry->_prev = plist`. -/
def addPrev (h : Heap) (plist pentry : Ptr) : Heap := h.setPrev pentry plist

/-- `plist->_next->_prev = pentry`. -/
def addNextPrev (h : Heap) (plist pentry : Ptr) : Heap := h.setPrev (h.next plist) pentry

/-- `plist->_next = pentry`. -/
def addListNext (h : Heap) (plist pentry : Ptr) : Heap := h.setNext plist pentry

/-- `i_doublylinkedlistEntryHeaderAdd`. -/
def entryHeaderAdd (h : Heap) (plist pentry : Ptr) : Heap :=
  let h := addNext h plist pentry
  let h := addPrev h plist pentry
  let h := addNextPrev h plist pentry
  addListNext h plist pentry

/-- `pentry->_prev->_next = pentry->_next`. -/
def delPrevNext (h : Heap) (pentry : Ptr) : Heap := h.setNext (h.prev pentry) (h.next pentry)

/-- `pentry->_next->_prev = pentry->_prev`. -/
def delNextPrev (h : Heap) (pentry : Ptr) : Heap := h.setPrev (h.next pentry) (h.prev pentry)

/-- `i_doublylinkedlistEntryHeaderDel`. -/
def entryHeaderDel (h : Heap) (pentry : Ptr) : Heap :=
  let h := delPrevNext h pentry
  let h := delNextPrev h pentry
  entryHeaderInit h pentry

/-! ### The list and its spinlocks -/

/-- The address of `_deletedEntries` in the `DOUBLYLINKEDLIST` at `plist`; `_activeEntries` is
    at `plist` itself. -/
def deletedEntries (plist : Ptr) : Ptr := plist + 24

/-- A list, the heap, and what the calls that return a pointer have returned so far (`none` is
    `NULL`). -/
structure ListState where
  heap : Heap
  plist : Ptr
  isActiveEntriesLocked : Bool
  isDeletedEntriesLocked : Bool
  returned : List (Option Ptr)

/-- `spinlockLock(&plist->_isActiveEntriesLocked)`: a thread on its own spins forever on a
    flag that is set. -/
def ListState.lockActive (s : ListState) : Option ListState :=
  if s.isActiveEntriesLocked then none else some { s with isActiveEntriesLocked := true }

def ListState.unlockActive (s : ListState) : ListState := { s with isActiveEntriesLocked := false }

/-- `spinlockLock(&plist->_isDeletedEntriesLocked)`. -/
def ListState.lockDeleted (s : ListState) : Option ListState :=
  if s.isDeletedEntriesLocked then none else some { s with isDeletedEntriesLocked := true }

def ListState.unlockDeleted (s : ListState) : ListState :=
  { s with isDeletedEntriesLocked := false }

def ListState.ret (s : ListState) (r : Option Ptr) : ListState :=
  { s with returned := s.returned ++ [r] }

/-- A pointer whose low 32 bits have been incremented as an `uint32_t`. -/
def lowWordSucc (p : Ptr) : Ptr := p / 2 ^ 32 * 2 ^ 32 + (p + 1) % 2 ^ 32

/-- `__atomic_add_fetch(&pentry->_references, 1)`.  `_references` is at offset 24: for the
    head of the active ring this is the low half of `_deletedEntries._next`. -/
def addReference (plist : Ptr) (h : Heap) (pentry : Ptr) : Heap :=
  if pentry = plist then
    h.setNext (deletedEntries plist) (lowWordSucc (h.next (deletedEntries plist)))
  else h.setReferences pentry (h.references pentry + 1)

/-! ### The interface -/

/-- `doublylinkedlistAlloc`, with `malloc` returning `plist`; the list has no entries yet. -/
def doublylinkedlistAlloc (h : Heap) (plist : Ptr) : ListState where
  heap := entryHeaderInit (entryHeaderInit { h with allocated := fun _ => false } plist)
    (deletedEntries plist)
  plist := plist
  isActiveEntriesLocked := false
  isDeletedEntriesLocked := false
  returned := []

/-- `doublylinkedlistAdd`; `mem` is what `malloc` returns. -/
def doublylinkedlistAdd (s : ListState) (key : UInt64) (data : List UInt8) (mem : Option Ptr) :
    Option ListState :=
  match mem with
  | none => some (s.ret none)
  | some pentry => do
      let s := { s with heap := s.heap.newEntry pentry key data }
      let s ← s.lockActive
      let s := { s with heap := entryHeaderAdd s.heap s.plist pentry }
      return s.unlockActive.ret (some pentry)

/-- `doublylinkedlistDel`. -/
def doublylinkedlistDel (s : ListState) (pentry : Ptr) : Option ListState := do
  let s ← s.lockActive
  let s := { s with heap := entryHeaderDel s.heap pentry }
  if s.heap.references pentry > 0 then
    let s := { s with heap := s.heap.setDeleted pentry true }
    let s ← s.lockDeleted
    let s := { s with heap := entryHeaderAdd s.heap (deletedEntries s.plist) pentry }
    return s.unlockDeleted.unlockActive
  else return s.unlockActive

/-- The loop of `doublylinkedlistFind`. -/
def findLoop (s : ListState) (key : UInt64) : ℕ → Ptr → Option ListState
  | 0, _ => none
  | n + 1, pentry =>
      if pentry = s.plist then some (s.unlockActive.ret none)
      else if s.heap.key pentry = key then
        let s := { s with heap := addReference s.plist s.heap pentry }
        some (s.unlockActive.ret (some pentry))
      else findLoop s key n (s.heap.next pentry)

/-- `doublylinkedlistFind`. -/
def doublylinkedlistFind (fuel : ℕ) (s : ListState) (key : UInt64) : Option ListState := do
  let s ← s.lockActive
  findLoop s key fuel (s.heap.next s.plist)

/-- The loop of `doublylinkedlistGetFirst` (`advance` is `_next`) and of
    `doublylinkedlistGetLast` (`advance` is `_prev`): both also count a reference when the
    loop has come back to the head. -/
def getLoop (s : ListState) (advance : Ptr → Ptr) : ℕ → Ptr → Option ListState
  | 0, _ => none
  | n + 1, pentry =>
      if pentry = s.plist then
        let s := { s with heap := addReference s.plist s.heap pentry }
        some (s.unlockActive.ret none)
      else if !s.heap.isDeleted pentry then
        let s := { s with heap := addReference s.plist s.heap pentry }
        some (s.unlockActive.ret (some pentry))
      else getLoop s advance n (advance pentry)

/-- `doublylinkedlistGetFirst`. -/
def doublylinkedlistGetFirst (fuel : ℕ) (s : ListState) : Option ListState := do
  let s ← s.lockActive
  getLoop s s.heap.next fuel (s.heap.next s.plist)

/-- `doublylinkedlistGetLast`. -/
def doublylinkedlistGetLast (fuel : ℕ) (s : ListState) : Option ListState := do
  let s ← s.lockActive
  getLoop s s.heap.prev fuel (s.heap.prev s.plist)

/-- `doublylinkedlistRelease`. -/
def doublylinkedlistRelease (s : ListState) (pentry : Ptr) : ListState :=
  { s with heap := s.heap.setReferences pentry (s.heap.references pentry - 1) }

/-- The loop of `doublylinkedlistFreeDeletedEntries`. -/
def freeDeletedLoop (plist : Ptr) : ℕ → Heap → Ptr → Option Heap
  | 0, _, _ => none
  | n + 1, h, pentry =>
      if pentry = deletedEntries plist then some h
      else if h.isDeleted pentry && h.references pentry = 0 then
        let pnext := h.next pentry
        freeDeletedLoop plist n ((entryHeaderDel h pentry).free pentry) pnext
      else freeDeletedLoop plist n h (h.next pentry)

/-- `doublylinkedlistFreeDeletedEntries`. -/
def doublylinkedlistFreeDeletedEntries (fuel : ℕ) (s : ListState) : Option ListState := do
  let s ← s.lockDeleted
  let h ← freeDeletedLoop s.plist fuel s.heap (s.heap.next (deletedEntries s.plist))
  return { s with heap := h }.unlockDeleted

/-- A loop of `doublylinkedlistFree`: free the first entry of the ring at `plist` until there
    is none. -/
def freeLoop (plist : Ptr) : ℕ → Heap → Option Heap
  | 0, _ => none
  | n + 1, h =>
      let pentry := h.next plist
      if pentry = plist then some h
      else freeLoop plist n ((entryHeaderDel h pentry).free pentry)

/-- `doublylinkedlistFree`: the heap after all entries of both rings have been freed. -/
def doublylinkedlistFree (fuel : ℕ) (s : ListState) : Option Heap := do
  let s ← s.lockActive
  let s ← s.lockDeleted
  let h ← freeLoop s.plist fuel s.heap
  freeLoop (deletedEntries s.plist) fuel h

/-! ### Calls one after another -/

/-- The calls on a list. -/
inductive Op where
  | add (key : UInt64) (data : List UInt8) (mem : Option Ptr)
  | find (key : UInt64)
  | getFirst
  | getLast
  | del (pentry : Ptr)
  | release (pentry : Ptr)
  | freeDeletedEntries

/-- Run one call, with at most `fuel` iterations in its loop. -/
def exec (fuel : ℕ) (s : ListState) : Op → Option ListState
  | .add key data mem => doublylinkedlistAdd s key data mem
  | .find key => doublylinkedlistFind fuel s key
  | .getFirst => doublylinkedlistGetFirst fuel s
  | .getLast => doublylinkedlistGetLast fuel s
  | .del pentry => doublylinkedlistDel s pentry
  | .release pentry => some (doublylinkedlistRelease s pentry)
  | .freeDeletedEntries => doublylinkedlistFreeDeletedEntries fuel s

/-- One call as a step of a run; the label says how often its loop may turn. -/
def step (s : ListState) (l : Op × ℕ) : Option ListState := exec l.2 s l.1

/-- What a caller has to respect: `malloc` returns a block that is not in use, an entry that
    is deleted is on the active ring, an entry that is released is allocated, and the first or
    last entry is asked for only if there is one. -/
def Allowed (s : ListState) : Op → Prop
  | .add _ _ (some p) => s.heap.allocated p = false ∧ p ≠ s.plist ∧ p ≠ deletedEntries s.plist
  | .del p => OnRing s.heap.next s.plist p
  | .release p => s.heap.allocated p = true
  | .getFirst | .getLast => s.heap.next s.plist ≠ s.plist
  | _ => True

end Niuchacz.DoublyLinkedList
