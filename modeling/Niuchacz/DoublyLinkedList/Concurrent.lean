import Niuchacz.DoublyLinkedList.Links
import Niuchacz.Lib.Locks

namespace Niuchacz.DoublyLinkedList.Concurrent

/-!
# The list shared by threads

The functions of `doublylinkedlist.c` as steps of any number of threads: a step is one
operation on a spinlock, one write to a link, one atomic operation on a reference count, or a
test.  The single link writes are those of `Niuchacz.DoublyLinkedList.Model`.

* `Pc` — where a thread is.
* `Shared` — the heap and the two spinlocks, with bookkeeping that no step looks at: the
  entries of the two rings, where each address belongs, who holds references, and on which
  entries `doublylinkedlistDel` has been called.
* `step` — what a thread does next; a label also says which function an idle thread calls and
  what `malloc` returns.
* `Disciplined` — what the threads owe to each other.
-/

/-! ### Rings and places -/

/-- The two rings, each with its spinlock. -/
inductive Side where
  | active
  | deleted
  deriving DecidableEq

/-- What an address is: free memory, a ring head, an entry on a ring, or an entry that one
    thread has taken off the rings or not yet put on one. -/
inductive Place (ι : Type) where
  | free
  | head (k : Side)
  | ring (k : Side)
  | thread (t : ι)

/-- The address is that of an allocated entry. -/
def Place.isEntry {ι : Type} : Place ι → Bool
  | .ring _ | .thread _ => true
  | _ => false

/-- The writes of `i_doublylinkedlistEntryHeaderAdd`, in order. -/
def linkWrite (h : Heap) (plist pentry : Ptr) : ℕ → Heap
  | 0 => addNext h plist pentry
  | 1 => addPrev h plist pentry
  | 2 => addNextPrev h plist pentry
  | _ => addListNext h plist pentry

/-- The writes of `i_doublylinkedlistEntryHeaderDel`, in order. -/
def unlinkWrite (h : Heap) (pentry : Ptr) : ℕ → Heap
  | 0 => delPrevNext h pentry
  | 1 => delNextPrev h pentry
  | 2 => h.setNext pentry pentry
  | _ => h.setPrev pentry pentry

/-- Without interleaving the writes are the sequential operations. -/
theorem entryHeaderAdd_eq_writes (h : Heap) (a p : Ptr) :
    entryHeaderAdd h a p = [0, 1, 2, 3].foldl (fun h k => linkWrite h a p k) h := rfl

/-- The same for taking an entry off. -/
theorem entryHeaderDel_eq_writes (h : Heap) (p : Ptr) :
    entryHeaderDel h p = [0, 1, 2, 3].foldl (fun h k => unlinkWrite h p k) h := rfl

/-! ### States -/

/-- Where a thread is.  `k` counts the writes of a link update already made; `due` is
    bookkeeping: the entries without references on the deleted ring when the sweep began that
    it has not freed yet. -/
inductive Pc where
  | idle
  | addLock (p : Ptr) | addLink (p : Ptr) (k : ℕ) | addUnlock (p : Ptr)
  | findLock (key : UInt64) | findStart (key : UInt64) | findTest (key : UInt64) (p : Ptr)
  | findUnlock (r : Option Ptr)
  | delLock (p : Ptr) | delUnlink (p : Ptr) (k : ℕ) | delTest (p : Ptr) | delMark (p : Ptr)
  | delLockDeleted (p : Ptr) | delLink (p : Ptr) (k : ℕ) | delUnlockDeleted (p : Ptr)
  | delUnlock (p : Ptr)
  | sweepLock | sweepStart (due : List Ptr) | sweepTest (due : List Ptr) (p : Ptr)
  | sweepLoad (due : List Ptr) (p : Ptr) | sweepNext (due : List Ptr) (p : Ptr)
  | sweepSave (due : List Ptr) (p : Ptr) | sweepUnlink (due : List Ptr) (q pnext : Ptr) (k : ℕ)
  | sweepFree (due : List Ptr) (q pnext : Ptr) | sweepUnlock (due : List Ptr)
  deriving DecidableEq

/-- What the threads share.  A spinlock's flag is set exactly if it has an owner. -/
structure Shared (ι : Type) where
  heap : Heap
  plist : Ptr
  lock : Side → Option ι
  ring : Side → List Ptr
  place : Ptr → Place ι
  holders : List (ι × Ptr)
  delCalled : List Ptr

/-- The head of a ring. -/
def Shared.head {ι : Type} (s : Shared ι) : Side → Ptr
  | .active => s.plist
  | .deleted => deletedEntries s.plist

structure State (ι : Type) where
  sh : Shared ι
  pc : ι → Pc

section
variable {ι : Type}

/-- A list that `doublylinkedlistAlloc` has just returned, all threads outside its
    functions. -/
def start (ι : Type) (h : Heap) (plist : Ptr) : State ι where
  sh :=
    { heap := (doublylinkedlistAlloc h plist).heap
      plist := plist
      lock := fun _ => none
      ring := fun _ => []
      place := fun x =>
        if x = plist then .head .active
        else if x = deletedEntries plist then .head .deleted
        else .free
      holders := []
      delCalled := [] }
  pc := fun _ => .idle

/-! ### Steps -/

/-- `spinlockLock`: not possible while another thread has the lock. -/
def lockThen (s : Shared ι) (k : Side) (t : ι) (p : Pc) : Option (Shared ι × Pc) :=
  match s.lock k with
  | none => some ({ s with lock := Function.update s.lock k (some t) }, p)
  | some _ => none

/-- The lock is taken if it is free. -/
theorem lockThen_eq_some_iff {s : Shared ι} {k : Side} {t : ι} {p : Pc} {o : Shared ι × Pc} :
    lockThen s k t p = some o ↔
      s.lock k = none ∧ o = ({ s with lock := Function.update s.lock k (some t) }, p) := by
  unfold lockThen
  cases hl : s.lock k with
  | none => simp [eq_comm]
  | some u => simp

/-- `spinlockUnlock`. -/
def Shared.unlock (s : Shared ι) (k : Side) : Shared ι :=
  { s with lock := Function.update s.lock k none }

/-- The `k`-th write that puts `p` in front of a ring; with the third one the entry is on the
    ring as far as the bookkeeping goes. -/
def Shared.link (s : Shared ι) (side : Side) (p : Ptr) (k : ℕ) : Shared ι :=
  { s with
    heap := linkWrite s.heap (s.head side) p k
    ring := if k = 2 then Function.update s.ring side (p :: s.ring side) else s.ring
    place := if k = 2 then Function.update s.place p (.ring side) else s.place }

/-- The `k`-th write that takes `p` off a ring; with the first one the entry belongs to the
    thread as far as the bookkeeping goes. -/
def Shared.unlink (s : Shared ι) (t : ι) (side : Side) (p : Ptr) (k : ℕ) : Shared ι :=
  { s with
    heap := unlinkWrite s.heap p k
    ring := if k = 0 then Function.update s.ring side ((s.ring side).erase p) else s.ring
    place := if k = 0 then Function.update s.place p (.thread t) else s.place }

/-- The functions of the list. -/
inductive Call where
  | add (key : UInt64) (data : List UInt8) (mem : Option Ptr)
  | find (key : UInt64)
  | release (p : Ptr)
  | del (p : Ptr)
  | freeDeletedEntries
  deriving DecidableEq

variable [DecidableEq ι]

/-- What happens when thread `t` calls a function: the preparation of a new entry, before
    anybody else can see it; the atomic decrement that is all of `doublylinkedlistRelease`;
    otherwise nothing yet.  The decrement is described for memory that belongs to `p`: after
    `p` has been freed it can hit another object, which `Niuchacz.Psmgr.stepWild` leaves open. -/
def stepCall (s : Shared ι) (t : ι) : Call → Option (Shared ι × Pc)
  | .add _ _ none => some (s, .idle)
  | .add key data (some p) =>
      if s.heap.allocated p || p = s.plist || p = deletedEntries s.plist then none
      else
        some ({ s with
          heap := s.heap.newEntry p key data
          place := Function.update s.place p (.thread t)
          holders := (t, p) :: s.holders
          delCalled := s.delCalled.filter (· ≠ p) }, .addLock p)
  | .find key => some (s, .findLock key)
  | .release p =>
      some ({ s with
        heap := s.heap.setReferences p (s.heap.references p - 1)
        holders := s.holders.erase (t, p) }, .idle)
  | .del p => some ({ s with delCalled := p :: s.delCalled }, .delLock p)
  | .freeDeletedEntries => some (s, .sweepLock)

/-- The next step of a thread inside a function. -/
def stepGo (s : Shared ι) (t : ι) : Pc → Option (Shared ι × Pc)
  | .idle => none
  | .addLock p => lockThen s .active t (.addLink p 0)
  | .addLink p k => some (s.link .active p k, if k < 3 then .addLink p (k + 1) else .addUnlock p)
  | .addUnlock _ => some (s.unlock .active, .idle)
  | .findLock key => lockThen s .active t (.findStart key)
  | .findStart key => some (s, .findTest key (s.heap.next s.plist))
  | .findTest key p =>
      if p = s.plist then some (s, .findUnlock none)
      else if s.heap.key p = key then
        some ({ s with
          heap := s.heap.setReferences p (s.heap.references p + 1)
          holders := (t, p) :: s.holders }, .findUnlock (some p))
      else some (s, .findTest key (s.heap.next p))
  | .findUnlock _ => some (s.unlock .active, .idle)
  | .delLock p => lockThen s .active t (.delUnlink p 0)
  | .delUnlink p k =>
      some (s.unlink t .active p k, if k < 3 then .delUnlink p (k + 1) else .delTest p)
  | .delTest p => some (s, if s.heap.references p > 0 then .delMark p else .delUnlock p)
  | .delMark p => some ({ s with heap := s.heap.setDeleted p true }, .delLockDeleted p)
  | .delLockDeleted p => lockThen s .deleted t (.delLink p 0)
  | .delLink p k =>
      some (s.link .deleted p k, if k < 3 then .delLink p (k + 1) else .delUnlockDeleted p)
  | .delUnlockDeleted p => some (s.unlock .deleted, .delUnlock p)
  | .delUnlock _ => some (s.unlock .active, .idle)
  | .sweepLock =>
      lockThen s .deleted t (.sweepStart ((s.ring .deleted).filter (s.heap.references · = 0)))
  | .sweepStart due => some (s, .sweepTest due (s.heap.next (s.head .deleted)))
  | .sweepTest due p =>
      if p = s.head .deleted then some (s, .sweepUnlock due)
      else some (s, if s.heap.isDeleted p then .sweepLoad due p else .sweepNext due p)
  | .sweepLoad due p =>
      some (s, if s.heap.references p = 0 then .sweepSave due p else .sweepNext due p)
  | .sweepNext due p => some (s, .sweepTest due (s.heap.next p))
  | .sweepSave due p => some (s, .sweepUnlink due p (s.heap.next p) 0)
  | .sweepUnlink due q pnext k =>
      some (s.unlink t .deleted q k,
        if k < 3 then .sweepUnlink due q pnext (k + 1) else .sweepFree due q pnext)
  | .sweepFree due q pnext =>
      some ({ s with
        heap := s.heap.free q
        place := Function.update s.place q .free }, .sweepTest (due.filter (· ≠ q)) pnext)
  | .sweepUnlock _ => some (s.unlock .deleted, .idle)

/-- What a thread can do: call a function when it is in none, or take the next step of the one
    it is in. -/
inductive Act where
  | call (c : Call)
  | go
  deriving DecidableEq

/-- What thread `t` at `p` does when it acts by `a`. -/
def outcome (s : Shared ι) (t : ι) (p : Pc) : Act → Option (Shared ι × Pc)
  | .call c => if p = .idle then stepCall s t c else none
  | .go => stepGo s t p

/-- The state after thread `t` has moved. -/
def State.apply (s : State ι) (t : ι) (o : Shared ι × Pc) : State ι where
  sh := o.1
  pc := Function.update s.pc t o.2

/-- One step of the system. -/
def step (s : State ι) (l : ι × Act) : Option (State ι) :=
  (outcome s.sh l.1 (s.pc l.1) l.2).map (s.apply l.1)

/-! ### What the threads owe to each other -/

/-- A thread releases only references it holds, and deletes only entries it holds a reference
    to and that nobody has deleted before. -/
def Disciplined (s : State ι) : ι × Act → Prop
  | (t, .call (.release p)) => (t, p) ∈ s.sh.holders
  | (t, .call (.del p)) => (t, p) ∈ s.sh.holders ∧ p ∉ s.sh.delCalled
  | _ => True

/-- The step does not count the `2 ^ 32`-th reference to an entry. -/
def NoOverflow (s : State ι) (l : ι × Act) : Prop :=
  ∀ key p, s.pc l.1 = .findTest key p → l.2 = .go → p ≠ s.sh.plist → s.sh.heap.key p = key →
    (s.sh.heap.references p).toNat + 1 < 2 ^ 32

end

end Niuchacz.DoublyLinkedList.Concurrent
