import Niuchacz.DoublyLinkedList.RefCount

namespace Niuchacz.Psmgr

open DoublyLinkedList DoublyLinkedList.Concurrent

/-!
# Threads of the process manager (`svc_kernel/psmgr/psmgr.c`)

Every thread that the process manager starts runs `i_psmgrExecRoutine`: it adds its context to
the shared list `_threadList`, runs its routine, deletes the entry and releases it.
`psmgrIdle` calls `doublylinkedlistFreeDeletedEntries` on the same list from time to time.

* `Phase` — where a thread is in its routine, between its calls of list functions.
* `step` — the next call of a thread, or the next step inside the one it has made; the list
  functions are the steps of `Niuchacz.DoublyLinkedList.Concurrent`.
* `Phase.owed` — how many references to its entry a thread has still to release.

What the routine does with its own context besides (names, logging, the mutex and condition
variable of the creator, `_p_execRoutine` itself) does not touch the list and is left out, and so
is `psmgrIdle`'s look at the active ring, which only decides whether it sleeps.
-/

/-- Where a thread is.  `reaper` calls `psmgrIdle` over and over, the others run
    `i_psmgrExecRoutine`: `added p` from the call of `doublylinkedlistAdd` on, `deleted p` from
    the call of `doublylinkedlistDel` on, `released p` after the first
    `doublylinkedlistRelease` and `finished p` after the second one.  A thread whose
    `doublylinkedlistAdd` returns `NULL` has no further step: the routine dereferences it. -/
inductive Phase where
  | reaper
  | begin
  | failed
  | added (p : Ptr)
  | deleted (p : Ptr)
  | released (p : Ptr)
  | finished (p : Ptr)
  deriving DecidableEq

/-- The thread's entry. -/
def Phase.entry : Phase → Option Ptr
  | .added p | .deleted p | .released p | .finished p => some p
  | _ => none

/-- The thread's entry and the number of references to it that are still to be released: the
    one that `doublylinkedlistAdd` has made, until it is released. -/
def Phase.owed : Phase → Option (Ptr × ℕ)
  | .added p | .deleted p => some (p, 1)
  | .released p | .finished p => some (p, 0)
  | _ => none

/-- The list, the threads, and bookkeeping: whose entry has been freed. -/
structure State (ι : Type) where
  list : Concurrent.State ι
  phase : ι → Phase
  freed : ι → Bool

section
variable {ι : Type}

/-- After `psmgrStart`: an empty list, and threads that have not done anything. -/
def start (ι : Type) (h : Heap) (plist : Ptr) (reaper : ι → Bool) : State ι where
  list := Concurrent.start ι h plist
  phase := fun t => if reaper t then .reaper else .begin
  freed := fun _ => false

/-- Whose entry is freed when a thread takes the step at `p`. -/
def State.freedBy (s : State ι) (p : Pc) (t : ι) : Bool :=
  match p with
  | .sweepFree _ q _ => s.freed t || (s.phase t).entry = some q
  | _ => s.freed t

variable [DecidableEq ι]

/-- What a thread does next: `add` is the beginning of `i_psmgrExecRoutine` with what
    `pthread_self`, the context and `malloc` give, `next` its next call, `psmgrIdle` the reaper's
    call, and `go` a step inside a list function. -/
inductive Act where
  | add (key : UInt64) (data : List UInt8) (mem : Option Ptr)
  | next
  | psmgrIdle
  | go
  deriving DecidableEq

/-- A call of a list function, after which the thread is in the next phase. -/
def State.call (s : State ι) (t : ι) (c : Call) (phase : Phase) : Option (State ι) :=
  (Concurrent.step s.list (t, .call c)).map fun list =>
    { s with list := list, phase := Function.update s.phase t phase }

/-- `i_psmgrExecRoutine` and `psmgrIdle`, step by step. -/
def step (s : State ι) : ι × Act → Option (State ι)
  | (t, .go) =>
      (Concurrent.step s.list (t, .go)).map fun list =>
        { s with list := list, freed := s.freedBy (s.list.pc t) }
  | (t, .add key data mem) =>
      match s.phase t with
      | .begin =>
          s.call t (.add key data mem) (match mem with | some p => .added p | none => .failed)
      | _ => none
  | (t, .next) =>
      match s.phase t with
      | .added p => s.call t (.del p) (.deleted p)
      | .deleted p => s.call t (.release p) (.released p)
      | .released p => s.call t (.release p) (.finished p)
      | _ => none
  | (t, .psmgrIdle) =>
      match s.phase t with
      | .reaper => s.call t .freeDeletedEntries .reaper
      | _ => none

/-- The step is the second `doublylinkedlistRelease` of `i_psmgrExecRoutine`. -/
def SecondRelease (s : State ι) (l : ι × Act) : Prop := l.2 = .next ∧ ∃ p, s.phase l.1 = .released p

/-- A count equals the number of references still to be released, until the entry is freed,
    which is not before there are none. -/
def Balanced (s : State ι) : Prop :=
  ∀ t p n, (s.phase t).owed = some (p, n) →
    if s.freed t then n = 0
    else s.list.sh.heap.allocated p = true ∧ (s.list.sh.heap.references p).toNat = n

end

end Niuchacz.Psmgr
