import Niuchacz.DoublyLinkedList.Sequential

namespace Niuchacz.DoublyLinkedList

open Lib.LinkedRing

/-!
# What a lookup changes

`doublylinkedlistFind`, `doublylinkedlistGetFirst` and `doublylinkedlistGetLast` on any list whose
active entries form a ring; the entries may be marked as deleted, and there may be none.  The last
two go on to count a reference when they have come back to the head, which is not an entry.

* `findLoop_scan`, `getLoop_scan` — the loops in terms of the sequence of entries; the last entry
  is the first one of the ring backwards (`Ring.reverse`).
* `Undisturbed` — nothing has changed but the number of references to the result.
* `lookup_disturbs_nothing` — when this is so.
-/

variable {s s' : ListState} {p : Ptr} {xs ys zs : List Ptr} {n : ℕ}

/-- The lookups. -/
inductive Lookup where
  | find (key : UInt64)
  | getFirst
  | getLast

/-- The call. -/
def Lookup.exec (fuel : ℕ) (s : ListState) : Lookup → Option ListState
  | .find key => doublylinkedlistFind fuel s key
  | .getFirst => doublylinkedlistGetFirst fuel s
  | .getLast => doublylinkedlistGetLast fuel s

/-- The entry that is looked for among the active entries `xs`. -/
def Lookup.result (s : ListState) (xs : List Ptr) : Lookup → Option Ptr
  | .find key => xs.find? fun p => s.heap.key p = key
  | .getFirst => xs.find? fun p => !s.heap.isDeleted p
  | .getLast => xs.reverse.find? fun p => !s.heap.isDeleted p

/-- A lookup changes nothing but the number of references to the entry that it returns. -/
structure Undisturbed (s s' : ListState) (r : Option Ptr) : Prop where
  plist : s'.plist = s.plist
  isActiveEntriesLocked : s'.isActiveEntriesLocked = s.isActiveEntriesLocked
  isDeletedEntriesLocked : s'.isDeletedEntriesLocked = s.isDeletedEntriesLocked
  returned : s'.returned = s.returned ++ [r]
  null : r = none → s'.heap = s.heap
  entry : ∀ p, r = some p → ∃ n : UInt32, n.toNat = (s.heap.references p).toNat + 1 ∧
    s'.heap = s.heap.setReferences p n

/-! ### The loops -/

/-- The state in which a lookup returns: `stop` is what it does to the heap without an entry. -/
def ListState.lookedUp (s : ListState) (stop : Heap) : Option Ptr → ListState
  | some p => ({ s with heap := addReference s.plist s.heap p }).unlockActive.ret (some p)
  | none => ({ s with heap := stop }).unlockActive.ret none

/-- The loop of `doublylinkedlistFind`, wherever it has come on the ring, finds the first entry with
    the key among those ahead. -/
theorem findLoop_scan (hr : s.heap.Ring s.plist (ys ++ zs)) (key : UInt64) (hn : zs.length < n) :
    findLoop s key n (zs.headD s.plist) =
      some (s.lookedUp s.heap (zs.find? fun p => s.heap.key p = key)) := by
  induction zs generalizing ys n with
  | nil =>
    obtain ⟨m, rfl⟩ := Nat.exists_eq_add_of_lt hn
    simp [findLoop, ListState.lookedUp]
  | cons p zs ih =>
    rw [List.length_cons] at hn
    obtain ⟨m, rfl⟩ : ∃ m, n = m + 1 := ⟨n - 1, by omega⟩
    have hp : p ≠ s.plist := hr.ne_head (by simp)
    rw [List.headD_cons, findLoop, if_neg hp]
    by_cases hk : s.heap.key p = key
    · simp [hk, ListState.lookedUp]
    · have hr' : s.heap.Ring s.plist ((ys ++ [p]) ++ zs) := by simpa using hr
      have hnext : s.heap.next p = zs.headD s.plist := Ring.next_mid hr
      rw [if_neg hk, hnext, ih hr' (by omega)]
      simp [hk]

/-- Both directions: `advance` goes along the ring with `back` as its other links. -/
theorem getLoop_scan {advance back : Ptr → Ptr} (hr : Ring advance back s.plist (ys ++ zs))
    (hn : zs.length < n) :
    getLoop s advance n (zs.headD s.plist) =
      some (s.lookedUp (addReference s.plist s.heap s.plist)
        (zs.find? fun p => !s.heap.isDeleted p)) := by
  induction zs generalizing ys n with
  | nil =>
    obtain ⟨m, rfl⟩ := Nat.exists_eq_add_of_lt hn
    simp [getLoop, ListState.lookedUp]
  | cons p zs ih =>
    rw [List.length_cons] at hn
    obtain ⟨m, rfl⟩ : ∃ m, n = m + 1 := ⟨n - 1, by omega⟩
    have hp : p ≠ s.plist := hr.ne_head (by simp)
    rw [List.headD_cons, getLoop, if_neg hp]
    by_cases hd : s.heap.isDeleted p = true
    · have hr' : Ring advance back s.plist ((ys ++ [p]) ++ zs) := by simpa using hr
      rw [if_neg (by simp [hd]), hr.next_mid, ih hr' (by omega)]
      simp [hd]
    · simp [hd, ListState.lookedUp]

/-- The whole loops, from the first node behind the head. -/
theorem findLoop_ring (hr : s.heap.Ring s.plist xs) (key : UInt64) (hn : xs.length < n) :
    findLoop s key n (s.heap.next s.plist) =
      some (s.lookedUp s.heap (xs.find? fun p => s.heap.key p = key)) := by
  have hr' : s.heap.Ring s.plist ([] ++ xs) := hr
  rw [Ring.next_head hr]
  exact findLoop_scan hr' key hn

/-- The loops of `doublylinkedlistGetFirst` and `doublylinkedlistGetLast` find the first entry in
    their direction that is not deleted; if there is none, they count a reference for the head. -/
theorem getLoop_ring {advance back : Ptr → Ptr} (hr : Ring advance back s.plist xs)
    (hn : xs.length < n) :
    getLoop s advance n (advance s.plist) =
      some (s.lookedUp (addReference s.plist s.heap s.plist)
        (xs.find? fun p => !s.heap.isDeleted p)) := by
  have hr' : Ring advance back s.plist ([] ++ xs) := hr
  rw [hr.next_head]
  exact getLoop_scan hr' hn

/-! ### The calls -/

/-- What a lookup does to the heap if it returns `NULL`. -/
def Lookup.stop (s : ListState) : Lookup → Heap
  | .find _ => s.heap
  | .getFirst | .getLast => addReference s.plist s.heap s.plist

/-- The same call as one of a run. -/
def Lookup.op : Lookup → Op
  | .find key => .find key
  | .getFirst => .getFirst
  | .getLast => .getLast

/-- The three functions among the calls of the interface. -/
theorem Lookup.exec_op (c : Lookup) (fuel : ℕ) (s : ListState) :
    DoublyLinkedList.exec fuel s c.op = c.exec fuel s := by
  cases c <;> rfl

/-- More iterations change nothing. -/
theorem Lookup.exec_mono {c : Lookup} {m : ℕ} (hnm : n ≤ m) (h : c.exec n s = some s') :
    c.exec m s = some s' := by
  rw [← exec_op] at h ⊢
  exact DoublyLinkedList.exec_mono hnm h

/-- **Run.**  A lookup returns, with the entry that is looked for. -/
theorem Lookup.exec_eq (hr : s.heap.Ring s.plist xs) (hlock : s.isActiveEntriesLocked = false)
    (c : Lookup) (hn : xs.length < n) :
    c.exec n s = some (s.lookedUp (c.stop s) (c.result s xs)) := by
  -- the loops run under the lock, which is released with everything else as before
  obtain ⟨t, hlocked, hheap, hplist, hsame⟩ : ∃ t, s.lockActive = some t ∧ t.heap = s.heap ∧
      t.plist = s.plist ∧ ∀ stop r, t.lookedUp stop r = s.lookedUp stop r := by
    refine ⟨{ s with isActiveEntriesLocked := true }, ?_, rfl, rfl, ?_⟩
    · rw [ListState.lockActive, if_neg (by simp [hlock])]
    · intro stop r
      cases r <;> rfl
  rw [← hheap, ← hplist] at hr
  cases c with
  | find key =>
    show s.lockActive.bind _ = _
    rw [hlocked, Option.bind_some, findLoop_ring hr key hn, hsame, hheap]
    rfl
  | getFirst =>
    show s.lockActive.bind _ = _
    rw [hlocked, Option.bind_some, getLoop_ring hr hn, hsame, hheap, hplist]
    rfl
  | getLast =>
    show s.lockActive.bind _ = _
    have hn' : xs.reverse.length < n := by rwa [List.length_reverse]
    rw [hlocked, Option.bind_some, getLoop_ring hr.reverse hn', hsame, hheap, hplist]
    rfl

theorem Lookup.result_mem {c : Lookup} (h : c.result s xs = some p) : p ∈ xs := by
  cases c with
  | find key => exact List.mem_of_find?_eq_some h
  | getFirst => exact List.mem_of_find?_eq_some h
  | getLast => exact List.mem_reverse.mp (List.mem_of_find?_eq_some h)

/-! ### What has changed -/

/-- An increment of the low half changes a pointer. -/
theorem lowWordSucc_ne (p : Ptr) : lowWordSucc p ≠ p := by
  show (p / 2 ^ 32 * 2 ^ 32 + (p + 1) % 2 ^ 32 : ℕ) ≠ p
  omega

/-- The head of the deleted ring is hit. -/
theorem addReference_head_ne (h : Heap) (plist : Ptr) : addReference plist h plist ≠ h := by
  intro heq
  have hnext := congrFun (congrArg Heap.next heq) (deletedEntries plist)
  rw [addReference, if_pos rfl] at hnext
  simp only [Heap.setNext, Function.update_self] at hnext
  exact lowWordSucc_ne _ hnext

/-- A counter goes up unless it is at its maximum. -/
theorem toNat_add_one_iff (n : UInt32) : (n + 1).toNat = n.toNat + 1 ↔ n.toNat ≠ 2 ^ 32 - 1 := by
  have hn := n.toNat_lt
  have h1 : (1 : UInt32).toNat = 1 := rfl
  rw [UInt32.toNat_add, h1]
  omega

/-- With an entry: the counter must not wrap around. -/
theorem undisturbed_some (hlock : s.isActiveEntriesLocked = false) (hp : p ≠ s.plist)
    (stop : Heap) :
    Undisturbed s (s.lookedUp stop (some p)) (some p) ↔
      (s.heap.references p).toNat ≠ 2 ^ 32 - 1 := by
  have hheap : (s.lookedUp stop (some p)).heap =
      s.heap.setReferences p (s.heap.references p + 1) := if_neg hp
  rw [← toNat_add_one_iff]
  constructor
  · intro hu
    obtain ⟨n, hn, hset⟩ := hu.entry p rfl
    rw [hheap] at hset
    have hrefs := congrFun (congrArg Heap.references hset) p
    simp only [Heap.setReferences, Function.update_self] at hrefs
    rw [hrefs, hn]
  · intro hcount
    refine ⟨rfl, hlock.symm, rfl, rfl, fun h => (Option.some_ne_none p h).elim, ?_⟩
    intro q hq
    obtain rfl := Option.some.inj hq
    exact ⟨_, hcount, hheap⟩

/-- Without one: nothing may have been written. -/
theorem undisturbed_none (hlock : s.isActiveEntriesLocked = false) (stop : Heap) :
    Undisturbed s (s.lookedUp stop none) none ↔ stop = s.heap := by
  constructor
  · exact fun hu => hu.null rfl
  · exact fun hstop => ⟨rfl, hlock.symm, rfl, rfl, fun _ => hstop, fun p hp => by cases hp⟩

/-- **Lookups disturb nothing.**  A lookup returns; it leaves everything else as it was exactly if
    the number of references to its result does not wrap around, and there is a result unless the
    lookup is one by key. -/
theorem lookup_disturbs_nothing (hr : s.heap.Ring s.plist xs)
    (hlock : s.isActiveEntriesLocked = false) (c : Lookup) :
    (∃ n s', c.exec n s = some s') ∧
    ∀ n s', c.exec n s = some s' →
      (Undisturbed s s' (c.result s xs) ↔
        (∀ p, c.result s xs = some p → (s.heap.references p).toNat ≠ 2 ^ 32 - 1) ∧
          (c.result s xs = none → ∃ key, c = .find key)) := by
  have hrun := c.exec_eq hr hlock (Nat.lt_succ_self xs.length)
  refine ⟨⟨_, _, hrun⟩, ?_⟩
  intro n s' hexec
  -- the state that is returned does not depend on the number of iterations
  have hs' : s' = s.lookedUp (c.stop s) (c.result s xs) := by
    have hmax := Lookup.exec_mono (Nat.le_max_left n (xs.length + 1)) hexec
    rw [c.exec_eq hr hlock (by omega)] at hmax
    exact (Option.some.inj hmax).symm
  rw [hs']
  cases hres : c.result s xs with
  | some p =>
    have hp : p ≠ s.plist := hr.ne_head (Lookup.result_mem hres)
    rw [undisturbed_some hlock hp]
    simp
  | none =>
    rw [undisturbed_none hlock]
    cases c with
    | find key => simp [Lookup.stop]
    | getFirst => simpa [Lookup.stop] using addReference_head_ne s.heap s.plist
    | getLast => simpa [Lookup.stop] using addReference_head_ne s.heap s.plist

/-- A list with one entry. -/
def oneEntry : ListState :=
  { doublylinkedlistAlloc Heap.zero 4096 with
    heap := entryHeaderAdd ((doublylinkedlistAlloc Heap.zero 4096).heap.newEntry 8192 7 [1])
      4096 8192 }

/-- The last entry of a list with one entry is looked up, and nothing is disturbed. -/
theorem lookup_disturbs_nothing_one : ∃ n s', Lookup.getLast.exec n oneEntry = some s' ∧
    Undisturbed oneEntry s' (some 8192) := by
  have hr : oneEntry.heap.Ring oneEntry.plist [8192] := ⟨⟨⟨rfl, rfl⟩, rfl, rfl⟩, by decide⟩
  obtain ⟨⟨n, s', hexec⟩, hall⟩ := lookup_disturbs_nothing hr rfl .getLast
  have hres : Lookup.getLast.result oneEntry [8192] = some 8192 := rfl
  have hiff := hall n s' hexec
  rw [hres] at hiff
  refine ⟨n, s', hexec, hiff.mpr ⟨?_, fun h => by cases h⟩⟩
  intro p hp
  obtain rfl := Option.some.inj hp
  decide

/-- The first entry of an empty list: `NULL` is returned, and the head of the deleted ring, which
    pointed to itself, points one byte further. -/
theorem getFirst_disturbs_deletedEntries :
    (doublylinkedlistAlloc Heap.zero 4096).heap.next (deletedEntries 4096) = 4120 ∧
      ∃ s', doublylinkedlistGetFirst 1 (doublylinkedlistAlloc Heap.zero 4096) = some s' ∧
        s'.returned = [none] ∧ s'.heap.next (deletedEntries 4096) = 4121 :=
  ⟨rfl, _, rfl, rfl, rfl⟩

end Niuchacz.DoublyLinkedList
