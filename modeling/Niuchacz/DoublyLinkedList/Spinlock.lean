import Niuchacz.DoublyLinkedList.Completion
import Niuchacz.Lib.Refinement

namespace Niuchacz.DoublyLinkedList.Concurrent

open Lib.Locks Lib.Transition Lib.Refinement

/-!
# The spinlocks of the list

The shared list once more, with the code of `spinlock.c` in place of locks that make a thread
wait: a lock is a flag, a thread that finds it set reads it again and again, and nothing else
keeps a thread out.  The owners that `Shared.lock` names become bookkeeping that no step looks
at.

* `spinlockLock`, `spinlockUnlock` — one step of the functions on the flag.
* `spinStep` — one step of the list functions over them.
* `FlagsOwned` — a flag is set exactly while the lock has an owner.
* `exclusive_run` — a lock belongs to the one thread that stands where it is held, whatever else
  the threads do.
* `spinlock_refines` — the list over spinlocks is the list over locks, up to the waiting.
* `list_calls_complete` — the threads can always get out of the list's functions.
-/

/-! ### The functions of `spinlock.c` -/

/-- Where a thread is in `spinlockLock`: before the atomic test-and-set, or in the inner loop. -/
inductive SpinPc where
  | testAndSet
  | load
  deriving DecidableEq

/-- `__atomic_test_and_set`: the flag afterwards, and what it was before. -/
def atomicTestAndSet (flag : Bool) : Bool × Bool := (true, flag)

/-- One step of `spinlockLock`: the flag afterwards, and where the thread is then, `none` when it
    has returned. -/
def spinlockLock (flag : Bool) : SpinPc → Bool × Option SpinPc
  | .testAndSet =>
      let (flag', old) := atomicTestAndSet flag
      (flag', if !old then none else some .load)
  | .load => (flag, if flag then some .load else some .testAndSet)

/-- `spinlockUnlock`: `__atomic_clear`. -/
def spinlockUnlock (_flag : Bool) : Bool := false

/-! ### The list over them -/

/-- The list with its two flags, and where each thread is in `spinlockLock` if it is there. -/
structure SpinState (ι : Type) where
  list : State ι
  flag : Side → Bool
  spin : ι → SpinPc

/-- The lock that a thread gives up next. -/
def gives : Pc → Option Side
  | .addUnlock _ | .findUnlock _ | .delUnlock _ => some .active
  | .delUnlockDeleted _ | .sweepUnlock _ => some .deleted
  | _ => none

variable {ι : Type}

/-- A list that `doublylinkedlistAlloc` has just returned: both flags are clear. -/
def spinStart (ι : Type) (h : Heap) (plist : Ptr) : SpinState ι where
  list := start ι h plist
  flag := fun _ => false
  spin := fun _ => .testAndSet

variable [DecidableEq ι]

/-- Thread `t` has returned from `spinlockLock` on the flag of `k`. -/
def enter (s : State ι) (t : ι) (k : Side) : State ι :=
  s.apply t ({ s.sh with lock := Function.update s.sh.lock k (some t) }, entered s.sh (s.pc t))

/-- One step of thread `t` in `spinlockLock`. -/
def spinLock (s : SpinState ι) (t : ι) (k : Side) : SpinState ι :=
  match spinlockLock (s.flag k) (s.spin t) with
  | (flag', none) =>
      { list := enter s.list t k
        flag := Function.update s.flag k flag'
        spin := Function.update s.spin t .testAndSet }
  | (flag', some sp) =>
      { s with
        flag := Function.update s.flag k flag'
        spin := Function.update s.spin t sp }

/-- The flags after a step from `p` that is not one of `spinlockLock`. -/
def flagsAfter (flag : Side → Bool) (p : Pc) : Side → Bool :=
  match gives p with
  | some k => Function.update flag k (spinlockUnlock (flag k))
  | none => flag

/-- One step of the system. -/
def spinStep (s : SpinState ι) : ι × Act → Option (SpinState ι)
  | (t, .go) =>
      match (s.list.pc t).wants with
      | some k => some (spinLock s t k)
      | none => (step s.list (t, .go)).map fun l =>
          { s with list := l, flag := flagsAfter s.flag (s.list.pc t) }
  | (t, .call c) => (step s.list (t, .call c)).map fun l => { s with list := l }

/-! ### Refinement -/

/-- A flag is set exactly while the lock has an owner. -/
def FlagsOwned (s : SpinState ι) : Prop := ∀ k, s.flag k = (s.list.sh.lock k).isSome

omit [DecidableEq ι] in
/-- In a new list both flags are clear and both locks free. -/
theorem flagsOwned_start (h : Heap) (plist : Ptr) : FlagsOwned (spinStart ι h plist) :=
  fun _ => rfl

/-- A thread that has found the flag clear takes the lock; any other step in `spinlockLock` is
    waiting. -/
theorem spinLock_cases (s : SpinState ι) (t : ι) (k : Side) :
    (s.spin t = .testAndSet ∧ s.flag k = false ∧
      spinLock s t k = ⟨enter s.list t k, Function.update s.flag k true,
        Function.update s.spin t .testAndSet⟩) ∨
    ∃ sp, spinLock s t k = { s with spin := Function.update s.spin t sp } := by
  cases hsp : s.spin t with
  -- ==> the outer loop: the flag is free and set now, or it was set already
  | testAndSet =>
    cases hf : s.flag k with
    | false =>
      left
      refine ⟨rfl, rfl, ?_⟩
      simp [spinLock, spinlockLock, atomicTestAndSet, hsp, hf]
    | true =>
      right
      refine ⟨.load, ?_⟩
      have hsame : Function.update s.flag k true = s.flag := by rw [← hf, Function.update_eq_self]
      simp [spinLock, spinlockLock, atomicTestAndSet, hsp, hf, hsame]
  -- ==> the inner loop only looks at the flag
  | load =>
    right
    refine ⟨if s.flag k then .load else .testAndSet, ?_⟩
    cases hf : s.flag k with
    | false =>
      have hsame : Function.update s.flag k false = s.flag := by rw [← hf, Function.update_eq_self]
      simp [spinLock, spinlockLock, hsp, hf, hsame]
    | true =>
      have hsame : Function.update s.flag k true = s.flag := by rw [← hf, Function.update_eq_self]
      simp [spinLock, spinlockLock, hsp, hf, hsame]

omit [DecidableEq ι] in
/-- A step that takes no lock gives up the one that `gives` names, if any. -/
theorem lock_go {s : Shared ι} {t : ι} {p : Pc} {o : Shared ι × Pc} (hw : p.wants = none)
    (h : stepGo s t p = some o) (k : Side) :
    o.1.lock k = if gives p = some k then none else s.lock k := by
  cases p with
  | idle => cases h
  | addLock q | findLock key | delLock q | delLockDeleted q | sweepLock => cases hw
  | findTest key q =>
    simp only [stepGo] at h
    split at h
    · cases h; rfl
    · split at h <;> (cases h; rfl)
  | sweepTest due q =>
    simp only [stepGo] at h
    split at h <;> (cases h; rfl)
  | addUnlock q | findUnlock r | delUnlockDeleted q | delUnlock q | sweepUnlock due =>
    cases h
    cases k <;> simp [gives, Shared.unlock]
  | _ => cases h; rfl

/-- A call takes and gives no lock. -/
theorem lock_call {s : Shared ι} {t : ι} {c : Call} {o : Shared ι × Pc}
    (h : stepCall s t c = some o) : o.1.lock = s.lock ∧ ∀ k, o.2.holds k = Pc.idle.holds k := by
  match c with
  | .add key data (some q) =>
    simp only [stepCall] at h
    split at h
    · cases h
    · cases h
      exact ⟨rfl, fun _ => rfl⟩
  | .add key data none | .find key | .release q | .del q | .freeDeletedEntries =>
    cases h
    exact ⟨rfl, fun _ => rfl⟩

omit [DecidableEq ι] in
/-- Where a thread stands after such a step, it holds what it held but for that lock. -/
theorem holds_go {s : Shared ι} {t : ι} {p : Pc} {o : Shared ι × Pc} (hw : p.wants = none)
    (h : stepGo s t p = some o) (k : Side) :
    o.2.holds k = if gives p = some k then false else p.holds k := by
  cases p with
  | idle => cases h
  | addLock q | findLock key | delLock q | delLockDeleted q | sweepLock => cases hw
  | addLink q n | delUnlink q n | delLink q n | sweepUnlink due q pnext n =>
    cases h
    dsimp only
    split <;> rfl
  | findTest key q =>
    simp only [stepGo] at h
    split at h
    · cases h; rfl
    · split at h <;> (cases h; rfl)
  | sweepTest due q =>
    simp only [stepGo] at h
    split at h
    · cases h; rfl
    · cases h
      dsimp only
      split <;> rfl
  | delTest q | sweepLoad due q =>
    cases h
    dsimp only
    split <;> rfl
  -- the steps of `spinlockUnlock`
  | addUnlock q | findUnlock r | delUnlockDeleted q | delUnlock q | sweepUnlock due =>
    cases h
    cases k <;> rfl
  | _ => cases h; rfl

/-- A thread holds the lock that it is about to give up. -/
theorem holds_of_gives {p : Pc} {k : Side} (h : gives p = some k) : p.holds k = true := by
  cases p <;> first | (cases h; rfl) | cases h

omit [DecidableEq ι] in
/-- A thread that takes a lock holds it, beside those it has held before. -/
theorem holds_entered {s : Shared ι} {p : Pc} {k j : Side} (hw : p.wants = some k) :
    (entered s p).holds j = if j = k then true else p.holds j := by
  cases p <;> first | (cases hw; cases j <;> rfl) | cases hw

omit [DecidableEq ι] in
/-- What a step inside a function does to a lock. -/
theorem effect_go {s : Shared ι} {t : ι} {p : Pc} {o : Shared ι × Pc} (h : stepGo s t p = some o)
    (k : Side) : Effect Pc.holds s.lock o.1.lock t p o.2 k := by
  cases hw : p.wants with
  | some j =>
    rw [stepGo_of_wants hw] at h
    obtain ⟨hfree, rfl⟩ := lockThen_eq_some_iff.mp h
    refine Effect.take hfree ?_ fun hne => ?_
    · rw [holds_entered hw, if_pos rfl]
    · rw [holds_entered hw, if_neg hne]
  | none =>
    have hlock := lock_go hw h k
    have hholds := holds_go hw h k
    by_cases hg : gives p = some k
    · rw [if_pos hg] at hlock hholds
      exact Or.inr (Or.inr ⟨holds_of_gives hg, hlock, hholds⟩)
    · rw [if_neg hg] at hlock hholds
      exact Effect.stay hlock hholds

/-- Unfolding lemma: the flag of the lock that is given up is cleared, the other one stays. -/
theorem flagsAfter_apply (flag : Side → Bool) (p : Pc) (k : Side) :
    flagsAfter flag p k = if gives p = some k then false else flag k := by
  unfold flagsAfter
  cases gives p with
  | none => rfl
  | some j =>
    by_cases hj : k = j
    · subst hj
      simp [spinlockUnlock]
    · simp [Function.update_of_ne hj, Ne.symm hj]

/-- The owner of the flag is the thread that has set it. -/
theorem step_enter {s : State ι} {t : ι} {k : Side} (hw : (s.pc t).wants = some k)
    (hl : s.sh.lock k = none) : step s (t, .go) = some (enter s t k) := by
  have ho := stepGo_of_wants (s := s.sh) (t := t) hw
  rw [lockThen, hl] at ho
  simp only [step, outcome, ho, Option.map_some, enter]

/-- **One step.**  A step over the flags is waiting, or the same step of the list over locks. -/
theorem spinStep_refines {s s' : SpinState ι} {l : ι × Act} (hf : FlagsOwned s)
    (hs : spinStep s l = some s') :
    FlagsOwned s' ∧ (s'.list = s.list ∨ step s.list l = some s'.list) := by
  obtain ⟨t, a⟩ := l
  cases a with
  | call c =>
    obtain ⟨l', hl', rfl⟩ := Option.map_eq_some_iff.mp hs
    refine ⟨?_, Or.inr hl'⟩
    obtain ⟨o, ho, rfl⟩ := Option.map_eq_some_iff.mp hl'
    simp only [outcome] at ho
    split at ho
    · intro k
      show s.flag k = (o.1.lock k).isSome
      rw [(lock_call ho).1]
      exact hf k
    · cases ho
  | go =>
    simp only [spinStep] at hs
    cases hw : (s.list.pc t).wants with
    -- ==> a step of `spinlockLock`
    | some k =>
      rw [hw] at hs
      cases hs
      rcases spinLock_cases s t k with ⟨-, hfree, heq⟩ | ⟨sp, heq⟩
      -- it takes the flag: then no thread has the lock
      · rw [heq]
        have hl : s.list.sh.lock k = none := by
          rw [← Option.isNone_iff_eq_none, ← Option.not_isSome, ← hf k, hfree]
          rfl
        refine ⟨?_, Or.inr (step_enter hw hl)⟩
        intro j
        show Function.update s.flag k true j = (Function.update s.list.sh.lock k (some t) j).isSome
        by_cases hj : j = k
        · subst hj
          simp
        · rw [Function.update_of_ne hj, Function.update_of_ne hj]
          exact hf j
      -- it spins: the list does not change
      · rw [heq]
        exact ⟨hf, Or.inl rfl⟩
    -- ==> any other step; it may give a lock up
    | none =>
      rw [hw] at hs
      obtain ⟨l', hl', rfl⟩ := Option.map_eq_some_iff.mp hs
      refine ⟨?_, Or.inr hl'⟩
      obtain ⟨o, ho, rfl⟩ := Option.map_eq_some_iff.mp hl'
      intro k
      show flagsAfter s.flag (s.list.pc t) k = (o.1.lock k).isSome
      rw [flagsAfter_apply, lock_go hw ho k]
      split
      · rfl
      · exact hf k

/-- A thread that finds the flag clear in the inner loop goes back to the test-and-set. -/
theorem spinLock_load {s : SpinState ι} {t : ι} {k : Side} (hsp : s.spin t = .load)
    (hfree : s.flag k = false) :
    spinLock s t k = { s with spin := Function.update s.spin t .testAndSet } := by
  have hsame : Function.update s.flag k false = s.flag := by rw [← hfree, Function.update_eq_self]
  simp [spinLock, spinlockLock, hsp, hfree, hsame]

/-- **One step, the other way.**  A step of the list over locks takes at most two over the flags:
    a thread in the inner loop sees the clear flag and then sets it. -/
theorem spinStep_expands {s : SpinState ι} {l : ι × Act} {s' : State ι} (hf : FlagsOwned s)
    (hs : step s.list l = some s') :
    ∃ h s₂, Run spinStep s h s₂ ∧ FlagsOwned s₂ ∧ s₂.list = s' ∧ ∀ p ∈ h, p.2 = l := by
  -- one step over the flags that leads to `s'` is enough
  have hone : ∀ {s₁ s₂ : SpinState ι}, FlagsOwned s₁ → spinStep s₁ l = some s₂ → s₂.list = s' →
      ∃ h s₂, Run spinStep s₁ h s₂ ∧ FlagsOwned s₂ ∧ s₂.list = s' ∧ ∀ p ∈ h, p.2 = l :=
    fun hf₁ hstep hlist =>
      ⟨_, _, Run.single hstep, (spinStep_refines hf₁ hstep).1, hlist, by simp⟩
  obtain ⟨t, a⟩ := l
  cases a with
  | call c => exact hone hf (by simp only [spinStep, hs, Option.map_some]; rfl) rfl
  | go =>
    cases hw : (s.list.pc t).wants with
    | none => exact hone hf (by simp only [spinStep, hw, hs, Option.map_some]; rfl) rfl
    | some k =>
      have hl : s.list.sh.lock k = none := by
        obtain ⟨o, ho, -⟩ := Option.map_eq_some_iff.mp hs
        rw [show outcome s.list.sh t (s.list.pc t) .go = stepGo s.list.sh t (s.list.pc t) from rfl,
          stepGo_of_wants hw] at ho
        exact (lockThen_eq_some_iff.mp ho).1
      have hfree : s.flag k = false := by rw [hf k, hl]; rfl
      rw [step_enter hw hl] at hs
      cases hs
      have hspin : ∀ {s₁ : SpinState ι}, s₁.list = s.list → spinStep s₁ (t, .go) =
          some (spinLock s₁ t k) := by
        intro s₁ hlist
        simp only [spinStep, hlist, hw]
      -- the test-and-set on a clear flag
      have hset : ∀ {s₁ : SpinState ι}, s₁.list = s.list → s₁.flag k = false →
          s₁.spin t = .testAndSet → (spinLock s₁ t k).list = enter s.list t k := by
        intro s₁ hlist hfree₁ hsp₁
        simp [spinLock, spinlockLock, atomicTestAndSet, hsp₁, hfree₁, hlist]
      cases hsp : s.spin t with
      | testAndSet => exact hone hf (hspin rfl) (hset rfl hfree hsp)
      | load =>
        have hback := hspin (rfl : s.list = s.list)
        rw [spinLock_load hsp hfree] at hback
        obtain ⟨h, s₂, hrun, hf₂, hlist, hlabels⟩ :=
          hone (spinStep_refines hf hback).1 (hspin rfl) (hset rfl hfree (Function.update_self ..))
        refine ⟨_, s₂, (Run.single hback).trans hrun, hf₂, hlist, ?_⟩
        intro p hp
        rcases List.mem_append.mp hp with hp | hp
        · rw [List.mem_singleton.mp hp]
        · exact hlabels p hp

/-! ### Whole runs -/

/-- **Run.** -/
theorem refines_run {h : Heap} {plist : Ptr} {hist : List (SpinState ι × (ι × Act))}
    {s : SpinState ι} (hr : Run spinStep (spinStart ι h plist) hist s) :
    FlagsOwned s ∧ ∃ hist', Run step (start ι h plist) hist' s.list ∧
      hist'.Sublist (hist.map fun p => (p.1.list, p.2)) :=
  stutter SpinState.list (flagsOwned_start h plist)
    (fun _ _ _ hf hs => spinStep_refines hf hs) hr

/-- What the threads owe to each other is asked of the steps of the list, waiting or not. -/
theorem inv_of_spinRun {h : Heap} {plist : Ptr} {hist : List (SpinState ι × (ι × Act))}
    {s : SpinState ι} (hr : Run spinStep (spinStart ι h plist) hist s)
    (hok : ∀ p ∈ hist, Disciplined p.1.list p.2 ∧ NoOverflow p.1.list p.2) : Inv s.list := by
  obtain ⟨-, hist', hrun, hsub⟩ := refines_run hr
  refine inv_run hrun ?_
  intro p hp
  obtain ⟨q, hq, rfl⟩ := List.mem_map.mp (hsub.subset hp)
  exact hok q hq

/-- **Step.**  The owner of a lock is the thread that stands where it is held. -/
theorem exclusive_step {s s' : State ι} {l : ι × Act} (hx : Exclusive Pc.holds s.sh.lock s.pc)
    (hs : step s l = some s') : Exclusive Pc.holds s'.sh.lock s'.pc := by
  obtain ⟨t, a⟩ := l
  obtain ⟨o, ho, rfl⟩ := Option.map_eq_some_iff.mp hs
  -- a call starts without locks
  have heffect : ∀ k, Effect Pc.holds s.sh.lock o.1.lock t (s.pc t) o.2 k := by
    intro k
    cases a with
    | go => exact effect_go ho k
    | call c =>
      simp only [outcome] at ho
      split at ho
      · rename_i hidle
        rw [hidle]
        obtain ⟨hlock, hholds⟩ := lock_call ho
        exact Effect.stay (by rw [hlock]) (hholds k)
      · cases ho
  refine hx.step (t := t) (fun k => ?_) fun k u hu => ?_
  · simp only [State.apply, Function.update_self]
    exact heffect k
  · simp only [State.apply, Function.update_of_ne hu]

/-- The step keeps the discipline and does not overflow a count, evaluated. -/
def spinCheck (s : SpinState ι) (l : ι × Act) : Bool :=
  disciplinedCheck s.list l && noOverflowCheck s.list l

/-- The test decides the discipline and that no counter overflows, along a whole run. -/
theorem of_spinCheck {hist : List (SpinState ι × (ι × Act))}
    (hok : ∀ p ∈ hist, spinCheck p.1 p.2 = true) :
    ∀ p ∈ hist, Disciplined p.1.list p.2 ∧ NoOverflow p.1.list p.2 := by
  intro p hp
  have h := hok p hp
  rw [spinCheck, Bool.and_eq_true] at h
  exact ⟨disciplined_of_check h.1, noOverflow_of_check h.2⟩

/-- One thread adds an entry, the other one looks for it and waits for the flag. -/
def waiting : List (Bool × Act) :=
  [(false, .call (.add 7 [] (some 200))), (true, .call (.find 7)), (false, .go), (true, .go),
    (false, .go), (true, .go)]

/-- **Calls can be finished.**  After any run of disciplined threads, wherever they are in the
    list's functions or waiting for its flags, they can all get out without anybody calling
    another function; then both flags are clear and both rings well formed. -/
theorem list_calls_complete [Fintype ι] (h : Heap) (plist : Ptr)
    (hist : List (SpinState ι × (ι × Act))) (s : SpinState ι)
    (hr : Run spinStep (spinStart ι h plist) hist s)
    (hok : ∀ p ∈ hist, Disciplined p.1.list p.2 ∧ NoOverflow p.1.list p.2)
    (hroom : s.list.sh.holders.length + Fintype.card ι < 2 ^ 32) :
    ∃ hist' s', Run spinStep s hist' s' ∧ (∀ p ∈ hist', p.2.2 = .go) ∧
      (∀ t, s'.list.pc t = .idle) ∧
      ∀ k, s'.flag k = false ∧
        s'.list.sh.heap.Ring (s'.list.sh.head k) (s'.list.sh.ring k) := by
  have hf : FlagsOwned s := (refines_run hr).1
  have hcard : (busy s.list).card ≤ Fintype.card ι := Finset.card_le_univ _
  -- over locks all calls can be finished
  obtain ⟨h', l', hrun, hgo, hinv', hidle⟩ := drain (inv_of_spinRun hr hok) (by omega)
  -- and every step over locks is made by steps over flags
  obtain ⟨hist', s', hrun', hf', rfl, hlabels⟩ :=
    expand SpinState.list hf (fun _ _ _ hf hs => spinStep_expands hf hs) hrun
  refine ⟨hist', s', hrun', ?_, hidle, ?_⟩
  · intro p hp
    obtain ⟨q, hq, heq⟩ := hlabels p hp
    rw [heq]
    exact hgo q hq
  · intro k
    -- nobody is in a call, so nobody holds a lock
    have hl : s'.list.sh.lock k = none := by
      cases hl : s'.list.sh.lock k with
      | none => rfl
      | some t =>
        have ht := (hinv'.excl k t).mp hl
        rw [hidle t] at ht
        cases ht
    exact ⟨by rw [hf' k, hl]; rfl, hinv'.ring_of_free hl⟩

/-- From there both threads can finish. -/
theorem list_calls_complete_waiting :
    ∃ (hist : List (SpinState Bool × (Bool × Act))) (s : SpinState Bool),
      Run spinStep (spinStart Bool Heap.zero 100) hist s ∧ s.spin true = .load ∧
      ∃ hist' s', Run spinStep s hist' s' ∧ ∀ t, s'.list.pc t = .idle := by
  obtain ⟨hist, s, hr, hok, hs⟩ := exists_run_of_play spinStep (spinStart Bool Heap.zero 100)
    spinCheck (fun s => s.spin true = .load && s.list.sh.holders.length = 1) waiting
    (by decide)
  simp only [Bool.and_eq_true, decide_eq_true_eq] at hs
  obtain ⟨hist', s', hrun, -, hidle, -⟩ :=
    list_calls_complete Heap.zero 100 hist s hr (of_spinCheck hok) (by rw [hs.2]; decide)
  exact ⟨hist, s, hr, hs.1, hist', s', hrun, hidle⟩

end Niuchacz.DoublyLinkedList.Concurrent
